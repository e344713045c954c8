import Servanda.Cursor
import Servanda.Hpke
import Servanda.Hub
import Servanda.Links

/-!
The client of a hub: what it seals and posts, how it answers the challenge that an inbox is guarded
with, and what it opens of what it is handed.
-/

namespace Servanda.Courier

open Unicode Scan JsonRpc Signing Hub Hpke IdentityHash RecordBinding Lines
open Cursor (TimeValue)

/-- A digit of either alphabet. -/
def bufferValue (u : CodeUnit) : Option ℕ :=
  if u = unit '-' then some 62 else if u = unit '_' then some 63 else Links.stdValue u

/-- What a buffer reads as base64: what is no digit is passed over. -/
def ofBase64 (s : Text) : Bytes :=
  let digits := s.filterMap bufferValue
  ((Base64.octets (if digits.length % 4 = 1 then digits.dropLast else digits))).getD []

def toBase64 (bytes : Bytes) : Text :=
  (Base64.sextets bytes).map Links.stdDigit ++ List.replicate ((3 - bytes.length % 3) % 3) (unit '=')

inductive HubTransportError
  | noRecipientKey (recipient : Text)
  | jcsDepthExceeded
  | sealing (cause : SealError)
  | refusedDelivery (status : ℕ)
  | notItsOwnInbox
  | servedUnchallenged
  | noChallenge (status : ℕ)
  | refusedInbox (status : ℕ)
  | typeError
  | malformedHex
  deriving DecidableEq

def decimal (n : ℕ) : Text := units (Nat.toDigits 10 n)

/-- The text of an error of this module, and of one of its own that sealing throws. -/
def HubTransportError.message : HubTransportError → Option Text
  | noRecipientKey recipient => some (text "no authenticated X25519 key for " ++
      recipient.take 16 ++ text "…; refusing to seal (§6.3)")
  | sealing cause => cause.message
  | refusedDelivery status => some (text "hub refused delivery: HTTP " ++ decimal status)
  | notItsOwnInbox => some (text "a hub client reads only its own inbox (§6.7)")
  | servedUnchallenged =>
    some (text "§6.1: a hub MUST NOT serve an inbox without a signed challenge")
  | noChallenge status => some (text "hub did not issue a challenge: HTTP " ++ decimal status)
  | refusedInbox status => some (text "hub refused inbox: HTTP " ++ decimal status)
  | jcsDepthExceeded | typeError | malformedHex => none

def hubEnvelopeAad (recipient sentAt : Text) : Option Bytes :=
  canonicalBytes (.obj [(text "v", .str protocolVersion), (text "type", .str (text "hub_envelope")),
    (text "recipient", .str recipient), (text "sent_at", .str sentAt)])

/-- An envelope as a client puts it together, before anything has checked it. -/
@[ext] structure Posted where
  recipient : Text
  sent : SealedForPersona
  sentAt : Text
  deriving DecidableEq

def Posted.toJson (e : Posted) : Json :=
  .obj [(text "v", .str protocolVersion), (text "type", .str (text "hub_envelope")),
    (text "recipient", .str e.recipient),
    (text "sealed", .obj [(text "v", .str protocolVersion), (text "epk", .str e.sent.epk),
      (text "ciphertext", .str e.sent.ciphertext)]),
    (text "sent_at", .str e.sentAt)]

def posted (e : HubEnvelope) : Posted :=
  ⟨e.recipient.val, ⟨e.envelope.epk.val, e.envelope.ciphertext.val⟩, e.sentAt.val⟩

def readSealed (v : Value) : Option Sealed := do
  guard (isLiteral v (text "v") protocolVersion)
  let epk ← checked isHex64 v (text "epk")
  let ciphertext ← checked isHexText v (text "ciphertext")
  some { epk, ciphertext }

/-- What a recipient parses: it passes over the members that a hub refuses. -/
def readEnvelope (raw : Value) : Option HubEnvelope := do
  guard (isLiteral raw (text "v") protocolVersion)
  guard (isLiteral raw (text "type") (text "hub_envelope"))
  let recipient ← checked isHex64 raw (text "recipient")
  let envelope ← (raw.member (text "sealed")).bind readSealed
  let sentAt ← checked isRfc3339 raw (text "sent_at")
  some { recipient, envelope, sentAt }

structure HubClientOptions where
  baseUrl : Text
  persona : Text
  privateKey : Text
  dhPrivateKey : Text
  resolveDhKey : Text → Option Text

structure HubClient where
  baseUrl : Text
  persona : Text
  privateKey : Text
  dhPrivateKey : Text
  resolveDhKey : Text → Option Text

def HubClient.new (opts : HubClientOptions) : HubClient where
  baseUrl := opts.baseUrl.rdropWhile (· = unit '/')
  persona := opts.persona
  privateKey := opts.privateKey
  dhPrivateKey := opts.dhPrivateKey
  resolveDhKey := opts.resolveDhKey

structure Response where
  status : ℕ
  body : Value

def Response.ok (r : Response) : Bool := r.status < 400

/-- The requests a client makes: the text it posts, or an inbox with what authorizes the call. -/
inductive Request
  | deliver (body : Text)
  | inbox (persona : Text) (authorization : Option Text)

section Client

variable {Digest : Type} (p : Primitives) (numerals : JsonParse.Numerals) (crypto : Crypto)
  (safeParse : Value → Bootstrap.Decoded) (sha256 : List UInt8 → Digest)
  (sign : Text → Digest → Option Text)

def HubClient.sealFor (client : HubClient) (recipient : Text) (message : Json)
    (now : TimeValue) (skE : Bytes) : Except HubTransportError Posted :=
  match client.resolveDhKey recipient with
  | none => .error (.noRecipientKey recipient)
  | some dhKey =>
    let sentAt := units (toISOString now.val now.bounded)
    match canonicalBytes message, hubEnvelopeAad recipient sentAt with
    | some plaintext, some aad =>
      match sealToPersona p recipient dhKey plaintext aad skE with
      | .ok sent => .ok { recipient, sent, sentAt }
      | .error cause => .error (.sealing cause)
    | _, _ => .error .jcsDepthExceeded

/-- The body of a post. -/
def bodyOf (e : Posted) : Text := units (Value.ofJson e.toJson).stringify

def HubClient.send (client : HubClient) (recipient : Text) (message : Json) (now : TimeValue)
    (skE : Bytes) (http : Request → Response) : Except HubTransportError Unit := do
  let e ← client.sealFor p recipient message now skE
  let res := http (.deliver (bodyOf e))
  if res.ok then return () else .error (.refusedDelivery res.status)

def HubClient.open (client : HubClient) (raw : Value) : Option WireMessage := do
  let envelope ← readEnvelope raw
  let e := posted envelope
  let aad ← hubEnvelopeAad e.recipient e.sentAt
  let plaintext ← openSealed p client.dhPrivateKey client.persona e.sent aad
  let v ← JsonParse.parse numerals (decode plaintext)
  (safeParse v).delivery.verifyMessage crypto

/-- The members a client signs, for the hub it reads from. -/
def HubClient.authMembers (client : HubClient) (challenge : Text) (now : TimeValue) : Members :=
  [(text "v", .str protocolVersion), (text "type", .str (text "inbox_auth")),
    (text "persona", .str client.persona), (text "audience", .str client.baseUrl),
    (text "challenge", .str challenge),
    (text "issued_at", .str (units (toISOString now.val now.bounded)))]

/-- `none` where signing throws. -/
def withSignature (members : Members) (privateKey : Text) : Option Members := do
  let digest ← signingPreimage sha256 (Value.ofMembers members)
  let sig ← sign privateKey digest
  return members.put (text "sig") (.str sig)

def scheme : Text := text "Servanda"

def authorization (auth : Members) : Text :=
  scheme ++ unit ' ' :: toBase64 (encodeUtf8 (Value.ofJson (.obj auth)).stringify)

def envelopesOf (body : Value) : List Value :=
  match body.member (text "envelopes") with
  | some (.arr envelopes) => envelopes
  | _ => []

/-- What a client makes of the answers to its two calls, the second of which is to the header that
it answers the first with. -/
def HubClient.receive (client : HubClient) (persona : Text) (now : TimeValue) (unauth : Response)
    (answer : Text → Response) : Except HubTransportError (List WireMessage) :=
  if persona ≠ client.persona then .error .notItsOwnInbox
  else if unauth.ok then .error .servedUnchallenged
  else if unauth.body.isNull then .error .typeError
  else match unauth.body.member (text "challenge") with
    | some (.str challenge) =>
      match withSignature sha256 sign (client.authMembers challenge now) client.privateKey with
      | none => .error .malformedHex
      | some auth =>
        let res := answer (authorization auth)
        if !res.ok then .error (.refusedInbox res.status)
        else if res.body.isNull then .error .typeError
        else .ok ((envelopesOf res.body).filterMap
          (client.open p numerals crypto safeParse))
    | _ => .error (.noChallenge unauth.status)

end Client

section Fetch

variable {Digest : Type} (numerals : JsonParse.Numerals) (sha256 : List UInt8 → Digest)
  (verify : Text → Digest → Text → Bool)

/-- Why a call fails: the text is none that a hub's callers read. -/
inductive Failure
  | syntaxError
  | rejected (reason : HubRejection)
  deriving DecidableEq

variable (failureText : Failure → Text)

def refusal (status : ℕ) (failure : Failure) : Response :=
  ⟨status, .obj [(text "error", .str (failureText failure))]⟩

/-- `header.replace(/^Servanda\s+/, '')` -/
def dropScheme (header : Text) : Text :=
  if scheme.isPrefixOf header && (header.drop scheme.length).head?.any isSpace then
    (header.drop scheme.length).dropWhile isSpace
  else header

/-- The call that a request is to a hub: none where the text it carries is not JSON. -/
def callOf (request : Request) (nonce : Text) (now : ℤ) : Option Hub.Call :=
  match request with
  | .deliver body => (JsonParse.parse numerals body).map (.deliver · now)
  | .inbox persona header =>
    match header.filter (· ≠ []) with
    | none => some (.challenge persona nonce)
    | some header =>
      (JsonParse.parse numerals (decode (ofBase64 (dropScheme header)))).map (.inbox persona · now)

def respond : Answer → Response
  | .nonce value => ⟨401, .obj [(text "challenge", .str value)]⟩
  | .delivered (.ok ()) => ⟨200, .obj [(text "accepted", .bool true)]⟩
  | .delivered (.error reason) => refusal failureText 400 (.rejected reason)
  | .inbox (.ok envelopes) => ⟨200, .obj [(text "envelopes",
      .arr (envelopes.map fun e ↦ .ofJson (posted e).toJson))]⟩
  | .inbox (.error reason) => refusal failureText 403 (.rejected reason)

def hubFetch (hub : MemoryHub) (request : Request) (nonce : Text) (now : ℤ) :
    MemoryHub × Response :=
  match callOf numerals request nonce now with
  | some call => (perform sha256 verify hub call).map id (respond failureText)
  | none => (hub, refusal failureText (match request with
      | .deliver _ => 400
      | .inbox _ _ => 403) .syntaxError)

end Fetch

/-- A client reads its inbox at a hub, which others call between its two calls. -/
def HubClient.receiveFrom {Digest : Type} (p : Primitives) (numerals : JsonParse.Numerals)
    (crypto : Crypto) (safeParse : Value → Bootstrap.Decoded) (sha256 : List UInt8 → Digest)
    (sign : Text → Digest → Option Text) (verify : Text → Digest → Text → Bool)
    (failureText : Failure → Text) (client : HubClient) (now : TimeValue) (hub : MemoryHub)
    (nonce : Text) (between : List Hub.Call) (swept : ℤ) :
    Except HubTransportError (List WireMessage) :=
  let (hub, unauth) := hubFetch numerals sha256 verify failureText hub (.inbox client.persona none)
    nonce now.val
  let hub := (Hub.run sha256 verify hub between).1
  client.receive p numerals crypto safeParse sha256 sign client.persona now unauth fun header ↦
    (hubFetch numerals sha256 verify failureText hub (.inbox client.persona (some header))
      [] swept).2

section Envelopes

variable {raw : Value} {e : HubEnvelope} {recipient recipient' sentAt sentAt' : Text} {aad : Bytes}

theorem checked_eq_some_iff {schema : Text → Bool} {v : Value} {key : Text} {c : Checked schema} :
    checked schema v key = some c ↔ v.member key = some (.str c.val) := by
  unfold checked
  constructor
  · intro h
    split at h
    next s hs =>
      split_ifs at h with hschema
      rw [hs, ← Option.some.inj h]
    next => cases h
  · intro h
    rw [h]
    exact dif_pos c.property

theorem readSealed_eq_some_iff {v : Value} {s : Sealed} : readSealed v = some s ↔
    isLiteral v (text "v") protocolVersion = true ∧
      v.member (text "epk") = some (.str s.epk.val) ∧
        v.member (text "ciphertext") = some (.str s.ciphertext.val) := by
  obtain ⟨epk, ciphertext⟩ := s
  rw [← checked_eq_some_iff, ← checked_eq_some_iff]
  by_cases hv : isLiteral v (text "v") protocolVersion = true
  · simp [readSealed, hv, Option.bind_eq_some_iff]
  · simp [readSealed, hv]

theorem readEnvelope_eq_some_iff : readEnvelope raw = some e ↔
    isLiteral raw (text "v") protocolVersion = true ∧
      isLiteral raw (text "type") (text "hub_envelope") = true ∧
        raw.member (text "recipient") = some (.str e.recipient.val) ∧
          (raw.member (text "sealed")).bind readSealed = some e.envelope ∧
            raw.member (text "sent_at") = some (.str e.sentAt.val) := by
  obtain ⟨recipient, envelope, sentAt⟩ := e
  rw [← checked_eq_some_iff, ← checked_eq_some_iff]
  by_cases hv : isLiteral raw (text "v") protocolVersion = true
  · by_cases htype : isLiteral raw (text "type") (text "hub_envelope") = true
    · have hread : readEnvelope raw = (checked isHex64 raw (text "recipient")).bind fun recipient ↦
          ((raw.member (text "sealed")).bind readSealed).bind fun envelope ↦
            (checked isRfc3339 raw (text "sent_at")).bind fun sentAt ↦
              some { recipient, envelope, sentAt } := by
        simp [readEnvelope, hv, htype]
      rw [hread, Option.bind_eq_some_iff]
      constructor
      · rintro ⟨r, hr, h⟩
        obtain ⟨s, hs, h⟩ := Option.bind_eq_some_iff.mp h
        obtain ⟨t, ht, h⟩ := Option.bind_eq_some_iff.mp h
        cases h
        exact ⟨hv, htype, hr, hs, ht⟩
      · rintro ⟨-, -, hr, hs, ht⟩
        exact ⟨_, hr, by rw [hs, Option.bind_some, ht, Option.bind_some]⟩
    · simp [readEnvelope, hv, htype]
  · simp [readEnvelope, hv]

/-- An envelope is read as the one that has its members. -/
theorem readEnvelope_toJson {e' : Posted} : readEnvelope (.ofJson e'.toJson) = some e ↔
    posted e = e' := by
  obtain ⟨recipient, ⟨epk, ciphertext⟩, sentAt⟩ := e'
  rw [readEnvelope_eq_some_iff]
  have hsealed : (Value.ofJson (Posted.toJson ⟨recipient, ⟨epk, ciphertext⟩, sentAt⟩)).member
      (text "sealed") = some (.ofJson (.obj [(text "v", .str protocolVersion),
        (text "epk", .str epk), (text "ciphertext", .str ciphertext)])) := rfl
  have hmembers : (Value.ofJson (Posted.toJson ⟨recipient, ⟨epk, ciphertext⟩, sentAt⟩)).member
      (text "recipient") = some (.str recipient) ∧
        (Value.ofJson (Posted.toJson ⟨recipient, ⟨epk, ciphertext⟩, sentAt⟩)).member
          (text "sent_at") = some (.str sentAt) := ⟨rfl, rfl⟩
  have hepk : (Value.ofJson (.obj [(text "v", .str protocolVersion),
      (text "epk", .str epk), (text "ciphertext", .str ciphertext)])).member (text "epk") =
        some (.str epk) := rfl
  have hciphertext : (Value.ofJson (.obj [(text "v", .str protocolVersion),
      (text "epk", .str epk), (text "ciphertext", .str ciphertext)])).member (text "ciphertext") =
        some (.str ciphertext) := rfl
  rw [hsealed, hmembers.1, hmembers.2, Option.bind_some, readSealed_eq_some_iff, hepk, hciphertext]
  simp only [Option.some.injEq, Value.str.injEq, posted, Posted.mk.injEq, SealedForPersona.mk.injEq]
  constructor
  · rintro ⟨-, -, hrecipient, ⟨-, hepk, hciphertext⟩, hsentAt⟩
    exact ⟨hrecipient.symm, ⟨hepk.symm, hciphertext.symm⟩, hsentAt.symm⟩
  · rintro ⟨hrecipient, ⟨hepk, hciphertext⟩, hsentAt⟩
    exact ⟨rfl, rfl, hrecipient.symm, ⟨rfl, hepk.symm, hciphertext.symm⟩, hsentAt.symm⟩

/-- A hub takes what a client puts together where its recipient would. -/
theorem parse_toJson {e' : Posted} : HubEnvelope.parse (.ofJson e'.toJson) = some e ↔
    posted e = e' := by
  rw [← readEnvelope_toJson]
  have hbind {α β : Type} {x : Option α} {f g : α → Option β} (h : ∀ a ∈ x, f a = g a) :
      x.bind f = x.bind g := by
    cases x with
    | none => rfl
    | some a => exact h a rfl
  have honly : guard (hasOnly hubVisibleFields (.ofJson e'.toJson) = true) = some () := rfl
  have hsealed : ∀ v, (Value.ofJson e'.toJson).member (text "sealed") = some v →
      Sealed.parse v = readSealed v := by
    intro v hv
    have hone : guard (hasOnly [text "v", text "epk", text "ciphertext"] v = true) = some () := by
      cases Option.some.inj hv
      rfl
    simp only [Sealed.parse, readSealed, hone, Option.bind_eq_bind, Option.bind_some]
  have heq : HubEnvelope.parse (.ofJson e'.toJson) = readEnvelope (.ofJson e'.toJson) := by
    simp only [HubEnvelope.parse, readEnvelope, honly, Option.bind_eq_bind, Option.bind_some]
    rw [hbind hsealed]
  rw [heq]

theorem eq_of_same_str {s t : Text} (h : Json.Same (.str s) (.str t)) : s = t := by
  cases h
  rfl

/-- What an envelope is bound to tells its recipient and its time. -/
theorem hubEnvelopeAad_injective (h : hubEnvelopeAad recipient sentAt = some aad)
    (h' : hubEnvelopeAad recipient' sentAt' = some aad) :
    recipient = recipient' ∧ sentAt = sentAt' := by
  have hdistinct (r t : Text) : (Json.obj [(text "v", .str protocolVersion),
      (text "type", .str (text "hub_envelope")), (text "recipient", .str r),
      (text "sent_at", .str t)]).Distinct := by
    refine .obj ?_ ?_
    · change List.Nodup (["v", "type", "recipient", "sent_at"].map text)
      decide +kernel
    · simp only [List.forall_mem_cons]
      exact ⟨.str _, .str _, .str _, .str _, List.forall_mem_nil _⟩
  rw [hubEnvelopeAad, canonicalBytes] at h h'
  obtain ⟨cs, hcs, hencoded⟩ := Option.map_eq_some_iff.mp h
  obtain ⟨ds, hds, hencoded'⟩ := Option.map_eq_some_iff.mp h'
  obtain rfl := encodeUtf8_injective (hencoded.trans hencoded'.symm)
  have hsame := Jcs.same_of_canonicalize (hdistinct _ _) (hdistinct _ _) hcs hds
  cases hsame with
  | obj hkeys hmembers =>
    refine ⟨eq_of_same_str (hmembers (text "recipient", .str recipient) (by simp)
        (text "recipient", .str recipient') (by simp) rfl),
      eq_of_same_str (hmembers (text "sent_at", .str sentAt) (by simp)
        (text "sent_at", .str sentAt') (by simp) rfl)⟩

theorem exists_hubEnvelopeAad (recipient sentAt : Text) :
    ∃ aad, hubEnvelopeAad recipient sentAt = some aad := by
  have hsome := (write_isSome_iff (.obj [(text "v", .str protocolVersion),
    (text "type", .str (text "hub_envelope")), (text "recipient", .str recipient),
    (text "sent_at", .str sentAt)]) 0).mpr
      (by simp [Json.height, Json.membersHeight, maxCanonicalizationDepth])
  obtain ⟨cs, hcs⟩ := Option.isSome_iff_exists.mp hsome
  exact ⟨encodeUtf8 cs, Option.map_eq_some_iff.mpr ⟨cs, hcs, rfl⟩⟩

end Envelopes

section Hex

theorem hexDigit_spec : ∀ n < 16, unitsOf (hexDigit n) = [BitVec.ofNat 16 (hexDigit n).toNat] ∧
    isHexUnit (BitVec.ofNat 16 (hexDigit n).toNat) = true := by decide

theorem hex_spec (bytes : Bytes) : (hex bytes).length = 2 * bytes.length ∧
    (hex bytes).all isHexUnit = true := by
  rw [hex, toHex, String.toList_ofList]
  induction bytes with
  | nil => exact ⟨rfl, rfl⟩
  | cons b bytes ih =>
    have hb := b.toNat_lt
    obtain ⟨hlength, hall⟩ := ih
    obtain ⟨hhigh, hhigh'⟩ := hexDigit_spec (b.toNat / 16) (by omega)
    obtain ⟨hlow, hlow'⟩ := hexDigit_spec (b.toNat % 16) (by omega)
    have hcons : units (hexDigits (b :: bytes)) = BitVec.ofNat 16 (hexDigit (b.toNat / 16)).toNat ::
        BitVec.ofNat 16 (hexDigit (b.toNat % 16)).toNat :: units (hexDigits bytes) := by
      rw [hexDigits, List.flatMap_cons, List.cons_append, List.cons_append, List.nil_append,
        JsonParse.units_cons, JsonParse.units_cons, hhigh, hlow]
      rfl
    rw [hcons]
    refine ⟨?_, ?_⟩
    · simp only [List.length_cons, hlength]
      omega
    · simp only [List.all_cons, hhigh', hlow', hall, Bool.and_self]

theorem isHex64_hex {bytes : Bytes} (h : bytes.length = 32) : isHex64 (hex bytes) = true := by
  obtain ⟨hlength, hall⟩ := hex_spec bytes
  rw [isHex64, hall, hlength, h]
  rfl

theorem isHexText_hex {bytes : Bytes} (h : bytes ≠ []) : isHexText (hex bytes) = true := by
  obtain ⟨hlength, hall⟩ := hex_spec bytes
  have hpos := List.length_pos_iff.mpr h
  have hempty : (hex bytes).isEmpty = false := by
    rw [List.isEmpty_eq_false_iff, ← List.length_pos_iff]
    omega
  rw [isHexText, hall, hempty]
  rfl

end Hex
section Sealing

variable {p : Primitives} {numerals : JsonParse.Numerals} {crypto : Crypto}
  {safeParse : Value → Bootstrap.Decoded} {sender client : HubClient} {message : Json}
  {members : Members} {recipient : Text} {now : TimeValue} {skE : Bytes} {e : Posted}

theorem sealFor_eq_ok (h : sender.sealFor p recipient message now skE = .ok e) :
    ∃ dhKey plaintext aad, sender.resolveDhKey recipient = some dhKey ∧
      canonicalBytes message = some plaintext ∧ hubEnvelopeAad recipient e.sentAt = some aad ∧
        sealToPersona p recipient dhKey plaintext aad skE = .ok e.sent ∧ e.recipient = recipient ∧
          e.sentAt = units (toISOString now.val now.bounded) := by
  unfold HubClient.sealFor at h
  cases hkey : sender.resolveDhKey recipient with
  | none => simp [hkey] at h
  | some dhKey =>
    cases hplaintext : canonicalBytes message with
    | none => simp [hkey, hplaintext] at h
    | some plaintext =>
      obtain ⟨aad, haad⟩ :=
        exists_hubEnvelopeAad recipient (units (toISOString now.val now.bounded))
      simp only [hkey, hplaintext, haad] at h
      cases hsealed : sealToPersona p recipient dhKey plaintext aad skE with
      | error cause => simp [hsealed] at h
      | ok sent =>
        rw [hsealed] at h
        cases h
        exact ⟨dhKey, plaintext, aad, rfl, rfl, haad, hsealed, rfl, rfl⟩

/-- The text a recipient opens is read as JSON equal to what was sealed. -/
theorem parse_plaintext {plaintext : Bytes} (hdistinct : (Json.obj members).Distinct)
    (hnumbers : (Json.obj members).Numbers fun n ↦ numerals n.digits = some (.num n))
    (h : canonicalBytes (.obj members) = some plaintext) :
    JsonParse.parse numerals (decode plaintext) = some (.ofJson (Json.obj members).sorted) := by
  rw [canonicalBytes] at h
  obtain ⟨cs, hcs, rfl⟩ := Option.map_eq_some_iff.mp h
  rw [decode, Decoder.run_encodeUtf8]
  exact JsonParse.parse_canonicalize hdistinct hnumbers hcs

/-- The sealed part of an envelope opens in that envelope alone, for the persona that it was sealed
to. -/
theorem open_of_sealed (hp : Sound p) (hparse : Links.ReadsByName safeParse)
    (hdistinct : (Json.obj members).Distinct)
    (hnumbers : (Json.obj members).Numbers fun n ↦ numerals n.digits = some (.num n))
    (hkey : sender.resolveDhKey client.persona = dhPublicKey p client.dhPrivateKey)
    (h : sender.sealFor p client.persona (.obj members) now skE = .ok e) {raw : Value}
    {e' : HubEnvelope} (hread : readEnvelope raw = some e') (hsent : (posted e').sent = e.sent) :
    client.open p numerals crypto safeParse raw = if posted e' = e then
      (safeParse (.ofJson (.obj members))).delivery.verifyMessage crypto else none := by
  obtain ⟨dhKey, plaintext, aad, hresolved, hplaintext, haad, hsealed, hrecipient, -⟩ :=
    sealFor_eq_ok h
  obtain ⟨other, hother⟩ := exists_hubEnvelopeAad (posted e').recipient (posted e').sentAt
  have hopened : openSealed p client.dhPrivateKey client.persona e.sent other =
      if other = aad then some plaintext else none :=
    openSealed_sealToPersona hp (hkey.symm.trans hresolved) hsealed
  simp only [HubClient.open, hread, Option.bind_eq_bind, Option.bind_some, hother, hsent, hopened]
  by_cases heq : posted e' = e
  · have hsame : other = aad := by
      rw [heq, hrecipient, haad, Option.some.injEq] at hother
      exact hother.symm
    rw [if_pos heq, if_pos hsame, Option.bind_some, parse_plaintext hdistinct hnumbers hplaintext,
      Option.bind_some, hparse _ _ hdistinct (Jcs.distinct_sorted hdistinct)
        (Jcs.same_sorted hdistinct)]
  · have hdiffer : other ≠ aad := by
      rintro rfl
      obtain ⟨hr, ht⟩ := hubEnvelopeAad_injective hother haad
      rw [← hrecipient] at hr
      exact heq (Posted.ext hr hsent ht)
    rw [if_neg heq, if_neg hdiffer]
    rfl

/-- A hub takes what a client puts together unless the recipient is no persona, or the clock is
outside the years that a timestamp spells. -/
theorem exists_parse_iff (hp : Sound p)
    (h : sender.sealFor p recipient message now skE = .ok e) :
    (∃ e', HubEnvelope.parse (.ofJson e.toJson) = some e') ↔ isHex64 recipient = true ∧
      0 ≤ Calendar.yearFromDay (now.val / Calendar.msPerDay) ∧
        Calendar.yearFromDay (now.val / Calendar.msPerDay) ≤ 9999 := by
  obtain ⟨dhKey, plaintext, aad, -, -, -, hsealed, hrecipient, hsentAt⟩ := sealFor_eq_ok h
  obtain ⟨recipientId, pkR, enc, ciphertext, -, -, hbase, hsent⟩ := sealToPersona_eq_ok hsealed
  obtain ⟨henc, hciphertext⟩ := lengths_of_sealBase hp hbase
  rw [← isRfc3339_toISOString_iff now.bounded, ← hsentAt, ← hrecipient]
  simp only [parse_toJson]
  constructor
  · rintro ⟨e', rfl⟩
    exact ⟨e'.recipient.property, e'.sentAt.property⟩
  · rintro ⟨hpersona, htime⟩
    refine ⟨⟨⟨e.recipient, hpersona⟩, ⟨⟨e.sent.epk, ?_⟩, ⟨e.sent.ciphertext, ?_⟩⟩,
      ⟨e.sentAt, htime⟩⟩, rfl⟩
    · rw [hsent]
      exact isHex64_hex henc
    · rw [hsent]
      exact isHexText_hex hciphertext

theorem distinct_toJson (e : Posted) : e.toJson.Distinct := by
  refine .obj ?_ ?_
  · change List.Nodup (["v", "type", "recipient", "sealed", "sent_at"].map text)
    decide +kernel
  · simp only [List.forall_mem_cons]
    refine ⟨.str _, .str _, .str _, .obj ?_ ?_, .str _, List.forall_mem_nil _⟩
    · change List.Nodup (["v", "epk", "ciphertext"].map text)
      decide +kernel
    · simp only [List.forall_mem_cons]
      exact ⟨.str _, .str _, .str _, List.forall_mem_nil _⟩

theorem numbers_toJson (e : Posted) (P : JsNumber → Prop) : e.toJson.Numbers P := by
  refine .obj ?_
  simp only [List.forall_mem_cons]
  refine ⟨.str _, .str _, .str _, .obj ?_, .str _, List.forall_mem_nil _⟩
  simp only [List.forall_mem_cons]
  exact ⟨.str _, .str _, .str _, List.forall_mem_nil _⟩

/-- A post is the delivery of the envelope it was made of. -/
theorem callOf_deliver (e : Posted) (nonce : Text) (t : ℤ) :
    callOf numerals (.deliver (bodyOf e)) nonce t = some (.deliver (.ofJson e.toJson) t) := by
  rw [callOf, bodyOf, JsonParse.parse_stringify (distinct_toJson e) (numbers_toJson e _)]
  rfl

end Sealing
section Header

variable {numerals : JsonParse.Numerals} {bytes : Bytes}

theorem bufferValue_stdDigit {n : ℕ} (h : n < 64) : bufferValue (Links.stdDigit n) = some n := by
  have hall : ∀ i : Fin 64, bufferValue (Links.stdDigit i) = some i.val := by decide
  exact hall ⟨n, h⟩

theorem isSpace_stdDigit {n : ℕ} (h : n < 64) : isSpace (Links.stdDigit n) = false := by
  have hall : ∀ i : Fin 64, isSpace (Links.stdDigit i) = false := by decide
  exact hall ⟨n, h⟩

theorem ofBase64_toBase64 (bytes : Bytes) : ofBase64 (toBase64 bytes) = bytes := by
  have hdigits : (toBase64 bytes).filterMap bufferValue = Base64.sextets bytes := by
    have hpad : (List.replicate ((3 - bytes.length % 3) % 3) (unit '=')).filterMap bufferValue =
        [] := by
      rw [List.filterMap_replicate]
      rfl
    rw [toBase64, List.filterMap_append, hpad, List.append_nil, List.filterMap_map]
    have hall := Base64.sextets_lt bytes
    generalize Base64.sextets bytes = digits at hall ⊢
    induction digits with
    | nil => rfl
    | cons n digits ih =>
      obtain ⟨hn, hdigits⟩ := List.forall_mem_cons.mp hall
      have hvalue : (bufferValue ∘ Links.stdDigit) n = some n := bufferValue_stdDigit hn
      rw [List.filterMap_cons_some hvalue, ih hdigits]
  have hlength : (Base64.sextets bytes).length % 4 ≠ 1 := by
    intro hone
    have hnone := Links.octets_eq_none hone
    rw [Base64.octets_sextets] at hnone
    cases hnone
  rw [ofBase64, hdigits, if_neg hlength, Base64.octets_sextets, Option.getD_some]

/-- No space is part of what the scheme is put before. -/
theorem dropScheme_toBase64 (bytes : Bytes) :
    dropScheme (scheme ++ unit ' ' :: toBase64 bytes) = toBase64 bytes := by
  have hdrop : (scheme ++ unit ' ' :: toBase64 bytes).drop scheme.length =
      unit ' ' :: toBase64 bytes := List.drop_left
  have hprefix : scheme.isPrefixOf (scheme ++ unit ' ' :: toBase64 bytes) = true :=
    List.isPrefixOf_iff_prefix.mpr (List.prefix_append _ _)
  have hspace : isSpace (unit ' ') = true := by decide
  have hstart : (toBase64 bytes).dropWhile isSpace = toBase64 bytes := by
    cases hsextets : Base64.sextets bytes with
    | nil =>
      have hempty := Base64.octets_sextets bytes
      rw [hsextets, Base64.octets, Option.some.injEq] at hempty
      rw [← hempty]
      rfl
    | cons n digits =>
      have hn := Base64.sextets_lt bytes n (by rw [hsextets]; exact List.mem_cons_self)
      rw [toBase64, hsextets, List.map_cons, List.cons_append, List.dropWhile_cons,
        isSpace_stdDigit hn]
      rfl
  rw [dropScheme, hprefix, hdrop, List.head?_cons, Option.any_some, hspace,
    Bool.and_self, if_pos rfl, List.dropWhile_cons, hspace, if_pos rfl, hstart]

theorem callOf_inbox {auth : Members} (hdistinct : (Json.obj auth).Distinct)
    (hnumbers : (Json.obj auth).Numbers fun n ↦ numerals n.digits = some (.num n)) (persona : Text)
    (nonce : Text) (t : ℤ) :
    callOf numerals (.inbox persona (some (authorization auth))) nonce t =
      some (.inbox persona (.ofJson (.obj auth)) t) := by
  have hne : authorization auth ≠ [] := List.cons_ne_nil _ _
  have hfilter : (some (authorization auth)).filter (· ≠ []) = some (authorization auth) := by
    rw [Option.filter_some, if_pos (decide_eq_true hne)]
  simp only [callOf, hfilter]
  rw [authorization, dropScheme_toBase64, ofBase64_toBase64, decode, Decoder.run_encodeUtf8,
    JsonParse.parse_stringify hdistinct hnumbers]
  rfl

end Header

section Authentication

variable {Digest : Type} {sha256 : List UInt8 → Digest} {sign : Text → Digest → Option Text}
  {verify : Text → Digest → Text → Bool} {client : HubClient} {challenge : Text} {now : TimeValue}

/-- What is relied on of signatures: a key signs every digest, with what verifies for its persona. -/
structure Keyed (sign : Text → Digest → Option Text) (verify : Text → Digest → Text → Bool)
    (privateKey persona : Text) : Prop where
  signs (digest : Digest) : ∃ sig, sign privateKey digest = some sig ∧ isHex128 sig = true ∧
    verify sig digest persona = true

theorem parse_toObject (a : InboxAuth) : InboxAuth.parse (.obj a.toObject) = some a := by
  have hread {schema : Text → Bool} (key : Text) (c : Checked schema)
      (h : (Value.obj a.toObject).member key = some (.str c.val)) :=
    (@checked_eq_some_iff schema _ key c).mpr h
  have hv : guard (isLiteral (.obj a.toObject) (text "v") protocolVersion = true) = some () := rfl
  have htype : guard (isLiteral (.obj a.toObject) (text "type") (text "inbox_auth") = true) =
      some () := rfl
  simp only [InboxAuth.parse, hv, htype, hread (text "persona") a.persona rfl,
    hread (text "audience") a.audience rfl, hread (text "challenge") a.challenge rfl,
    hread (text "issued_at") a.issuedAt rfl, hread (text "sig") a.sig rfl, Option.bind_eq_bind,
    Option.bind_some]

theorem distinct_authMembers (client : HubClient) (challenge : Text) (now : TimeValue)
    (sig : Text) : (Value.obj (Value.ofMembers (client.authMembers challenge now) ++
      [(text "sig", .str sig)])).Distinct := by
  refine .obj ?_ ?_
  · change (["v", "type", "persona", "audience", "challenge", "issued_at", "sig"].map text).Nodup
    decide +kernel
  · simp only [HubClient.authMembers, Value.ofMembers, List.cons_append, List.nil_append,
      List.forall_mem_cons]
    exact ⟨.str _, .str _, .str _, .str _, .str _, .str _, .str _, List.forall_mem_nil _⟩

/-- A client signs what its signature is checked against. -/
theorem exists_preimage (sha256 : List UInt8 → Digest) (client : HubClient) (challenge : Text)
    (now : TimeValue) : ∃ x,
      signingPreimage sha256 (Value.ofMembers (client.authMembers challenge now)) = some x ∧
        ∀ sig, signingPreimage sha256 (Value.ofMembers (client.authMembers challenge now) ++
          [(text "sig", .str sig)]) = some x := by
  obtain ⟨cs, hcs⟩ := Option.isSome_iff_exists.mp
    ((write_isSome_iff (.obj (client.authMembers challenge now)) 0).mpr (by
      simp [HubClient.authMembers, Json.height, Json.membersHeight, maxCanonicalizationDepth]))
  have hsigned := distinct_authMembers client challenge now
  have hunsigned : (Value.obj (Value.ofMembers (client.authMembers challenge now))).Distinct := by
    cases hsigned [] with
    | obj hkeys h =>
      rw [List.map_append] at hkeys
      exact .obj hkeys.of_append_left fun m hm ↦ h m (List.mem_append_left _ hm)
  refine ⟨sha256 (encodeUtf8 cs), (signingPreimage_eq_some_iff hunsigned).mpr
    ⟨.obj (client.authMembers challenge now), cs, rfl, hcs, rfl⟩, fun sig ↦ ?_⟩
  exact (signingPreimage_eq_some_iff (hsigned sig)).mpr
    ⟨.obj (client.authMembers challenge now), cs, rfl, hcs, rfl⟩

/-- What a client signs in answer to a challenge opens the inbox at the hub that it reads from,
as long as the challenge is the one that the hub waits for. -/
theorem exists_auth (hkeyed : Keyed sign verify client.privateKey client.persona)
    (hpersona : isHex64 client.persona = true) (hnonempty : client.baseUrl ≠ [])
    (hlong : 16 ≤ challenge.length)
    (hyear : 0 ≤ Calendar.yearFromDay (now.val / Calendar.msPerDay) ∧
      Calendar.yearFromDay (now.val / Calendar.msPerDay) ≤ 9999) :
    ∃ auth, withSignature sha256 sign (client.authMembers challenge now) client.privateKey =
        some auth ∧ (Json.obj auth).Distinct ∧ (∀ P, (Json.obj auth).Numbers P) ∧
      ∀ (hub : MemoryHub) (t : ℤ), hub.baseUrl = client.baseUrl →
        hub.inbox sha256 verify client.persona (.ofJson (.obj auth)) t =
          if hub.challenges client.persona = some challenge then
            (({ hub with challenges :=
                Function.update hub.challenges client.persona none }).expire t,
              .ok (((hub.expire t).queue client.persona).map StoredEnvelope.envelope))
          else (hub, .error .challengeUnknownOrSpent) := by
  obtain ⟨x, hunsigned, hpreimage⟩ := exists_preimage sha256 client challenge now
  obtain ⟨sig, hsig, hhex, hverify⟩ := hkeyed.signs x
  have hlong' : isLong challenge = true := decide_eq_true hlong
  have hnonempty' : isNonempty client.baseUrl = true := by simpa [isNonempty] using hnonempty
  have hissued := (isRfc3339_toISOString_iff now.bounded).mpr hyear
  have hsigned : withSignature sha256 sign (client.authMembers challenge now) client.privateKey =
      some (client.authMembers challenge now ++ [(text "sig", .str sig)]) := by
    simp only [withSignature, hunsigned, hsig, Option.bind_eq_bind, Option.bind_some]
    rfl
  have hlength : sig.length = 128 := by
    rw [isHex128, Bool.and_eq_true, beq_iff_eq] at hhex
    exact hhex.1
  have hverified : verifyObject sha256 verify (Value.ofMembers (client.authMembers challenge now) ++
      [(text "sig", .str sig)]) client.persona = true := by
    have hlookup : (Value.ofMembers (client.authMembers challenge now) ++
        [(text "sig", Value.str sig)]).lookup (text "sig") = some (.str sig) := rfl
    rw [verifyObject, hlookup, hpreimage]
    simp [hlength, hverify]
  let a : InboxAuth := ⟨⟨client.persona, hpersona⟩, ⟨client.baseUrl, hnonempty'⟩,
    ⟨challenge, hlong'⟩, ⟨_, hissued⟩, ⟨sig, hhex⟩⟩
  refine ⟨_, hsigned, Value.distinct_of_ofJson (distinct_authMembers client challenge now sig),
    fun P ↦ .obj ?_, fun hub t hbaseUrl ↦ ?_⟩
  · simp only [HubClient.authMembers, List.cons_append, List.nil_append, List.forall_mem_cons]
    exact ⟨.str _, .str _, .str _, .str _, .str _, .str _, .str _, List.forall_mem_nil _⟩
  · by_cases hchallenge : hub.challenges client.persona = some challenge
    · rw [if_pos hchallenge]
      exact inbox_of_opens (a := a) ⟨parse_toObject a, rfl, hbaseUrl.symm, hchallenge, hverified⟩
    · have hparsed : InboxAuth.parse (.ofJson (.obj (client.authMembers challenge now ++
          [(text "sig", .str sig)]))) = some a := parse_toObject a
      rw [if_neg hchallenge, MemoryHub.inbox, hparsed]
      dsimp only
      rw [if_neg (not_not.mpr rfl), if_neg (not_not.mpr hbaseUrl.symm), if_pos hchallenge]

end Authentication

section Receiving

variable {Digest : Type} {p : Primitives} {numerals : JsonParse.Numerals} {crypto : Crypto}
  {safeParse : Value → Bootstrap.Decoded} {sha256 : List UInt8 → Digest}
  {sign : Text → Digest → Option Text} {verify : Text → Digest → Text → Bool}
  {failureText : Failure → Text} {client : HubClient} {calls between : List Hub.Call}
  {nonce baseUrl : Text} {now : TimeValue} {ttlMs : ℚ} {swept : ℤ}

theorem challenges_of_quiet {persona : Text} (hquiet : ∀ call ∈ between, ¬Touches persona call) :
    (Hub.run sha256 verify (.new baseUrl ttlMs)
      (calls ++ .challenge persona nonce :: between)).1.challenges persona = some nonce := by
  have hsplit : calls ++ .challenge persona nonce :: between =
      (calls ++ [.challenge persona nonce]) ++ between := by simp
  rw [hsplit, run_append, challenges_run hquiet, run_snoc]
  exact Function.update_self ..

/-- What a client makes of an inbox is decided by whether its challenge is still the hub's when it
answers. -/
theorem receiveFrom_eq (hkeyed : Keyed sign verify client.privateKey client.persona)
    (hpersona : isHex64 client.persona = true) (hnonempty : client.baseUrl ≠ [])
    (hlong : 16 ≤ nonce.length)
    (hyear : 0 ≤ Calendar.yearFromDay (now.val / Calendar.msPerDay) ∧
      Calendar.yearFromDay (now.val / Calendar.msPerDay) ≤ 9999)
    (hnonces : (nonces (calls ++ .challenge client.persona nonce :: between)).Nodup)
    {ended : MemoryHub × List Hub.Event}
    (hended : ended = Hub.run sha256 verify (.new client.baseUrl ttlMs)
      (calls ++ .challenge client.persona nonce :: between)) :
    client.receiveFrom p numerals crypto safeParse sha256 sign verify failureText now
        (Hub.run sha256 verify (.new client.baseUrl ttlMs) calls).1 nonce between swept =
      if ended.1.challenges client.persona = some nonce then
        .ok ((Expiry.kept ttlMs StoredEnvelope.receivedAt
          (traffic client.persona ended.2 ++ [.sweep swept])).filterMap fun s ↦
            client.open p numerals crypto safeParse (.ofJson (posted s.envelope).toJson))
      else .error (.refusedInbox 403) := by
  let hub := (Hub.run sha256 verify (.new client.baseUrl ttlMs) calls).1
  have hasked : hubFetch numerals sha256 verify failureText hub (.inbox client.persona none) nonce
      now.val = (hub.challenge client.persona nonce,
        ⟨401, .obj [(text "challenge", .str nonce)]⟩) := rfl
  have hbetween : (Hub.run sha256 verify (hub.challenge client.persona nonce) between).1 =
      ended.1 := by
    have hsplit : calls ++ .challenge client.persona nonce :: between =
        (calls ++ [.challenge client.persona nonce]) ++ between := by simp
    rw [hended, hsplit, run_append, run_snoc]
    rfl
  have hinvariant : Invariant client.baseUrl ttlMs ended.2 ended.1 := hended ▸ Invariant.run hnonces
  obtain ⟨auth, hauth, hdistinct, hnumbers, hinbox⟩ := @exists_auth Digest sha256 sign verify
    client nonce now hkeyed hpersona hnonempty hlong hyear
  have hinbox := hinbox ended.1 swept hinvariant.url
  have hread : (Value.obj [(text "challenge", Value.str nonce)]).member (text "challenge") =
      some (.str nonce) := rfl
  have hrefused : Response.ok ⟨401, .obj [(text "challenge", .str nonce)]⟩ = false := rfl
  rw [HubClient.receiveFrom, hasked]
  simp only
  rw [hbetween, HubClient.receive, if_neg (not_not.mpr rfl)]
  simp only [hrefused, Value.isNull, hread, hauth, Bool.false_eq_true, if_false]
  by_cases hchallenge : ended.1.challenges client.persona = some nonce
  · have hanswer : (hubFetch numerals sha256 verify failureText ended.1
        (.inbox client.persona (some (authorization auth))) [] swept).2 =
          ⟨200, .obj [(text "envelopes", .arr (((ended.1.expire swept).queue client.persona).map
            fun s ↦ .ofJson (posted s.envelope).toJson))]⟩ := by
      rw [hubFetch, callOf_inbox hdistinct (hnumbers _)]
      simp only [perform, hinbox, if_pos hchallenge, Prod.map, respond, List.map_map]
      rfl
    have hqueue : (ended.1.expire swept).queue client.persona = Expiry.kept ttlMs
        StoredEnvelope.receivedAt (traffic client.persona ended.2 ++ [.sweep swept]) := by
      rw [← Expiry.queue_eq_kept, Expiry.queue_snoc, ← hinvariant.queue, ← hinvariant.ttl]
      rfl
    have hserved (envelopes : List Value) :
        Response.ok ⟨200, .obj [(text "envelopes", .arr envelopes)]⟩ = true := rfl
    have henvelopes (envelopes : List Value) :
        envelopesOf (.obj [(text "envelopes", .arr envelopes)]) = envelopes := rfl
    rw [if_pos hchallenge]
    simp only [hanswer, hserved, henvelopes, Bool.not_true, Bool.false_eq_true, if_false,
      List.filterMap_map, hqueue]
    rfl
  · have hanswer : (hubFetch numerals sha256 verify failureText ended.1
        (.inbox client.persona (some (authorization auth))) [] swept).2 =
          refusal failureText 403 (.rejected .challengeUnknownOrSpent) := by
      rw [hubFetch, callOf_inbox hdistinct (hnumbers _)]
      simp only [perform, hinbox, if_neg hchallenge, Prod.map, respond]
    have hstatus : Response.ok (refusal failureText 403 (.rejected .challengeUnknownOrSpent)) =
        false := rfl
    simp only [if_neg hchallenge, hanswer, hstatus, Bool.not_false, if_true]
    rfl

/-- An envelope that a client has put together is taken as it was sealed or not at all: a hub has it
as it was posted, and its sealed part opens in no other envelope. -/
structure Intact (p : Primitives) (numerals : JsonParse.Numerals) (crypto : Crypto)
    (safeParse : Value → Bootstrap.Decoded) (client : HubClient) (message : Json)
    (sealedAt : TimeValue) (e : Posted) : Prop where
  posted : ∀ nonce t, callOf numerals (.deliver (bodyOf e)) nonce t =
    some (.deliver (.ofJson e.toJson) t)
  accepted : (∃ e', HubEnvelope.parse (.ofJson e.toJson) = some e') ↔
    isHex64 client.persona = true ∧ 0 ≤ Calendar.yearFromDay (sealedAt.val / Calendar.msPerDay) ∧
      Calendar.yearFromDay (sealedAt.val / Calendar.msPerDay) ≤ 9999
  opens : ∀ raw e', readEnvelope raw = some e' → (Courier.posted e').sent = e.sent →
    client.open p numerals crypto safeParse raw = if Courier.posted e' = e then
      (safeParse (.ofJson message)).delivery.verifyMessage crypto else none

theorem sealed_intact {sender : HubClient} {members : Members} {sealedAt : TimeValue} {skE : Bytes}
    {e : Posted} (hp : Hpke.Sound p) (hparse : Links.ReadsByName safeParse)
    (hdistinct : (Json.obj members).Distinct)
    (hnumbers : (Json.obj members).Numbers fun n ↦ numerals n.digits = some (.num n))
    (hkey : sender.resolveDhKey client.persona = dhPublicKey p client.dhPrivateKey)
    (hsealed : sender.sealFor p client.persona (.obj members) sealedAt skE = .ok e) :
    Intact p numerals crypto safeParse client (.obj members) sealedAt e where
  posted := callOf_deliver e
  accepted := exists_parse_iff hp hsealed
  opens _ _ hread hsent := open_of_sealed hp hparse hdistinct hnumbers hkey hsealed hread hsent

end Receiving

namespace Sample

/-- A curve on which keys are added, and a cipher that writes out what real ones hide. -/
def primitives : Primitives where
  getPublicKey sk := if sk.length = 32 then some sk else none
  getSharedSecret sk pk := if sk.length = 32 ∧ pk.length = 32 then
    some (List.zipWith (· ^^^ ·) sk pk) else none
  extract ikm salt := salt ++ ikm
  expand prk info length := (prk ++ info).take length
  encrypt := openCiphers.encrypt
  decrypt := openCiphers.decrypt

theorem primitives_sound : Hpke.Sound primitives where
  agree hpk henc hdh := by
    simp only [primitives, Option.ite_none_right_eq_some, Option.some.injEq] at hpk henc hdh ⊢
    obtain ⟨hsk, rfl⟩ := hpk
    obtain ⟨hskE, rfl⟩ := henc
    obtain ⟨-, rfl⟩ := hdh
    exact ⟨⟨hsk, hskE⟩, List.zipWith_comm_of_comm UInt8.xor_comm⟩
  length_publicKey hpk := by
    simp only [primitives, Option.ite_none_right_eq_some, Option.some.injEq] at hpk
    obtain ⟨hsk, rfl⟩ := hpk
    exact hsk
  decrypt_encrypt := openCiphers_sound.decrypt_encrypt
  bound h := openCiphers_authenticated.bound h
  tagged key nonce aad plaintext := by simp [primitives, openCiphers, frame]

def now : TimeValue := ⟨1784970000000, by decide +kernel⟩

def dhPrivateKey : Text := hex (List.replicate 32 1)

/-- The client of the persona, which finds a key for itself alone. -/
def client : HubClient := .new
  { baseUrl := Hub.Sample.baseUrl ++ [unit '/']
    persona := Hub.Sample.persona
    privateKey := hex (List.replicate 32 2)
    dhPrivateKey := dhPrivateKey
    resolveDhKey := fun persona ↦
      if persona = Hub.Sample.persona then some (hex (List.replicate 32 1)) else none }

def sign (_ : Text) (_ : List UInt8) : Option Text := some (List.replicate 128 (unit 'b'))

theorem keyed : Keyed sign Hub.Sample.verify client.privateKey client.persona where
  signs _ := ⟨_, rfl, by decide +kernel, rfl⟩

def members : Members := Links.wireMembers Links.proposalPayload

theorem exists_sealFor (t : TimeValue) : ∃ e, client.sealFor primitives client.persona
    (.obj members) t (List.replicate 32 3) = .ok e := by
  have hheight : (Json.obj members).height ≤ maxCanonicalizationDepth := by decide +kernel
  obtain ⟨cs, hcs⟩ := Option.isSome_iff_exists.mp ((write_isSome_iff (.obj members) 0).mpr (by omega))
  have hplaintext : canonicalBytes (.obj members) = some (encodeUtf8 cs) :=
    Option.map_eq_some_iff.mpr ⟨cs, hcs, rfl⟩
  obtain ⟨aad, haad⟩ := exists_hubEnvelopeAad client.persona (units (toISOString t.val t.bounded))
  have hkey : client.resolveDhKey client.persona = some (hex (List.replicate 32 1)) := rfl
  obtain ⟨id, hid⟩ : ∃ id, unhex client.persona = some id :=
    Option.isSome_iff_exists.mp (by decide +kernel)
  simp only [HubClient.sealFor, hkey, hplaintext, haad, sealToPersona, hid, unhex_hex,
    Option.bind_some]
  exact ⟨_, rfl⟩

/-- What the hub is called with between the client's two calls. -/
def between : List Hub.Call := [.challenge [] Hub.Sample.second, .deliver .null 5]

def failureText : Failure → Text := fun _ ↦ []

theorem quiet : ∀ call ∈ between, ¬Touches client.persona call := by
  have hother : ¬([] = client.persona) := by decide
  simp only [between, List.forall_mem_cons]
  exact ⟨hother, not_false, List.forall_mem_nil _⟩

theorem year : 0 ≤ Calendar.yearFromDay (now.val / Calendar.msPerDay) ∧
    Calendar.yearFromDay (now.val / Calendar.msPerDay) ≤ 9999 := by decide +kernel

end Sample

theorem sample_intact : ∃ e, Intact Sample.primitives Jcs.texts Servanda.Sample.crypto
    (Links.knows (.obj Sample.members) Bootstrap.strangersMessage) Sample.client
    (.obj Sample.members) Sample.now e := by
  obtain ⟨e, hsealed⟩ := Sample.exists_sealFor Sample.now
  exact ⟨e, sealed_intact Sample.primitives_sound
    (Links.readsByName_knows (.obj Sample.members) Bootstrap.strangersMessage)
    (Links.distinct_wireMembers Links.distinct_proposalPayload)
    (Jcs.numbers_of_forall Jcs.texts_digits (.obj Sample.members)) rfl hsealed⟩

end Servanda.Courier
