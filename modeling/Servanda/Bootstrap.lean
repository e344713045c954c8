import Servanda.Base64
import Servanda.Redelivery

namespace Servanda.Bootstrap

open Transitions Redelivery

inductive RenderRefusal
  | notBase64urlJson
  | notASignedMessage
  | signatureDoesNotVerify
  | notAProposal
  deriving DecidableEq, Repr

inductive BootstrapRendering
  | refused (refusal : RenderRefusal)
  | presentable (signedBy : PublicKeyHex) (edge : Edge) (assertion : Assertion)
  deriving DecidableEq

/-- A decoded value as far as the renderer looks at it: what the wire schema makes of it, and
whether it is an object with a string `sig`. -/
structure Decoded where
  delivery : Delivery
  hasSig : Bool
  deriving DecidableEq

/-- How octets are read as JSON text: `none` where they are none, or are `null`. -/
abbrev JsonReader := List UInt8 → Option Decoded

def b64UrlOnly (payload : List Char) : Bool :=
  !payload.isEmpty && payload.all fun c ↦ (Base64.urlValue c).isSome

def fromBase64Url (payload : List Char) : Option (List UInt8) := Base64.decodeUrl payload

def toBase64Url (bytes : List UInt8) : List Char := Base64.encodeUrl bytes

variable (crypto : Crypto) (parse : JsonReader)

def decodeBootstrap (payload : List Char) : Option Decoded :=
  if !b64UrlOnly payload then none else (fromBase64Url payload).bind parse

def renderBootstrap (payload : List Char) : BootstrapRendering :=
  match decodeBootstrap parse payload with
  | none => .refused .notBase64urlJson
  | some decoded =>
    match decoded.delivery.verifyMessage crypto with
    | none => .refused (if decoded.hasSig then .signatureDoesNotVerify else .notASignedMessage)
    | some message =>
      match message.body with
      | .propose (.ok ⟨edge, assertion⟩) => .presentable message.sender edge assertion
      | _ => .refused .notAProposal

/-- The inbox of a node that holds no edge and sets no budget. -/
structure Newcomer (persona : PublicKeyHex) (inbox : Inbox) : Prop where
  persona : inbox.persona = persona
  edgeless : inbox.vault.listEdgeIds = []
  unbudgeted : inbox.budget = none

/-- Whatever the renderer presents, the node it is addressed to takes in. -/
def NoMoreLenient (payload : List Char) : Prop :=
  ∀ signedBy edge assertion, renderBootstrap crypto parse payload =
      .presentable signedBy edge assertion →
    ∀ decoded, decodeBootstrap parse payload = some decoded →
    ∀ inbox, Newcomer edge.owedTo inbox → ∀ now budgetNow,
      (inbox.ingest crypto now budgetNow [decoded.delivery]).2.accepted =
          [(.propose, some edge.edgeId)] ∧
        (inbox.ingest crypto now budgetNow [decoded.delivery]).2.discarded = []

/-- What the renderer does not look at: a signed proposal is for the edge's creditor and from its
owner, under an identifier and a window that are well formed, with a signed opening of its own. -/
structure Genuine (message : WireMessage) (edge : Edge) (a : Assertion) : Prop where
  recipient : message.recipient = edge.owedTo
  sender : message.sender = edge.owner
  binds : crypto.edgeIdBindsBody edge = true
  window : acceptanceWindowMalformed edge = false
  aboutEdge : a.edgeId = edge.edgeId
  state : a.state = .proposed
  signer : a.signer = edge.owner
  signed : crypto.verifyObject (.assertion a) a.signer = true

variable {crypto parse} {payload : List Char} {message : WireMessage} {edge : Edge} {a : Assertion}
  {inbox : Inbox} {now : Rfc3339} {budgetNow : ℤ}

theorem renderBootstrap_presentable_iff {signedBy : PublicKeyHex} :
    renderBootstrap crypto parse payload = .presentable signedBy edge a ↔
      ∃ message hasSig, decodeBootstrap parse payload = some ⟨.message message, hasSig⟩ ∧
        crypto.verifyObject (.message message) message.sender = true ∧
        message.body = .propose (.ok ⟨edge, a⟩) ∧ message.sender = signedBy := by
  unfold renderBootstrap
  constructor
  · intro h
    split at h
    next => cases h
    next decoded hdecoded =>
    split at h
    next => cases h
    next message hverified =>
    split at h
    next edge' a' hbody =>
      cases h
      rcases decoded with ⟨_ | _ | m, hasSig⟩
      · cases hverified
      · cases hverified
      · simp only [Delivery.verifyMessage] at hverified
        split_ifs at hverified with hsig
        cases hverified
        exact ⟨message, hasSig, hdecoded, hsig, hbody, rfl⟩
    next => cases h
  · rintro ⟨message, hasSig, hdecoded, hverified, hbody, rfl⟩
    simp only [hdecoded, Delivery.verifyMessage, hverified, if_true, hbody]

theorem Newcomer.getEdge {persona : PublicKeyHex} (h : Newcomer persona inbox) (id : Sha256Hex) :
    inbox.vault.getEdge id = none := by
  refine Directory.get?_eq_none_iff.mpr fun held hheld _ ↦ ?_
  have hmem : held.edgeId ∈ inbox.vault.listEdgeIds := List.mem_map.mpr ⟨held, hheld, rfl⟩
  rw [h.edgeless] at hmem
  exact absurd hmem List.not_mem_nil

/-- To a newcomer's inbox a proposal is admissible exactly as it stands. -/
theorem admissible_iff_genuine (hinbox : Newcomer edge.owedTo inbox) :
    message.recipient = inbox.persona ∧ Admissible crypto now inbox message.sender edge a ↔
      Genuine crypto message edge a := by
  constructor
  · intro ⟨hrecipient, hbound, _, hsender, hlegal⟩
    obtain ⟨hedge, hid, hsigned, hstate, hsigner⟩ := acceptsLast_first_iff.mp hlegal
    obtain ⟨hbind, hwindow⟩ := edgeMalformed_eq_none_iff.mp hedge
    exact ⟨hrecipient.trans hinbox.persona, hsender, hbind, hwindow, hid, hstate, hsigner, hsigned⟩
  · intro h
    refine ⟨h.recipient.trans hinbox.persona.symm, ?_, hinbox.persona.symm, h.sender, ?_⟩
    · refine edgeBindingFailure_eq_none_iff.mpr ⟨h.binds, fun held hheld ↦ ?_⟩
      rw [hinbox.getEdge] at hheld
      cases hheld
    · exact acceptsLast_first_iff.mpr ⟨edgeMalformed_eq_none_iff.mpr ⟨h.binds, h.window⟩,
        h.aboutEdge, h.signed, h.state, h.signer⟩

theorem newcomer_accepts_iff (hinbox : Newcomer edge.owedTo inbox)
    (hverified : crypto.verifyObject (.message message) message.sender = true)
    (hbody : message.body = .propose (.ok ⟨edge, a⟩)) :
    ((inbox.ingest crypto now budgetNow [.message message]).2.accepted =
          [(.propose, some edge.edgeId)] ∧
        (inbox.ingest crypto now budgetNow [.message message]).2.discarded = []) ↔
      Genuine crypto message edge a := by
  rw [← @admissible_iff_genuine crypto message edge a inbox now hinbox]
  constructor
  · intro ⟨haccepted, _⟩
    have hdelivered : Delivered crypto inbox message :=
      @delivered_of_accepted crypto now budgetNow inbox message (by rw [haccepted]; simp)
    refine ⟨hdelivered.addressed, ?_⟩
    by_contra hinadmissible
    obtain ⟨reason, hdiscard⟩ := @ingestPropose_inadmissible crypto now budgetNow inbox edge a
      message.sender .empty hinadmissible
    rw [ingest_propose hdelivered hbody, hdiscard] at haccepted
    cases haccepted
  · intro ⟨hrecipient, hadmissible⟩
    rw [ingest_propose ⟨hverified, hrecipient⟩ hbody, ingestPropose_admissible hadmissible,
      hinbox.getEdge]
    simp [Inbox.admission, hinbox.unbudgeted, IngestResult.accept, IngestResult.empty]

/-- The proposal under a payload, if it is signed by its sender, is genuine. -/
def CarriesGenuine (crypto : Crypto) (parse : JsonReader) (payload : List Char) : Prop :=
  ∀ message hasSig, decodeBootstrap parse payload = some ⟨.message message, hasSig⟩ →
    crypto.verifyObject (.message message) message.sender = true →
    ∀ edge a, message.body = .propose (.ok ⟨edge, a⟩) → Genuine crypto message edge a

theorem NoMoreLenient.genuine {hasSig : Bool} (h : NoMoreLenient crypto parse payload)
    (hdecoded : decodeBootstrap parse payload = some ⟨.message message, hasSig⟩)
    (hverified : crypto.verifyObject (.message message) message.sender = true)
    (hbody : message.body = .propose (.ok ⟨edge, a⟩)) : Genuine crypto message edge a := by
  have hpresentable := renderBootstrap_presentable_iff.mpr
    ⟨message, hasSig, hdecoded, hverified, hbody, rfl⟩
  let inbox : Inbox := ⟨edge.owedTo, .empty, none, fun _ _ ↦ .zero⟩
  have hinbox : Newcomer edge.owedTo inbox := ⟨rfl, rfl, rfl⟩
  exact (newcomer_accepts_iff hinbox hverified hbody).mp
    (h _ _ _ hpresentable _ hdecoded inbox hinbox edge.proposedAt 0)

/-- The renderer presents only what a node would accept on the payloads whose proposal is genuine
already: it looks at nothing but the message's signature. -/
theorem no_more_lenient_iff (crypto : Crypto) (parse : JsonReader) (payload : List Char) :
    NoMoreLenient crypto parse payload ↔ CarriesGenuine crypto parse payload := by
  constructor
  · exact fun h message hasSig hdecoded hverified edge a hbody ↦
      h.genuine hdecoded hverified hbody
  · intro h signedBy edge a hpresentable decoded hdecoded inbox hinbox now budgetNow
    obtain ⟨message, hasSig, hmessage, hverified, hbody, -⟩ :=
      renderBootstrap_presentable_iff.mp hpresentable
    rw [hmessage] at hdecoded
    cases hdecoded
    exact (newcomer_accepts_iff hinbox hverified hbody).mpr
      (h message hasSig hmessage hverified edge a hbody)

theorem b64UrlOnly_toBase64Url {bytes : List UInt8} (h : bytes ≠ []) :
    b64UrlOnly (toBase64Url bytes) = true := by
  have hne : (Base64.sextets bytes).isEmpty = false := by
    match bytes with
    | [] => exact absurd rfl h
    | [_] | [_, _] | _ :: _ :: _ :: _ => rfl
  have hall : ∀ n ∈ Base64.sextets bytes, (Base64.urlValue (Base64.urlDigit n)).isSome = true := by
    intro n hn
    rw [Base64.urlValue_urlDigit (Base64.sextets_lt bytes n hn)]
    rfl
  simp only [b64UrlOnly, toBase64Url, Base64.encodeUrl, List.isEmpty_map, hne, Bool.not_false,
    Bool.true_and, List.all_map, List.all_eq_true]
  exact hall

/-- What comes out of a link is what went in. -/
theorem decodeBootstrap_toBase64Url {bytes : List UInt8} (h : bytes ≠ []) :
    decodeBootstrap parse (toBase64Url bytes) = parse bytes := by
  rw [decodeBootstrap, b64UrlOnly_toBase64Url h, fromBase64Url, toBase64Url,
    Base64.decodeUrl_encodeUrl]
  rfl

section Stranger

open Sample

/-- A stranger puts its name under the owner's promise. -/
def strangersMessage : WireMessage := ⟨.propose (.ok ⟨Sample.edge, proposal⟩), strangeKey, creditorKey,
  date 3 1 9,
  0x66d14f15d7d6a7446fcb7009310eaadd6186cd4132411d6b2a3d1de21b37248bdbfc11403f1510d19d52953210d08fac0336e7974cca224104c7a268adf6f703⟩

def quoted (text : List Char) : List Char := '"' :: text ++ ['"']

def member (name : String) (value : List Char) : List Char := quoted name.toList ++ ':' :: value

def object (members : List (List Char)) : List Char :=
  Char.ofNat 123 :: (members.intersperse [',']).flatten ++ [Char.ofNat 125]

/-- The message as its link carries it, in canonical form. -/
def strangersText : List Char :=
  object [
    member "payload" (object [
      member "assertion" (object [
        member "asserted_at" (quoted proposal.assertedAt.text),
        member "by" (quoted (hexText proposal.signer)),
        member "edge_id" (quoted (hexText proposal.edgeId)),
        member "evidence_hash" "null".toList,
        member "sig" (quoted (hexText proposal.sig)),
        member "state" (quoted "proposed".toList),
        member "type" (quoted "assertion".toList),
        member "v" (quoted "servanda/0.2".toList)]),
      member "edge" (object [
        member "acceptance_window" (quoted "P5D".toList),
        member "blocked_by" "[]".toList,
        member "closure_policy" (quoted "on-acceptance".toList),
        member "commitment_hash" (quoted (hexText Sample.edge.commitmentHash)),
        member "due" "null".toList,
        member "edge_id" (quoted (hexText Sample.edge.edgeId)),
        member "owed_to" (quoted (hexText Sample.edge.owedTo)),
        member "owner" (quoted (hexText Sample.edge.owner)),
        member "proposed_at" (quoted Sample.edge.proposedAt.text),
        member "supersedes" "null".toList,
        member "type" (quoted "edge".toList),
        member "v" (quoted "servanda/0.2".toList)])]),
    member "recipient" (quoted (hexText strangersMessage.recipient)),
    member "sender" (quoted (hexText strangersMessage.sender)),
    member "sent_at" (quoted strangersMessage.sentAt.text),
    member "sig" (quoted (hexText strangersMessage.sig)),
    member "type" (quoted "propose".toList),
    member "v" (quoted "servanda/0.2".toList)]

/-- A reader of JSON text, on the one text that is read here. -/
def readStrangers : JsonReader := fun bytes ↦
  if bytes = Crypto.utf8 strangersText then some ⟨.message strangersMessage, true⟩ else none

/-- The renderer presents the owner's promise as signed by the stranger; a node discards it. -/
theorem stranger_presented : ¬∀ payload, NoMoreLenient Sample.crypto readStrangers payload := by
  intro h
  have hbytes : Crypto.utf8 strangersText ≠ [] := List.cons_ne_nil _ _
  have hdecoded : decodeBootstrap readStrangers (toBase64Url (Crypto.utf8 strangersText)) =
      some ⟨.message strangersMessage, true⟩ := by
    rw [decodeBootstrap_toBase64Url hbytes, readStrangers, if_pos rfl]
  have hgenuine := (h (toBase64Url (Crypto.utf8 strangersText))).genuine hdecoded rfl rfl
  exact absurd hgenuine.sender (by decide)

end Stranger

end Servanda.Bootstrap
