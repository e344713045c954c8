import Servanda.Message
import Servanda.Seal

namespace Servanda.Mime

open Unicode Scan UnidentifiedEnvelope

/-- An object literal's entries, some of them `undefined`. -/
abbrev Entries := List (Text × Option Json)

/-- `{ ...base, ...extra }`. -/
def spread (base extra : Entries) : Entries :=
  extra.foldl (fun out m ↦
    if m.1 ∈ out.map Prod.fst then out.map fun m' ↦ if m'.1 = m.1 then m else m' else out ++ [m]) base

/-- Drops the entries that are `undefined`. -/
def compact (o : Entries) : Members :=
  o.foldl (fun out m ↦ (m.2.map (out.assign m.1)).getD out) []

inductive CaptureKind
  | emailIn
  | emailOut
  deriving DecidableEq

def CaptureKind.name : CaptureKind → Text
  | emailIn => text "email_in"
  | emailOut => text "email_out"

inductive DirectionBasis
  | mailbox
  | fromHeader
  | default
  deriving DecidableEq

def DirectionBasis.name : DirectionBasis → Text
  | mailbox => text "mailbox"
  | fromHeader => text "from_header"
  | default => text "default"

structure EmailIdentity where
  addresses : List Text
  sentMailboxes : List Text

structure ImapMessageSource where
  mailbox : Text
  uid : JsNumber
  raw : List UInt8
  flags : Option (List Text)
  internalDate : Option Text

structure CaptureContext where
  receivedAt : Checked isRfc3339
  limits : Option MimeLimits

structure CaptureExtras where
  payload : Entries
  kind : Option Text
  refs : List EnvelopeRef

def emailSource : Text := text "imap"

theorem emailSource_nonempty : isNonempty emailSource = true := by decide

def fromVerification : Text := text "none"

def hasNonAscii (s : Text) : Bool := s.any fun u ↦ 127 < u.toNat

def addressOf (list : List MailAddress) : Option Text := list.findSome? (·.address)

/-- The loop over a list of recipients. -/
def addressesOf (max : ℕ) (out : List Text) : List MailAddress → List Text
  | [] => out
  | a :: list =>
    match a.address with
    | none => addressesOf max out list
    | some address =>
      if address ∈ out then addressesOf max out list
      else
        let out := out ++ [clip address 320]
        if max ≤ out.length then out else addressesOf max out list

def threadIdOf (parsed : ParsedMessage) : Option Text :=
  parsed.references.head? <|> parsed.inReplyTo <|> parsed.messageId

def pushRef (refs : List EnvelopeRef) (value : Text) : List EnvelopeRef :=
  let clipped := clip value maxRef
  if value = [] ∨ refs.any (·.value = clipped) then refs else refs ++ [⟨.message, clipped⟩]

def threadRefs (parsed : ParsedMessage) : List EnvelopeRef :=
  (parsed.messageId.toList ++ parsed.inReplyTo.toList ++ parsed.references).foldl pushRef []

section

variable (platform : Platform)

/-- Controls and format characters are blanks in a label. -/
def flatten (s : Text) : Text :=
  let visible := (points s).flatMap fun point ↦ if isInvisible platform point then text " " else point
  trim (replaceAll (run 1 isSpace (text " ")) visible)

def label (s : Text) : Text :=
  let clipped := clip (flatten platform s) maxLabel
  if clipped = [] then text "unknown" else clipped

def directionOf (parsed : ParsedMessage) (mailbox : Text) (identity : EmailIdentity) :
    CaptureKind × DirectionBasis :=
  if mailbox ∈ identity.sentMailboxes then (.emailOut, .mailbox)
  else if ∃ sender ∈ addressOf parsed.from, platform.toLowerCase sender ∈ identity.addresses then
    (.emailOut, .fromHeader)
  else (.emailIn, .default)

def occurredAt (parsed : ParsedMessage) (source : ImapMessageSource) : Option (Checked isRfc3339) :=
  parsed.date <|> source.internalDate.bind fun date ↦ Checked.parse isRfc3339 (.str date)

def attachmentJson (a : MailAttachment) : Json :=
  .obj ((a.filename.map fun name ↦ (text "filename", Json.str name)).toList ++
    [(text "content_type", .str a.contentType), (text "bytes", .num (.ofNat a.bytes))])

def count {α : Type} (l : List α) : Option Json := some (.num (.ofNat l.length))

def texts (l : List Text) : Json := .arr (l.map .str)

def basePayload (parsed : ParsedMessage) (source : ImapMessageSource) (identity : EmailIdentity) :
    Entries :=
  let direction := directionOf platform parsed source.mailbox identity
  let fromAddress := addressOf parsed.from
  let fromName := parsed.from.head?.bind (·.name)
  [(text "mailbox", some (.str (clip source.mailbox 256))),
    (text "uid", some (.num source.uid)),
    (text "direction", some (.str direction.1.name)),
    (text "direction_basis", some (.str direction.2.name)),
    (text "message_id", parsed.messageId.map .str),
    (text "thread_id", (threadIdOf parsed).map .str),
    (text "in_reply_to", parsed.inReplyTo.map .str),
    (text "references_count", count parsed.references),
    (text "is_reply", some (.bool (parsed.inReplyTo.isSome || !parsed.references.isEmpty))),
    (text "subject", parsed.subject.map .str),
    (text "text", some (.str parsed.text)),
    (text "text_source_chars", some (.num (.ofNat parsed.textLength))),
    (text "html", some (.bool parsed.html)),
    (text "raw_bytes", some (.num (.ofNat parsed.rawBytes))),
    (text "truncated", some (.bool parsed.truncated)),
    (text "from_display_name", fromName.map fun name ↦ .str (clip name 320)),
    (text "from_address", fromAddress.map fun address ↦ .str (clip address 320)),
    (text "from_verification", some (.str fromVerification)),
    (text "from_address_non_ascii", fromAddress.map fun address ↦ .bool (hasNonAscii address)),
    (text "to", some (texts (addressesOf 32 [] parsed.to))),
    (text "to_count", count parsed.to),
    (text "cc", some (texts (addressesOf 32 [] parsed.cc))),
    (text "cc_count", count parsed.cc),
    (text "reply_to", some (texts (addressesOf 4 [] parsed.replyTo))),
    (text "attachment_count", count parsed.attachments),
    (text "attachments", some (.arr (parsed.attachments.map attachmentJson))),
    (text "flags", source.flags.map fun flags ↦ texts (flags.insertionSort (· ≤ ·))),
    (text "header_anomalies", some (texts parsed.anomalies)),
    (text "observed_auth_results", some (texts parsed.observedAuthResults))]

/-- The envelope-shaped candidate of a message, before it is sealed. -/
def candidateOf (parsed : ParsedMessage) (source : ImapMessageSource) (persona : Checked isHex64)
    (identity : EmailIdentity) (ctx : CaptureContext) (extras : CaptureExtras)
    (occurred : Checked isRfc3339) : Json :=
  let direction := directionOf platform parsed source.mailbox identity
  let fromAddress := addressOf parsed.from
  let fromName := parsed.from.head?.bind (·.name)
  .obj [(text "v", .str (text "servanda/0.2")),
    (text "type", .str (text "envelope")),
    (text "source", .str emailSource),
    (text "kind", .str (extras.kind.getD direction.1.name)),
    (text "occurred_at", .str occurred.val),
    (text "received_at", .str ctx.receivedAt.val),
    (text "actor", .obj (compact
      [(text "label", some (.str (label platform ((fromName <|> fromAddress).getD (text "unknown"))))),
        (text "external_id", fromAddress.map fun address ↦ .str (clip address 320))])),
    (text "payload", .obj (compact (spread (basePayload platform parsed source identity)
      extras.payload))),
    (text "refs", .arr (((threadRefs parsed ++ extras.refs).take 40).map EnvelopeRef.toJson)),
    (text "persona", .str persona.val)]

variable (crypto : Crypto)

/-- A message that says nowhere when it occurred gives no envelope. -/
def buildEnvelope (parsed : ParsedMessage) (source : ImapMessageSource) (persona : Checked isHex64)
    (identity : EmailIdentity) (ctx : CaptureContext) (extras : CaptureExtras) :
    Except EnvelopeError (Option Envelope) :=
  match occurredAt parsed source with
  | none => .ok none
  | some occurred =>
    (sealEnvelope crypto (candidateOf platform parsed source persona identity ctx extras occurred)).map
      some

def parsedOf (source : ImapMessageSource) (ctx : CaptureContext) : ParsedMessage :=
  parseMessage platform source.raw (ctx.limits.getD defaultLimits)

def envelopeFromMessage (source : ImapMessageSource) (persona : Checked isHex64)
    (identity : EmailIdentity) (ctx : CaptureContext) : Except EnvelopeError (Option Envelope) :=
  buildEnvelope platform crypto (parsedOf platform source ctx) source persona identity ctx
    ⟨[], none, []⟩

end

theorem name_nonempty (kind : CaptureKind) : isNonempty kind.name = true := by
  cases kind <;> decide

section

variable (platform : Platform) (parsed : ParsedMessage) (source : ImapMessageSource)
  (persona : Checked isHex64) (identity : EmailIdentity) (ctx : CaptureContext)

/-- What a message is observed as: the candidate of its envelope, as the schema reads it. -/
def observation (occurred : Checked isRfc3339) : UnidentifiedEnvelope where
  source := ⟨emailSource, emailSource_nonempty⟩
  kind := ⟨(directionOf platform parsed source.mailbox identity).1.name, name_nonempty _⟩
  occurredAt := occurred
  receivedAt := ctx.receivedAt
  actor :=
    { label := label platform (((parsed.from.head?.bind (·.name)) <|> addressOf parsed.from).getD
        (text "unknown"))
      externalId := (addressOf parsed.from).map (clip · 320) }
  payload := compact (basePayload platform parsed source identity)
  refs := (threadRefs parsed).take 40
  clipped := false
  persona := persona

theorem compact_assigned (o : Entries) : Assigned (compact o).keys := by
  have hfold : ∀ (o : Entries) (out : Members), Assigned out.keys →
      Assigned (o.foldl (fun out m ↦ (m.2.map (out.assign m.1)).getD out) out).keys := by
    intro o
    induction o with
    | nil => exact fun _ h ↦ h
    | cons m o ih =>
      intro out h
      obtain ⟨key, value⟩ := m
      cases value with
      | none => exact ih out h
      | some v => exact ih _ (assigned_assign h)
  exact hfold o [] ⟨List.nodup_nil, List.not_mem_nil⟩

theorem compact_actor (label : Text) (externalId : Option Text) :
    Json.obj (compact [(text "label", some (.str label)), (text "external_id", externalId.map .str)]) =
      EnvelopeActor.toJson ⟨label, externalId⟩ := by
  cases externalId <;> rfl

/-- The same with what a gesture adds. -/
def observationWith (extras : CaptureExtras) (kind : Checked isNonempty)
    (occurred : Checked isRfc3339) : UnidentifiedEnvelope :=
  { observation platform parsed source persona identity ctx occurred with
    kind
    payload := compact (spread (basePayload platform parsed source identity) extras.payload)
    refs := (threadRefs parsed ++ extras.refs).take 40 }

theorem candidateOf_extras {extras : CaptureExtras} {kind : Checked isNonempty}
    (hkind : extras.kind.getD (directionOf platform parsed source.mailbox identity).1.name = kind.val)
    (occurred : Checked isRfc3339) :
    candidateOf platform parsed source persona identity ctx extras occurred =
      (observationWith platform parsed source persona identity ctx extras kind occurred).toJson := by
  have hactor := compact_actor (label platform (((parsed.from.head?.bind (·.name)) <|>
    addressOf parsed.from).getD (text "unknown"))) ((addressOf parsed.from).map (clip · 320))
  rw [Option.map_map] at hactor
  simp only [candidateOf, hkind]
  exact congrArg (fun actor ↦ Json.obj [(text "v", .str protocolVersion),
    (text "type", .str (text "envelope")), (text "source", .str emailSource),
    (text "kind", .str kind.val), (text "occurred_at", .str occurred.val),
    (text "received_at", .str ctx.receivedAt.val), (text "actor", actor),
    (text "payload", .obj (compact (spread (basePayload platform parsed source identity)
      extras.payload))),
    (text "refs", .arr (((threadRefs parsed ++ extras.refs).take 40).map EnvelopeRef.toJson)),
    (text "persona", .str persona.val)]) hactor

theorem observationWith_none (occurred : Checked isRfc3339) :
    observationWith platform parsed source persona identity ctx ⟨[], none, []⟩
      (observation platform parsed source persona identity ctx occurred).kind occurred =
        observation platform parsed source persona identity ctx occurred := by
  rw [observationWith, List.append_nil]
  rfl

theorem candidateOf_eq (occurred : Checked isRfc3339) :
    candidateOf platform parsed source persona identity ctx ⟨[], none, []⟩ occurred =
      (observation platform parsed source persona identity ctx occurred).toJson := by
  have hkind : (none : Option Text).getD (directionOf platform parsed source.mailbox identity).1.name =
      (observation platform parsed source persona identity ctx occurred).kind.val := rfl
  rw [@candidateOf_extras platform parsed source persona identity ctx ⟨[], none, []⟩ _ hkind,
    observationWith_none]

/-- Of the members that are never cut, only the sender's address can be too long. -/
theorem observation_short_iff (occurred : Checked isRfc3339) :
    (observation platform parsed source persona identity ctx occurred).Short ↔
      ∀ address ∈ addressOf parsed.from, octets address ≤ maxLabel := by
  have hsource : octets emailSource ≤ maxLabel := by decide
  have hkind : ∀ kind : CaptureKind, octets kind.name ≤ maxLabel := by
    intro kind
    cases kind <;> decide
  have hclip : ∀ address, octets (clip address 320) ≤ maxLabel ↔ octets address ≤ maxLabel :=
    fun _ ↦ octets_clip_le_iff (by decide)
  constructor
  · intro h address haddress
    exact (hclip address).1 (h.externalId _ (Option.mem_map_of_mem _ haddress))
  · intro h
    refine ⟨?_, hsource, hkind _⟩
    intro id hid
    obtain ⟨address, haddress, rfl⟩ := Option.mem_map.1 hid
    exact (hclip address).2 (h address haddress)

end

variable {platform : Platform} {crypto : Crypto} {source : ImapMessageSource}
  {persona : Checked isHex64} {identity : EmailIdentity} {ctx : CaptureContext}

/-- A message that says when it occurred gives an envelope inside the bounds exactly where its
sender's address is inside the bound of an identifier, and the reduced form leaves room for the
`id`. -/
theorem envelopeFromMessage_bounded_iff :
    (∃ r, envelopeFromMessage platform crypto source persona identity ctx = .ok r ∧ ∀ e ∈ r,
      boundsViolation e.toJson = .ok none ∧ e.content.source.val = emailSource ∧
        ∃ kind : CaptureKind, e.content.kind.val = kind.name) ↔
      ∀ occurred ∈ occurredAt (parsedOf platform source ctx) source,
        (∀ address ∈ addressOf (parsedOf platform source ctx).from, octets address ≤ maxLabel) ∧
        RoomForId (bound (observation platform (parsedOf platform source ctx) source persona identity
          ctx occurred)) := by
  unfold envelopeFromMessage buildEnvelope
  generalize parsedOf platform source ctx = parsed
  cases hoccurred : occurredAt parsed source with
  | none => simp
  | some occurred =>
    have hproto : Members.protoKey ∉
        (observation platform parsed source persona identity ctx occurred).payload.keys :=
      (compact_assigned _).2
    have hseal := seal_bounded_iff crypto hproto
    rw [observation_short_iff] at hseal
    simp only [Option.mem_some_iff, forall_eq', candidateOf_eq, ← hseal]
    constructor
    · intro ⟨r, hr, hall⟩
      cases hsealed : sealEnvelope crypto
          (observation platform parsed source persona identity ctx occurred).toJson with
      | error err =>
        rw [hsealed] at hr
        cases hr
      | ok e =>
        rw [hsealed] at hr
        obtain rfl : some e = r := Except.ok.inj hr
        exact ⟨e, rfl, (hall e rfl).1⟩
    · intro ⟨e, hsealed, hbounded⟩
      obtain ⟨base, hbase, -, -, hcontent⟩ := sealEnvelope_ok_iff.1 hsealed
      rw [UnidentifiedEnvelope.parse_toJson hproto, Option.some.injEq] at hbase
      have hframed := bound_framed base
      refine ⟨some e, by rw [hsealed]; rfl, ?_⟩
      rintro _ ⟨⟩
      refine ⟨hbounded, ?_, (directionOf platform parsed source.mailbox identity).1, ?_⟩
      · rw [hcontent, hframed.source, ← hbase]
        rfl
      · rw [hcontent, hframed.kind, ← hbase]
        rfl

/-- A message from an address over the bound stops the connector. -/
theorem envelopeFromMessage_throws {occurred : Checked isRfc3339} {address : Text}
    (hoccurred : occurredAt (parsedOf platform source ctx) source = some occurred)
    (haddress : addressOf (parsedOf platform source ctx).from = some address)
    (hlong : maxLabel < octets address) :
    ∃ err, envelopeFromMessage platform crypto source persona identity ctx = .error err := by
  cases hsealed : sealEnvelope crypto (candidateOf platform (parsedOf platform source ctx) source persona
      identity ctx ⟨[], none, []⟩ occurred) with
  | error err => exact ⟨err, by simp [envelopeFromMessage, buildEnvelope, hoccurred, hsealed, Except.map]⟩
  | ok e =>
    rw [candidateOf_eq] at hsealed
    obtain ⟨base, hbase, hviolation, -⟩ := sealEnvelope_ok_iff.1 hsealed
    rw [UnidentifiedEnvelope.parse_toJson (compact_assigned _).2, Option.some.injEq] at hbase
    obtain ⟨hshort, -⟩ := boundsViolation_bound_iff.1 hviolation
    rw [← hbase, observation_short_iff] at hshort
    exact absurd (hshort address haddress) (not_le.2 hlong)

namespace Sample

/-- A platform for texts in ASCII without encoded words, parts and dates. -/
def asciiPlatform : Platform where
  textDecoder _ := none
  base64 _ := []
  dateParse _ := none
  toLowerCase s := s.map fun u ↦ if 0x41 ≤ u.toNat ∧ u.toNat ≤ 0x5A then u + 0x20 else u
  isFormat _ := false

/-- A message from an address of 201 octets. -/
def longSender : ImapMessageSource where
  mailbox := text "INBOX"
  uid := .ofNat 1
  raw := encodeUtf8 ("From: ".toList ++ List.replicate 199 'x' ++ "@x\n\n".toList)
  flags := none
  internalDate := some (text "2026-03-01T09:00:00Z")

def received : CaptureContext := ⟨⟨text "2026-03-01T09:00:00Z", Servanda.Sample.isRfc3339_morning⟩, none⟩

def parsedSender : ParsedMessage := parsedOf asciiPlatform longSender received

theorem parsedSender_read : addressOf parsedSender.from =
      some (units (List.replicate 199 'x' ++ "@x".toList)) ∧
    occurredAt parsedSender longSender = some received.receivedAt := by
  decide +kernel

end Sample

theorem long_sender_stops : ∃ err, envelopeFromMessage Sample.asciiPlatform Servanda.Sample.anyDigest
    Sample.longSender (hexId 0) ⟨[], []⟩ Sample.received = .error err := by
  apply envelopeFromMessage_throws Sample.parsedSender_read.2 Sample.parsedSender_read.1
  rw [octets, scalars_units]
  decide +kernel

end Servanda.Mime
