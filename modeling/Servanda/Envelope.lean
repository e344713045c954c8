import Servanda.Json
import Servanda.Crypto

namespace Servanda

open Unicode

namespace Rfc3339

def digit? (c : Char) : Option (Fin 10) :=
  if h : '0' ≤ c ∧ c ≤ '9' then some ⟨c.toNat - 48, by
    have hc : c.toNat ≤ 57 := h.2
    omega⟩
  else none

def digits? (cs : List Char) : Option Digits := cs.mapM digit?

/-- The number spelled by the `width` characters at a position. -/
def field? (cs : List Char) (start width : ℕ) : Option ℕ :=
  let spelled := (cs.drop start).take width
  if spelled.length = width then (digits? spelled).map Digits.toNat else none

def zone? : List Char → Option Zone
  | ['Z'] => some .utc
  | [sign, h₁, h₂, ':', m₁, m₂] =>
    if sign = '+' ∨ sign = '-' then
      match digits? [h₁, h₂], digits? [m₁, m₂] with
      | some hours, some minutes => some (.offset (sign = '+') hours.toNat minutes.toNat)
      | _, _ => none
    else none
  | _ => none

/-- The digits after a point, and what follows them; a point has at least one. -/
def fraction? : List Char → Option (Digits × List Char)
  | '.' :: cs =>
    match digits? (cs.takeWhile fun c ↦ (digit? c).isSome) with
    | some (d :: ds) => some (d :: ds, cs.dropWhile fun c ↦ (digit? c).isSome)
    | _ => none
  | cs => some ([], cs)

/-- What the `Rfc3339` schema reads in a text. -/
def ofText? (cs : List Char) : Option Rfc3339 := do
  let year ← field? cs 0 4
  let month ← field? cs 5 2
  let day ← field? cs 8 2
  let hour ← field? cs 11 2
  let minute ← field? cs 14 2
  let second ← field? cs 17 2
  guard ([4, 7, 10, 13, 16].map (cs[·]?) = [some '-', some '-', some 'T', some ':', some ':'])
  let (fraction, rest) ← fraction? (cs.drop 19)
  let zone ← zone? rest
  if parseable : year ≤ 9999 ∧ (1 ≤ month ∧ month ≤ 12) ∧ (1 ≤ day ∧ day ≤ 31) ∧
      (hour ≤ 23 ∨ hour = 24 ∧ minute = 0 ∧ second = 0 ∧ ∀ d ∈ fraction, d = 0) ∧
      minute ≤ 59 ∧ second ≤ 59 ∧ zone.InRange then
    some { year, month, day, hour, minute, second, fraction, zone, parseable }
  else none

end Rfc3339

def isRfc3339 (s : Text) : Bool := (Rfc3339.ofText? (scalars s)).isSome

def isHexUnit (u : CodeUnit) : Bool :=
  0x30 ≤ u.toNat && u.toNat ≤ 0x39 || 0x61 ≤ u.toNat && u.toNat ≤ 0x66

def isHex64 (s : Text) : Bool := s.length == 64 && s.all isHexUnit

def protocolVersion : Text := text "servanda/0.2"

/-- A string its schema accepts. -/
abbrev Checked (schema : Text → Bool) := { s : Text // schema s = true }

def Checked.parse (schema : Text → Bool) : Json → Option (Checked schema)
  | .str s => if h : schema s = true then some ⟨s, h⟩ else none
  | _ => none

@[simp]
theorem Checked.parse_str {schema : Text → Bool} (s : Checked schema) :
    Checked.parse schema (.str s.val) = some s := dif_pos s.property

def isNonempty (s : Text) : Bool := !s.isEmpty

inductive EnvelopeRefKind
  | url | commit | issue | message | file
  deriving DecidableEq

def EnvelopeRefKind.name : EnvelopeRefKind → Text
  | url => text "url"
  | commit => text "commit"
  | issue => text "issue"
  | message => text "message"
  | file => text "file"

def EnvelopeRefKind.parse : Json → Option EnvelopeRefKind
  | .str s => [url, commit, issue, message, file].find? (·.name = s)
  | _ => none

structure EnvelopeRef where
  kind : EnvelopeRefKind
  value : Text
  deriving DecidableEq

structure EnvelopeActor where
  label : Text
  externalId : Option Text
  deriving DecidableEq

/-- An envelope without its `id`. Its version and its type are literals, and `clipped` is `true` or
absent. -/
structure UnidentifiedEnvelope where
  source : Checked isNonempty
  kind : Checked isNonempty
  occurredAt : Checked isRfc3339
  receivedAt : Checked isRfc3339
  actor : EnvelopeActor
  payload : Members
  refs : List EnvelopeRef
  clipped : Bool
  persona : Checked isHex64

structure Envelope where
  id : Checked isHex64
  content : UnidentifiedEnvelope

namespace EnvelopeRef

def toJson (r : EnvelopeRef) : Json :=
  .obj [(text "kind", .str r.kind.name), (text "value", .str r.value)]

def parse (v : Json) : Option EnvelopeRef := do
  guard v.isObject
  let kind ← (v.member (text "kind")).bind EnvelopeRefKind.parse
  let Json.str value ← v.member (text "value") | none
  some ⟨kind, value⟩

end EnvelopeRef

namespace EnvelopeActor

def toJson (a : EnvelopeActor) : Json :=
  .obj ((text "label", .str a.label) ::
    (a.externalId.map fun id ↦ (text "external_id", Json.str id)).toList)

def parse (v : Json) : Option EnvelopeActor := do
  guard v.isObject
  let Json.str label ← v.member (text "label") | none
  match v.member (text "external_id") with
  | none => some ⟨label, none⟩
  | some (.str id) => some ⟨label, some id⟩
  | some _ => none

end EnvelopeActor

/-- A record of unknown values: its schema drops a member under `__proto__`. -/
def parseRecord : Json → Option Members
  | .obj ms => some (ms.filter (·.1 ≠ Members.protoKey))
  | _ => none

namespace UnidentifiedEnvelope

/-- The members after the version and the type. -/
def described (e : UnidentifiedEnvelope) : Members :=
  [(text "source", .str e.source.val), (text "kind", .str e.kind.val),
    (text "occurred_at", .str e.occurredAt.val), (text "received_at", .str e.receivedAt.val),
    (text "actor", e.actor.toJson), (text "payload", .obj e.payload),
    (text "refs", .arr (e.refs.map EnvelopeRef.toJson))] ++
  (if e.clipped then [(text "clipped", Json.bool true)] else []) ++
  [(text "persona", .str e.persona.val)]

def toJson (e : UnidentifiedEnvelope) : Json :=
  .obj ((text "v", .str protocolVersion) :: (text "type", .str (text "envelope")) :: e.described)

def parseRefs : Option Json → Option (List EnvelopeRef)
  | none => some []
  | some (.arr items) => items.mapM EnvelopeRef.parse
  | some _ => none

def parseClipped : Option Json → Option Bool
  | none => some false
  | some (.bool true) => some true
  | some _ => none

def isLiteral (s : Text) : Option Json → Bool
  | some (.str t) => t = s
  | _ => false

def parse (v : Json) : Option UnidentifiedEnvelope := do
  guard v.isObject
  guard (isLiteral protocolVersion (v.member (text "v")))
  guard (isLiteral (text "envelope") (v.member (text "type")))
  let source ← (v.member (text "source")).bind (Checked.parse isNonempty)
  let kind ← (v.member (text "kind")).bind (Checked.parse isNonempty)
  let occurredAt ← (v.member (text "occurred_at")).bind (Checked.parse isRfc3339)
  let receivedAt ← (v.member (text "received_at")).bind (Checked.parse isRfc3339)
  let actor ← (v.member (text "actor")).bind EnvelopeActor.parse
  let payload ← (v.member (text "payload")).bind parseRecord
  let refs ← parseRefs (v.member (text "refs"))
  let clipped ← parseClipped (v.member (text "clipped"))
  let persona ← (v.member (text "persona")).bind (Checked.parse isHex64)
  some { source, kind, occurredAt, receivedAt, actor, payload, refs, clipped, persona }

end UnidentifiedEnvelope

namespace Envelope

def toJson (e : Envelope) : Json :=
  .obj ((text "v", .str protocolVersion) :: (text "type", .str (text "envelope")) ::
    (text "id", .str e.id.val) :: e.content.described)

def parse (v : Json) : Option Envelope := do
  let id ← (v.member (text "id")).bind (Checked.parse isHex64)
  let content ← UnidentifiedEnvelope.parse v
  some { id, content }

end Envelope

@[simp]
theorem EnvelopeRefKind.parse_name (kind : EnvelopeRefKind) :
    parse (.str kind.name) = some kind := by
  cases kind <;> decide

@[simp]
theorem EnvelopeRef.parse_toJson (r : EnvelopeRef) : parse r.toJson = some r := by
  have hkind : r.toJson.member (text "kind") = some (.str r.kind.name) := rfl
  have hvalue : r.toJson.member (text "value") = some (.str r.value) := rfl
  have hobject : r.toJson.isObject = true := rfl
  simp [parse, hobject, hkind, hvalue]

@[simp]
theorem EnvelopeActor.parse_toJson (a : EnvelopeActor) : parse a.toJson = some a := by
  obtain ⟨label, externalId⟩ := a
  cases externalId with
  | none => rfl
  | some id => rfl

theorem parseRefs_toJson (refs : List EnvelopeRef) :
    UnidentifiedEnvelope.parseRefs (some (.arr (refs.map EnvelopeRef.toJson))) = some refs := by
  simp only [UnidentifiedEnvelope.parseRefs]
  induction refs with
  | nil => rfl
  | cons r refs ih => simp [ih]

theorem parseRecord_of_protoless {ms : Members} (h : Members.protoKey ∉ ms.keys) :
    parseRecord (.obj ms) = some ms := by
  rw [parseRecord, List.filter_eq_self.2]
  intro m hm
  have hne : m.1 ≠ Members.protoKey := fun heq ↦ h (heq ▸ List.mem_map_of_mem hm)
  simpa using hne

/-- An envelope is read back as it was written. -/
theorem UnidentifiedEnvelope.parse_toJson {e : UnidentifiedEnvelope}
    (h : Members.protoKey ∉ e.payload.keys) : parse e.toJson = some e := by
  have hobject : e.toJson.isObject = true := rfl
  have hv : isLiteral protocolVersion (e.toJson.member (text "v")) = true := by
    have hmember : e.toJson.member (text "v") = some (.str protocolVersion) := rfl
    simp [hmember, isLiteral]
  have htype : isLiteral (text "envelope") (e.toJson.member (text "type")) = true := by
    have hmember : e.toJson.member (text "type") = some (.str (text "envelope")) := rfl
    simp [hmember, isLiteral]
  have hsource : e.toJson.member (text "source") = some (.str e.source.val) := rfl
  have hkind : e.toJson.member (text "kind") = some (.str e.kind.val) := rfl
  have hoccurred : e.toJson.member (text "occurred_at") = some (.str e.occurredAt.val) := rfl
  have hreceived : e.toJson.member (text "received_at") = some (.str e.receivedAt.val) := rfl
  have hactor : e.toJson.member (text "actor") = some e.actor.toJson := rfl
  have hpayload : e.toJson.member (text "payload") = some (.obj e.payload) := rfl
  have hrefs : e.toJson.member (text "refs") = some (.arr (e.refs.map EnvelopeRef.toJson)) := rfl
  have hclipped : parseClipped (e.toJson.member (text "clipped")) = some e.clipped := by
    obtain ⟨_, _, _, _, _, _, _, clipped, _⟩ := e
    cases clipped <;> rfl
  have hpersona : e.toJson.member (text "persona") = some (.str e.persona.val) := by
    obtain ⟨_, _, _, _, _, _, _, clipped, _⟩ := e
    cases clipped <;> rfl
  simp [parse, hobject, hv, htype, hsource, hkind, hoccurred, hreceived, hactor, hpayload, hrefs,
    hclipped, hpersona, parseRefs_toJson, parseRecord_of_protoless h]

/-- What holds of the values of its members holds of every member an envelope is written with. -/
theorem UnidentifiedEnvelope.forall_members {P : Json → Prop} {e : UnidentifiedEnvelope}
    (hstr : ∀ s, P (.str s)) (hbool : ∀ b, P (.bool b)) (hactor : P e.actor.toJson)
    (hpayload : P (.obj e.payload)) (hrefs : P (.arr (e.refs.map EnvelopeRef.toJson))) :
    ∀ m ∈ (text "v", Json.str protocolVersion) :: (text "type", Json.str (text "envelope")) ::
      e.described, P m.2 := by
  intro m hm
  have hmarker : ∀ m ∈ (if e.clipped then [(text "clipped", Json.bool true)] else []), P m.2 := by
    intro m hm
    split at hm
    · exact List.mem_singleton.1 hm ▸ hbool true
    · cases hm
  simp only [described, List.mem_cons, List.mem_append, List.not_mem_nil, or_false] at hm
  rcases hm with rfl | rfl | (hmember | hclipped) | rfl
  · exact hstr _
  · exact hstr _
  · rcases hmember with rfl | rfl | rfl | rfl | rfl | rfl | rfl
    all_goals first | exact hstr _ | assumption
  · exact hmarker m hclipped
  · exact hstr _

theorem Envelope.member_toJson {e : Envelope} {key : Text} (h : key ≠ text "id") :
    e.toJson.member key = e.content.toJson.member key := by
  have hbeq : (key == text "id") = false := by simpa using h
  simp [toJson, UnidentifiedEnvelope.toJson, Json.member, Members.get?, List.lookup_cons, hbeq]

theorem Envelope.parse_toJson {e : Envelope} (h : Members.protoKey ∉ e.content.payload.keys) :
    parse e.toJson = some e := by
  have hid : e.toJson.member (text "id") = some (.str e.id.val) := rfl
  have hcontent : UnidentifiedEnvelope.parse e.toJson =
      UnidentifiedEnvelope.parse e.content.toJson := by
    have hobject : e.toJson.isObject = e.content.toJson.isObject := rfl
    simp (disch := decide) only [UnidentifiedEnvelope.parse, hobject, member_toJson]
  simp [parse, hid, hcontent, UnidentifiedEnvelope.parse_toJson h]

theorem Json.member_mem {v w : Json} {key : Text} (h : v.member key = some w) :
    ∃ ms, v = .obj ms ∧ (key, w) ∈ ms := by
  cases v with
  | obj ms => exact ⟨ms, rfl, Members.mem_of_get? h⟩
  | _ => cases h

theorem parseRecord_spec {v : Json} {payload : Members} (h : parseRecord v = some payload) :
    ∃ ms, v = .obj ms ∧ payload = ms.filter (·.1 ≠ Members.protoKey) := by
  cases v with
  | obj ms =>
    rw [parseRecord, Option.some.injEq] at h
    exact ⟨ms, rfl, h.symm⟩
  | _ => cases h

/-- The payload a schema reads is the payload member, less what stands under `__proto__`. -/
theorem UnidentifiedEnvelope.parse_payload {v : Json} {e : UnidentifiedEnvelope}
    (h : parse v = some e) : ∃ ms, v.member (text "payload") = some (.obj ms) ∧
      e.payload = ms.filter (·.1 ≠ Members.protoKey) := by
  simp only [parse, bind, Option.bind_eq_some_iff, Option.some.injEq] at h
  obtain ⟨_, -, _, -, _, -, _, -, _, -, _, -, _, -, _, -, payload, ⟨w, hmember, hpayload⟩, _, -, _, -,
    _, -, rfl⟩ := h
  obtain ⟨ms, rfl, hfilter⟩ := parseRecord_spec hpayload
  exact ⟨ms, hmember, hfilter⟩

theorem UnidentifiedEnvelope.parse_distinct {v : Json} {e : UnidentifiedEnvelope}
    (hdistinct : v.Distinct) (h : parse v = some e) : (Json.obj e.payload).Distinct := by
  obtain ⟨ms, hmember, hpayload⟩ := parse_payload h
  obtain ⟨members, rfl, hmem⟩ := Json.member_mem hmember
  have hms : (Json.obj ms).Distinct := hdistinct.members _ hmem
  rw [hpayload]
  exact .obj (hms.keys.sublist (List.filter_sublist.map _)) fun m hm ↦
    hms.members m (List.mem_of_mem_filter hm)

end Servanda
