import Servanda.Seal

/-!
From a model's response to the records a node may keep of it.
-/

namespace Servanda.Extraction

/-- A text of so many code units. -/
def isWithin (least most : ℕ) (s : Text) : Bool := least ≤ s.length && s.length ≤ most

/-- The schema `ExternalLabel`. -/
def isExternalLabel : Text → Bool := isWithin 1 200

def isKeyOrExternalLabel (s : Text) : Bool := isHex64 s || isExternalLabel s

def isIntent : Text → Bool := isWithin 1 500

def isQuote : Text → Bool := isWithin 1 2000

/-- The value of a number's text. -/
def numberValue (n : JsNumber) : Option ℚ := do
  let negative := n.digits.head? == some '-'
  let cs := if negative then n.digits.tail else n.digits
  let mantissa := cs.takeWhile (· ≠ 'e')
  let scale := (cs.dropWhile (· ≠ 'e')).tail
  let whole := mantissa.takeWhile (· ≠ '.')
  let fraction := (mantissa.dropWhile (· ≠ '.')).tail
  let spelled ← Rfc3339.digits? (whole ++ fraction)
  let power ← Rfc3339.digits? (scale.filter fun c ↦ c ≠ '+' ∧ c ≠ '-')
  let exponent : ℤ := if scale.head? == some '-' then -(power.toNat : ℤ) else power.toNat
  let value := (spelled.toNat : ℚ) * 10 ^ (exponent - fraction.length)
  some (if negative then -value else value)

def isConfidence (n : JsNumber) : Bool := (numberValue n).any fun value ↦ 0 ≤ value ∧ value ≤ 1

inductive PartyRef
  | localUser | otherParty
  deriving DecidableEq

inductive OwedToRef
  | localUser | otherParty | none
  deriving DecidableEq

/-- One result as a model spells it. It can refer to a party and name one, and has no key. -/
structure RawExtraction where
  envelopeId : Checked isNonempty
  intent : Checked isIntent
  owner : PartyRef
  ownerLabel : Option (Checked isExternalLabel)
  owedTo : OwedToRef
  owedToLabel : Option (Checked isExternalLabel)
  due : Option Text
  confidence : { n : JsNumber // isConfidence n = true }
  quote : Checked isQuote
  ownerNamed : owner = .otherParty ↔ ownerLabel.isSome = true
  owedToNamed : owedTo = .otherParty ↔ owedToLabel.isSome = true

def PartyRef.parse : Json → Option PartyRef
  | .str s => if s = text "local_user" then some .localUser
    else if s = text "other_party" then some .otherParty else Option.none
  | _ => Option.none

def OwedToRef.parse : Json → Option OwedToRef
  | .str s => if s = text "local_user" then some .localUser
    else if s = text "other_party" then some .otherParty
    else if s = text "none" then some .none else Option.none
  | _ => Option.none

def parseNullable {α : Type} (parse : Json → Option α) : Json → Option (Option α)
  | .null => some none
  | v => (parse v).map some

def parseString : Json → Option Text
  | .str s => some s
  | _ => none

def parseConfidence : Json → Option { n : JsNumber // isConfidence n = true }
  | .num n => if h : isConfidence n = true then some ⟨n, h⟩ else none
  | _ => none

/-- An object with no member outside a list. -/
def isStrict (keys : List Text) : Json → Bool
  | .obj members => (Members.keys members).all (keys.contains ·)
  | _ => false

def rawKeys : List Text :=
  [text "envelope_id", text "intent", text "owner", text "owner_label", text "owed_to",
    text "owed_to_label", text "due", text "confidence", text "quote"]

def RawExtraction.parse (v : Json) : Option RawExtraction := do
  guard (isStrict rawKeys v)
  let envelopeId ← (v.member (text "envelope_id")).bind (Checked.parse isNonempty)
  let intent ← (v.member (text "intent")).bind (Checked.parse isIntent)
  let owner ← (v.member (text "owner")).bind PartyRef.parse
  let ownerLabel ← (v.member (text "owner_label")).bind
    (parseNullable (Checked.parse isExternalLabel))
  let owedTo ← (v.member (text "owed_to")).bind OwedToRef.parse
  let owedToLabel ← (v.member (text "owed_to_label")).bind
    (parseNullable (Checked.parse isExternalLabel))
  let due ← (v.member (text "due")).bind (parseNullable parseString)
  let confidence ← (v.member (text "confidence")).bind parseConfidence
  let quote ← (v.member (text "quote")).bind (Checked.parse isQuote)
  if h : (owner = .otherParty ↔ ownerLabel.isSome = true) ∧
      (owedTo = .otherParty ↔ owedToLabel.isSome = true) then
    some { envelopeId, intent, owner, ownerLabel, owedTo, owedToLabel, due, confidence, quote,
           ownerNamed := h.1, owedToNamed := h.2 }
  else none

inductive ResponseRejection
  | notJson | schemaInvalid
  deriving DecidableEq

def parseResults : Option Json → Option (List RawExtraction)
  | some (.arr items) => items.mapM RawExtraction.parse
  | _ => none

/-- The schema `ExtractionResponse`. -/
def parseResponse (v : Json) : Option (List RawExtraction) := do
  guard (isStrict [text "results"] v)
  parseResults (v.member (text "results"))

def parseExtractionResponse (jsonParse : Text → Option Json) (response : Text) :
    Except ResponseRejection (List RawExtraction) :=
  match jsonParse response with
  | none => .error .notJson
  | some json =>
    match parseResponse json with
    | none => .error .schemaInvalid
    | some results => .ok results

inductive EvidenceKind
  | envelope | url | commit | file
  deriving DecidableEq

structure EvidenceRef where
  kind : EvidenceKind
  value : Text
  deriving DecidableEq

inductive CommitmentSource
  | extracted | explicit | archaeology | convertedExpectation
  deriving DecidableEq

structure Commitment where
  intent : Checked isIntent
  owner : Checked isHex64
  owedTo : Option (Checked isKeyOrExternalLabel)
  due : Option (Checked isRfc3339)
  conditions : List (Checked isHex64)
  evidenceRefs : List EvidenceRef
  createdAt : Checked isRfc3339
  source : CommitmentSource
  confidence : { n : JsNumber // isConfidence n = true }

abbrev ExtractedCommitment := { c : Commitment // c.source = .extracted }

inductive ExpectationState
  | opened | closed
  deriving DecidableEq

structure Expectation where
  expect : Checked isNonempty
  /-- The member `from`. -/
  promiser : Checked isKeyOrExternalLabel
  since : Checked isRfc3339
  contextRefs : List EvidenceRef
  state : ExpectationState

/-- What routing makes of a result, one case for each disposition. -/
inductive Routed
  | reflexive (commitment : ExtractedCommitment)
  | proposableAfterConfirmation (commitment : ExtractedCommitment) (counterparty : Text)
  | vaultLocalCounterpartyUnresolved (commitment : ExtractedCommitment) (counterpartyLabel : Text)
  | expectationOnly (expectation : Expectation) (promiser : Text)

namespace Routed

def commitment : Routed → Option ExtractedCommitment
  | .reflexive c | .proposableAfterConfirmation c _ | .vaultLocalCounterpartyUnresolved c _ => some c
  | .expectationOnly _ _ => none

def expectation : Routed → Option Expectation
  | .expectationOnly e _ => some e
  | _ => none

def isProposable : Routed → Bool
  | .proposableAfterConfirmation _ _ => true
  | _ => false

end Routed

inductive RoutingFailure
  | commitmentInvalid | expectationInvalid
  deriving DecidableEq

structure RoutingContext where
  persona : Text
  createdAt : Text
  resolveParty : Text → Option Text

def evidenceFor (result : RawExtraction) : List EvidenceRef := [⟨.envelope, result.envelopeId.val⟩]

/-- A nullable string under a schema. -/
def checkNullable (schema : Text → Bool) : Option Text → Option (Option (Checked schema))
  | none => some none
  | some s => (Checked.parse schema (.str s)).map some

def buildCommitment (result : RawExtraction) (ctx : RoutingContext) (owedTo : Option Text) :
    Except RoutingFailure ExtractedCommitment :=
  match Checked.parse isHex64 (.str ctx.persona), checkNullable isKeyOrExternalLabel owedTo,
      checkNullable isRfc3339 result.due, Checked.parse isRfc3339 (.str ctx.createdAt) with
  | some owner, some owedTo, some due, some createdAt =>
    .ok ⟨{  intent := result.intent
            owner := owner
            owedTo := owedTo
            due := due
            conditions := []
            evidenceRefs := evidenceFor result
            createdAt := createdAt
            source := .extracted
            confidence := result.confidence }, rfl⟩
  | _, _, _, _ => .error .commitmentInvalid

def buildExpectation (result : RawExtraction) (ctx : RoutingContext) (promiser : Text) :
    Except RoutingFailure Expectation :=
  match Checked.parse isNonempty (.str result.intent.val),
      Checked.parse isKeyOrExternalLabel (.str promiser),
      Checked.parse isRfc3339 (.str ctx.createdAt) with
  | some expect, some promiser, some since =>
    .ok
      { expect := expect
        promiser := promiser
        since := since
        contextRefs := evidenceFor result
        state := .opened }
  | _, _, _ => .error .expectationInvalid

def route (result : RawExtraction) (ctx : RoutingContext) : Except RoutingFailure Routed :=
  if howner : result.owner = .otherParty then
    let label := (result.ownerLabel.get (result.ownerNamed.mp howner)).val
    let resolved := ctx.resolveParty label
    if resolved = some ctx.persona then (buildCommitment result ctx none).map .reflexive
    else
      let promiser := resolved.getD label
      (buildExpectation result ctx promiser).map (.expectationOnly · promiser)
  else if howed : result.owedTo = .otherParty then
    let label := (result.owedToLabel.get (result.owedToNamed.mp howed)).val
    match ctx.resolveParty label with
    | none =>
      (buildCommitment result ctx (some label)).map (.vaultLocalCounterpartyUnresolved · label)
    | some counterparty =>
      if counterparty = ctx.persona then (buildCommitment result ctx none).map .reflexive
      else
        (buildCommitment result ctx (some counterparty)).map
          (.proposableAfterConfirmation · counterparty)
  else (buildCommitment result ctx none).map .reflexive

structure ExtractedItem where
  raw : RawExtraction
  routed : Routed
  envelope : Envelope

/-- A rejection, by its stage. The last is of a model that never answered. -/
inductive RunRejection
  | response (rejection : ResponseRejection)
  | attribution (detail : Text)
  | routing (failure : RoutingFailure)
  | transport

structure ExtractionRun where
  persona : Text
  envelopeIds : List Text
  items : List ExtractedItem
  rejection : Option RunRejection
  modelId : Text

structure PersonaMixingError where
  bound : Text
  found : Text
  envelopeId : Text

/-- An extractor is bound to one persona for its whole life. -/
structure Extractor where
  persona : Checked isHex64
  modelId : Text
  resolveParty : Text → Option Text

namespace Extractor

def assertSinglePersona (extractor : Extractor) (envelopes : List Envelope) :
    Option PersonaMixingError :=
  (envelopes.find? fun e ↦ e.content.persona.val ≠ extractor.persona.val).map fun e ↦
    ⟨extractor.persona.val, e.content.persona.val, e.id.val⟩

def attributionDetail (envelopeId : Text) : Text :=
  text "result cites envelope " ++ envelopeId ++ text ", which was not in the batch"

/-- The loop over the results of a response: all of them become items, or none. -/
def collect (envelopes : List Envelope) (ctx : RoutingContext) :
    List RawExtraction → Except RunRejection (List ExtractedItem)
  | [] => .ok []
  | raw :: rest =>
    -- of two envelopes under one id a map keeps the later
    match envelopes.reverse.find? fun e ↦ e.id.val = raw.envelopeId.val with
    | none => .error (.attribution (attributionDetail raw.envelopeId.val))
    | some envelope =>
      match route raw ctx with
      | .error failure => .error (.routing failure)
      | .ok routed => (collect envelopes ctx rest).map (⟨raw, routed, envelope⟩ :: ·)

/-- One batch, at an instant, with what the model answers to it. -/
def extract (jsonParse : Text → Option Json) (extractor : Extractor) (createdAt : Text)
    (envelopes : List Envelope) (response : Text) : Except PersonaMixingError ExtractionRun :=
  match extractor.assertSinglePersona envelopes with
  | some mixing => .error mixing
  | none =>
    let run (items : List ExtractedItem) (rejection : Option RunRejection) : ExtractionRun :=
      { persona := extractor.persona.val
        envelopeIds := envelopes.map (·.id.val)
        items := items
        rejection := rejection
        modelId := extractor.modelId }
    if envelopes.length = 0 then .ok (run [] none)
    else
      match parseExtractionResponse jsonParse response with
      | .error rejection => .ok (run [] (some (.response rejection)))
      | .ok results =>
        let ctx : RoutingContext := ⟨extractor.persona.val, createdAt, extractor.resolveParty⟩
        match collect envelopes ctx results with
        | .error rejection => .ok (run [] (some rejection))
        | .ok items => .ok (run items none)

end Extractor

/-- What extraction owes a batch: an item cites an envelope of it, names its own persona alone as
owner, and has no key that the resolver did not give for the label. -/
structure Honest (persona : Text) (resolveParty : Text → Option Text) (envelopes : List Envelope)
    (item : ExtractedItem) : Prop where
  cites : item.envelope ∈ envelopes ∧ item.envelope.id.val = item.raw.envelopeId.val
  owner : ∀ c, item.routed.commitment = some c → c.val.owner.val = persona ∧
    c.val.source = .extracted
  owedTo : ∀ c, item.routed.commitment = some c → ∀ party, c.val.owedTo = some party →
    isHex64 party.val = true →
      ∃ label, item.raw.owedToLabel = some label ∧ resolveParty label.val = some party.val
  promiser : ∀ e, item.routed.expectation = some e → (isHex64 e.promiser.val = true →
      ∃ label, item.raw.ownerLabel = some label ∧ resolveParty label.val = some e.promiser.val) ∧
    e.promiser.val ≠ persona
  proposable : ∀ c counterparty, item.routed = .proposableAfterConfirmation c counterparty →
    ∃ label, item.raw.owedToLabel = some label ∧ resolveParty label.val = some counterparty

/-- Everything is rejected and recorded so, or every item is honest. -/
def Trustworthy (extractor : Extractor) (envelopes : List Envelope) (run : ExtractionRun) : Prop :=
  (run.items = [] ∧ run.rejection.isSome = true) ∨
    ∀ item ∈ run.items, Honest extractor.persona.val extractor.resolveParty envelopes item

section Conditions

variable (ctx : RoutingContext) (raw : RawExtraction)

/-- The label that a result names its other party by. -/
def labelOf : Option Text :=
  if raw.owner = .otherParty then raw.ownerLabel.map (·.val) else raw.owedToLabel.map (·.val)

/-- Somebody else's promise, as far as the resolver can tell. -/
def IsForeign : Prop :=
  raw.owner = .otherParty ∧ ∀ label ∈ labelOf raw, ctx.resolveParty label ≠ some ctx.persona

/-- The party that a record of the result names, the persona itself apart. -/
def partyOf : Option Text :=
  (labelOf raw).bind fun label ↦
    match ctx.resolveParty label with
    | none => some label
    | some party => if party = ctx.persona then none else some party

/-- A result for which there is a record to build: it cites the batch, and its dates and its party
pass their schemas. -/
structure Admissible (envelopes : List Envelope) : Prop where
  cites : ∃ e ∈ envelopes, e.id.val = raw.envelopeId.val
  createdAt : isRfc3339 ctx.createdAt = true
  due : ¬IsForeign ctx raw → ∀ due ∈ raw.due, isRfc3339 due = true
  party : ∀ party ∈ partyOf ctx raw, isKeyOrExternalLabel party = true

/-- A label in the form of a key that the resolver has nothing for. -/
def Forged (resolveParty : Text → Option Text) : Prop :=
  ∃ label, labelOf raw = some label ∧ resolveParty label = none ∧ isHex64 label = true

end Conditions

section

variable {ctx : RoutingContext} {raw : RawExtraction} {envelopes : List Envelope} {routed : Routed}
  {owedTo : Option Text}

theorem checked_parse_iff {schema : Text → Bool} {s : Text} {t : Checked schema} :
    Checked.parse schema (.str s) = some t ↔ t.val = s := by
  constructor
  · intro h
    dsimp only [Checked.parse] at h
    split_ifs at h
    cases h
    rfl
  · rintro rfl
    exact Checked.parse_str t

theorem checked_parse_isSome {schema : Text → Bool} {s : Text} :
    (Checked.parse schema (.str s)).isSome = true ↔ schema s = true := by
  by_cases h : schema s = true <;> simp [Checked.parse, h]

theorem checkNullable_iff {schema : Text → Bool} {s : Option Text} {t : Option (Checked schema)} :
    checkNullable schema s = some t ↔ t.map (·.val) = s := by
  cases s with
  | none => cases t <;> simp [checkNullable]
  | some s =>
    cases t with
    | none => simp [checkNullable]
    | some t => simp [checkNullable, checked_parse_iff]

theorem checkNullable_isSome {schema : Text → Bool} {s : Option Text} :
    (checkNullable schema s).isSome = true ↔ ∀ t ∈ s, schema t = true := by
  cases s with
  | none => simp [checkNullable]
  | some s => simp [checkNullable, checked_parse_isSome]

theorem buildCommitment_ok {c : ExtractedCommitment} (h : buildCommitment raw ctx owedTo = .ok c) :
    c.val.owner.val = ctx.persona ∧ c.val.owedTo.map (·.val) = owedTo := by
  unfold buildCommitment at h
  split at h
  next hpersona howedTo _ _ =>
    cases h
    exact ⟨checked_parse_iff.mp hpersona, checkNullable_iff.mp howedTo⟩
  · cases h

theorem buildCommitment_isOk_iff (hpersona : isHex64 ctx.persona = true) :
    (∃ c, buildCommitment raw ctx owedTo = .ok c) ↔
      (∀ party ∈ owedTo, isKeyOrExternalLabel party = true) ∧
        (∀ due ∈ raw.due, isRfc3339 due = true) ∧ isRfc3339 ctx.createdAt = true := by
  rw [← checkNullable_isSome, ← checkNullable_isSome, ← checked_parse_isSome]
  have howner := checked_parse_isSome.mpr hpersona
  unfold buildCommitment
  cases howner' : Checked.parse isHex64 (.str ctx.persona) with
  | none => simp [howner'] at howner
  | some owner =>
    cases checkNullable isKeyOrExternalLabel owedTo <;> cases checkNullable isRfc3339 raw.due <;>
      cases Checked.parse isRfc3339 (.str ctx.createdAt) <;> simp

theorem buildExpectation_ok {e : Expectation} {promiser : Text}
    (h : buildExpectation raw ctx promiser = .ok e) : e.promiser.val = promiser := by
  unfold buildExpectation at h
  split at h
  next hpromiser _ =>
    cases h
    exact checked_parse_iff.mp hpromiser
  · cases h

theorem buildExpectation_isOk_iff {promiser : Text} :
    (∃ e, buildExpectation raw ctx promiser = .ok e) ↔
      isKeyOrExternalLabel promiser = true ∧ isRfc3339 ctx.createdAt = true := by
  have hintent : isNonempty raw.intent.val = true := by
    obtain ⟨intent, h⟩ := raw.intent
    cases intent with
    | nil => cases h
    | cons u rest => rfl
  rw [← checked_parse_isSome, ← checked_parse_isSome]
  have hexpect := checked_parse_isSome.mpr hintent
  unfold buildExpectation
  cases hexpect' : Checked.parse isNonempty (.str raw.intent.val) with
  | none => simp [hexpect'] at hexpect
  | some expect =>
    cases Checked.parse isKeyOrExternalLabel (.str promiser) <;>
      cases Checked.parse isRfc3339 (.str ctx.createdAt) <;> simp

/-- What a result comes to: which record is built of it, and for which party. -/
inductive Route (raw : RawExtraction) (ctx : RoutingContext) : Except RoutingFailure Routed → Prop
  | own (hlocal : ¬IsForeign ctx raw) (hparty : partyOf ctx raw = none) :
      Route raw ctx ((buildCommitment raw ctx none).map .reflexive)
  | foreign (label : Checked isExternalLabel) (hforeign : IsForeign ctx raw)
      (hlabel : raw.ownerLabel = some label) :
      Route raw ctx ((buildExpectation raw ctx ((ctx.resolveParty label.val).getD label.val)).map
        (.expectationOnly · ((ctx.resolveParty label.val).getD label.val)))
  | unresolved (label : Checked isExternalLabel) (howner : raw.owner ≠ .otherParty)
      (hlabel : raw.owedToLabel = some label) (hnone : ctx.resolveParty label.val = none) :
      Route raw ctx ((buildCommitment raw ctx (some label.val)).map
        (.vaultLocalCounterpartyUnresolved · label.val))
  | resolved (label : Checked isExternalLabel) (party : Text) (howner : raw.owner ≠ .otherParty)
      (hlabel : raw.owedToLabel = some label) (hparty : ctx.resolveParty label.val = some party)
      (hother : party ≠ ctx.persona) :
      Route raw ctx ((buildCommitment raw ctx (some party)).map
        (.proposableAfterConfirmation · party))

theorem map_eq_ok {ε α β : Type} {f : α → β} {x : Except ε α} {b : β} :
    x.map f = .ok b ↔ ∃ a, x = .ok a ∧ f a = b := by
  cases x <;> simp [Except.map]

theorem labelOf_owner {label : Checked isExternalLabel} (howner : raw.owner = .otherParty)
    (hlabel : raw.ownerLabel = some label) : labelOf raw = some label.val := by
  rw [labelOf, if_pos howner, hlabel, Option.map_some]

theorem labelOf_owedTo {label : Checked isExternalLabel} (howner : raw.owner ≠ .otherParty)
    (hlabel : raw.owedToLabel = some label) : labelOf raw = some label.val := by
  rw [labelOf, if_neg howner, hlabel, Option.map_some]

theorem isForeign_iff {label : Checked isExternalLabel} (hlabel : raw.ownerLabel = some label) :
    IsForeign ctx raw ↔ ctx.resolveParty label.val ≠ some ctx.persona := by
  have howner : raw.owner = .otherParty := raw.ownerNamed.mpr (by rw [hlabel, Option.isSome_some])
  simp [IsForeign, howner, labelOf_owner howner hlabel]

theorem route_spec : Route raw ctx (route raw ctx) := by
  unfold route
  split_ifs with howner howed
  · obtain ⟨label, hlabel⟩ := Option.isSome_iff_exists.mp (raw.ownerNamed.mp howner)
    have hget : (raw.ownerLabel.get (raw.ownerNamed.mp howner)).val = label.val := by
      simp only [hlabel, Option.get_some]
    simp only [hget]
    split_ifs with hself
    · refine .own (fun hforeign ↦ (isForeign_iff hlabel).mp hforeign hself) ?_
      simp [partyOf, labelOf_owner howner hlabel, hself]
    · exact .foreign label ((isForeign_iff hlabel).mpr hself) hlabel
  · obtain ⟨label, hlabel⟩ := Option.isSome_iff_exists.mp (raw.owedToNamed.mp howed)
    have hget : (raw.owedToLabel.get (raw.owedToNamed.mp howed)).val = label.val := by
      simp only [hlabel, Option.get_some]
    simp only [hget]
    split
    next hnone => exact .unresolved label howner hlabel hnone
    next party hparty =>
      split_ifs with hself
      · refine .own (fun hforeign ↦ howner hforeign.1) ?_
        simp [partyOf, labelOf_owedTo howner hlabel, hparty, hself]
      · exact .resolved label party howner hlabel hparty hself
  · refine .own (fun hforeign ↦ howner hforeign.1) ?_
    have hlabel : raw.owedToLabel = none := by
      simpa using mt raw.owedToNamed.mpr howed
    simp [partyOf, labelOf, howner, hlabel]

theorem map_isOk_iff {ε α β : Type} {f : α → β} {x : Except ε α} :
    (∃ b, x.map f = .ok b) ↔ ∃ a, x = .ok a := by
  cases x <;> simp [Except.map]

theorem partyOf_foreign {label : Checked isExternalLabel} (hforeign : IsForeign ctx raw)
    (hlabel : raw.ownerLabel = some label) :
    partyOf ctx raw = some ((ctx.resolveParty label.val).getD label.val) := by
  have hother := (isForeign_iff hlabel).mp hforeign
  rw [partyOf, labelOf_owner hforeign.1 hlabel]
  cases hresolved : ctx.resolveParty label.val with
  | none => simp [hresolved]
  | some party =>
    have : party ≠ ctx.persona := by rintro rfl; exact hother hresolved
    simp [hresolved, this]

/-- A route is refused for its dates or its party, never for what else a result says. -/
theorem route_isOk_iff (hpersona : isHex64 ctx.persona = true) :
    (∃ routed, route raw ctx = .ok routed) ↔
      (∀ party ∈ partyOf ctx raw, isKeyOrExternalLabel party = true) ∧
        (¬IsForeign ctx raw → ∀ due ∈ raw.due, isRfc3339 due = true) ∧
          isRfc3339 ctx.createdAt = true := by
  have hroute := @route_spec ctx raw
  generalize route raw ctx = outcome at hroute
  cases hroute with
  | own hlocal hparty =>
    rw [map_isOk_iff, buildCommitment_isOk_iff hpersona]
    simp [hlocal, hparty]
  | foreign label hforeign hlabel =>
    rw [map_isOk_iff, buildExpectation_isOk_iff, partyOf_foreign hforeign hlabel]
    simp [hforeign]
  | unresolved label howner hlabel hnone =>
    have hlocal : ¬IsForeign ctx raw := fun hforeign ↦ howner hforeign.1
    rw [map_isOk_iff, buildCommitment_isOk_iff hpersona]
    simp [partyOf, labelOf_owedTo howner hlabel, hnone, hlocal]
  | resolved label party howner hlabel hparty hother =>
    have hlocal : ¬IsForeign ctx raw := fun hforeign ↦ howner hforeign.1
    rw [map_isOk_iff, buildCommitment_isOk_iff hpersona]
    simp [partyOf, labelOf_owedTo howner hlabel, hparty, hother, hlocal]

theorem honest_of_routed {envelope : Envelope} (hpersona : isHex64 ctx.persona = true)
    (hcites : envelope ∈ envelopes ∧ envelope.id.val = raw.envelopeId.val)
    (h : route raw ctx = .ok routed) (hplain : ¬Forged raw ctx.resolveParty) :
    Honest ctx.persona ctx.resolveParty envelopes ⟨raw, routed, envelope⟩ := by
  have hroute := @route_spec ctx raw
  rw [h] at hroute
  generalize houtcome : (Except.ok routed : Except RoutingFailure Routed) = outcome at hroute
  cases hroute with
  | own hlocal hparty =>
    obtain ⟨c, hc, rfl⟩ := map_eq_ok.mp houtcome.symm
    have hbuilt := buildCommitment_ok hc
    refine ⟨hcites, ?_, ?_, ?_, ?_⟩
    · rintro _ ⟨⟩
      exact ⟨hbuilt.1, c.property⟩
    · rintro _ ⟨⟩ party hparty
      simp [hparty] at hbuilt
    · rintro _ ⟨⟩
    · rintro _ _ ⟨⟩
  | foreign label hforeign hlabel =>
    obtain ⟨e, he, rfl⟩ := map_eq_ok.mp houtcome.symm
    have hpromiser := buildExpectation_ok he
    have hother := (isForeign_iff hlabel).mp hforeign
    refine ⟨hcites, ?_, ?_, ?_, ?_⟩
    · rintro _ ⟨⟩
    · rintro _ ⟨⟩
    · rintro _ ⟨⟩
      cases hresolved : ctx.resolveParty label.val with
      | none =>
        simp only [hresolved, Option.getD_none] at hpromiser
        have hlabelOnly : ¬isHex64 label.val = true := fun hhex ↦
          hplain ⟨label.val, labelOf_owner hforeign.1 hlabel, hresolved, hhex⟩
        rw [hpromiser]
        refine ⟨fun hhex ↦ absurd hhex hlabelOnly, ?_⟩
        intro hself
        exact hlabelOnly (hself ▸ hpersona)
      | some party =>
        simp only [hresolved, Option.getD_some] at hpromiser
        rw [hpromiser]
        refine ⟨fun _ ↦ ⟨label, hlabel, hresolved⟩, ?_⟩
        rintro rfl
        exact hother hresolved
    · rintro _ _ ⟨⟩
  | unresolved label howner hlabel hnone =>
    obtain ⟨c, hc, rfl⟩ := map_eq_ok.mp houtcome.symm
    have hbuilt := buildCommitment_ok hc
    refine ⟨hcites, ?_, ?_, ?_, ?_⟩
    · rintro _ ⟨⟩
      exact ⟨hbuilt.1, c.property⟩
    · rintro _ ⟨⟩ party hparty hhex
      have hval : party.val = label.val := by simpa [hparty] using hbuilt.2
      exact absurd ⟨label.val, labelOf_owedTo howner hlabel, hnone, hval ▸ hhex⟩ hplain
    · rintro _ ⟨⟩
    · rintro _ _ ⟨⟩
  | resolved label party howner hlabel hparty hother =>
    obtain ⟨c, hc, rfl⟩ := map_eq_ok.mp houtcome.symm
    have hbuilt := buildCommitment_ok hc
    refine ⟨hcites, ?_, ?_, ?_, ?_⟩
    · rintro _ ⟨⟩
      exact ⟨hbuilt.1, c.property⟩
    · rintro _ ⟨⟩ named hnamed _
      have hval : named.val = party := by simpa [hnamed] using hbuilt.2
      exact ⟨label, hlabel, hval ▸ hparty⟩
    · rintro _ ⟨⟩
    · rintro _ _ ⟨⟩
      exact ⟨label, hlabel, hparty⟩

/-- A label that only looks like a key is written down as one. -/
theorem not_honest_of_forged {envelope : Envelope} (h : route raw ctx = .ok routed)
    (hforged : Forged raw ctx.resolveParty) :
    ¬Honest ctx.persona ctx.resolveParty envelopes ⟨raw, routed, envelope⟩ := by
  obtain ⟨forged, hforged, hunresolved, hhex⟩ := hforged
  intro hhonest
  have hroute := @route_spec ctx raw
  rw [h] at hroute
  generalize houtcome : (Except.ok routed : Except RoutingFailure Routed) = outcome at hroute
  cases hroute with
  | own hlocal hparty => simp [partyOf, hforged, hunresolved] at hparty
  | foreign label hforeign hlabel =>
    cases (labelOf_owner hforeign.1 hlabel).symm.trans hforged
    obtain ⟨e, he, rfl⟩ := map_eq_ok.mp houtcome.symm
    have hpromiser := buildExpectation_ok he
    rw [hunresolved, Option.getD_none] at hpromiser
    obtain ⟨label', hlabel', hresolved⟩ := (hhonest.promiser e rfl).1 (hpromiser ▸ hhex)
    cases hlabel.symm.trans hlabel'
    simp [hunresolved] at hresolved
  | unresolved label howner hlabel hnone =>
    cases (labelOf_owedTo howner hlabel).symm.trans hforged
    obtain ⟨c, hc, rfl⟩ := map_eq_ok.mp houtcome.symm
    obtain ⟨party, hparty, hval⟩ := Option.map_eq_some_iff.mp (buildCommitment_ok hc).2
    obtain ⟨label', hlabel', hresolved⟩ := hhonest.owedTo c rfl party hparty (hval ▸ hhex)
    cases hlabel.symm.trans hlabel'
    simp [hunresolved] at hresolved
  | resolved label party howner hlabel hparty hother =>
    cases (labelOf_owedTo howner hlabel).symm.trans hforged
    simp [hunresolved] at hparty

namespace Extractor

theorem cited_iff :
    (∃ envelope, (envelopes.reverse.find? fun e ↦ e.id.val = raw.envelopeId.val) = some envelope) ↔
      ∃ e ∈ envelopes, e.id.val = raw.envelopeId.val := by
  rw [← Option.isSome_iff_exists, List.find?_isSome]
  simp

/-- Every result has become the item next to it. -/
theorem collect_ok {results : List RawExtraction} {items : List ExtractedItem}
    (h : collect envelopes ctx results = .ok items) :
    List.Forall₂ (fun raw item ↦ item.raw = raw ∧ route raw ctx = .ok item.routed ∧
      item.envelope ∈ envelopes ∧ item.envelope.id.val = raw.envelopeId.val) results items := by
  induction results generalizing items with
  | nil =>
    cases h
    exact .nil
  | cons raw rest ih =>
    rw [collect] at h
    split at h
    · cases h
    next envelope hfound =>
      split at h
      · cases h
      next routed hrouted =>
        obtain ⟨restItems, hrest, rfl⟩ := map_eq_ok.mp h
        have hcited := List.mem_of_find?_eq_some hfound
        have hid := List.find?_some hfound
        exact .cons ⟨rfl, hrouted, List.mem_reverse.mp hcited, of_decide_eq_true hid⟩ (ih hrest)

theorem collect_isOk_iff (hpersona : isHex64 ctx.persona = true) {results : List RawExtraction} :
    (∃ items, collect envelopes ctx results = .ok items) ↔
      ∀ raw ∈ results, Admissible ctx raw envelopes := by
  induction results with
  | nil => simp [collect]
  | cons raw rest ih =>
    have hroute := @route_isOk_iff ctx raw hpersona
    have hadmissible : Admissible ctx raw envelopes ↔
        (∃ envelope, (envelopes.reverse.find? fun e ↦ e.id.val = raw.envelopeId.val)
          = some envelope) ∧ ∃ routed, route raw ctx = .ok routed := by
      rw [cited_iff, hroute]
      exact ⟨fun h ↦ ⟨h.cites, h.party, h.due, h.createdAt⟩,
        fun h ↦ ⟨h.1, h.2.2.2, h.2.2.1, h.2.1⟩⟩
    rw [List.forall_mem_cons, ← ih, hadmissible, collect]
    cases envelopes.reverse.find? fun e ↦ e.id.val = raw.envelopeId.val with
    | none => simp
    | some envelope =>
      cases route raw ctx with
      | error failure => simp
      | ok routed => simp [map_isOk_iff]

theorem honest_iff_of_forall₂ (hpersona : isHex64 ctx.persona = true)
    {results : List RawExtraction} {items : List ExtractedItem}
    (h : List.Forall₂ (fun raw item ↦ item.raw = raw ∧ route raw ctx = .ok item.routed ∧
      item.envelope ∈ envelopes ∧ item.envelope.id.val = raw.envelopeId.val) results items) :
    (∀ item ∈ items, Honest ctx.persona ctx.resolveParty envelopes item) ↔
      ∀ raw ∈ results, ¬Forged raw ctx.resolveParty := by
  induction h with
  | nil => simp
  | @cons raw item _ _ hpair _ ih =>
    rw [List.forall_mem_cons, List.forall_mem_cons, ih]
    refine and_congr_left' ?_
    obtain ⟨_, routed, envelope⟩ := item
    obtain ⟨rfl, hrouted, hcites⟩ := hpair
    exact ⟨fun hhonest hforged ↦ not_honest_of_forged hrouted hforged hhonest,
      honest_of_routed hpersona hcites hrouted⟩

/-- What a run is of, once its batch is of one persona. -/
theorem extract_cases {jsonParse : Text → Option Json} {extractor : Extractor} {createdAt : Text}
    {response : Text} {run : ExtractionRun}
    (h : extractor.extract jsonParse createdAt envelopes response = .ok run) :
    (run.items = [] ∧ run.rejection = none ∧ envelopes = []) ∨
      (run.items = [] ∧ run.rejection.isSome = true ∧
        ∀ results, parseExtractionResponse jsonParse response = .ok results →
          ¬∃ items, collect envelopes ⟨extractor.persona.val, createdAt, extractor.resolveParty⟩
            results = .ok items) ∨
      ∃ results, parseExtractionResponse jsonParse response = .ok results ∧ run.rejection = none ∧
        collect envelopes ⟨extractor.persona.val, createdAt, extractor.resolveParty⟩ results
          = .ok run.items := by
  unfold extract at h
  split at h
  · cases h
  dsimp only at h
  split_ifs at h with hempty
  · cases h
    exact .inl ⟨rfl, rfl, List.eq_nil_of_length_eq_zero hempty⟩
  · refine .inr ?_
    split at h
    next rejection hparsed =>
      cases h
      refine .inl ⟨rfl, rfl, fun results hresults ↦ ?_⟩
      cases hparsed.symm.trans hresults
    next results hparsed =>
      split at h
      next rejection hcollect =>
        cases h
        refine .inl ⟨rfl, rfl, fun results' hresults ↦ ?_⟩
        cases hparsed.symm.trans hresults
        rintro ⟨items, hitems⟩
        cases hcollect.symm.trans hitems
      next items hcollect =>
        cases h
        exact .inr ⟨results, hparsed, rfl, hcollect⟩

end Extractor

end

/-- A run keeps its promise if and only if its response is refused, or no label of it that the
resolver has nothing for is in the form of a key. -/
theorem fooled_model_names_no_key_iff {jsonParse : Text → Option Json} {extractor : Extractor}
    {createdAt : Text} {envelopes : List Envelope} {response : Text} {run : ExtractionRun}
    (h : extractor.extract jsonParse createdAt envelopes response = .ok run) :
    Trustworthy extractor envelopes run ↔
      ∀ results, parseExtractionResponse jsonParse response = .ok results →
        (∃ raw ∈ results, ¬Admissible ⟨extractor.persona.val, createdAt, extractor.resolveParty⟩ raw
          envelopes) ∨ ∀ raw ∈ results, ¬Forged raw extractor.resolveParty := by
  have hpersona := extractor.persona.property
  obtain ⟨hitems, hnone, rfl⟩ | ⟨hitems, hsome, hrefused⟩ | ⟨results, hparsed, hnone, hcollect⟩ :=
    Extractor.extract_cases h
  · refine iff_of_true (.inr (by simp [hitems])) fun results _ ↦ ?_
    cases results with
    | nil => exact .inr (by simp)
    | cons raw rest =>
      refine .inl ⟨raw, List.mem_cons_self, fun hadmissible ↦ ?_⟩
      obtain ⟨e, he, _⟩ := hadmissible.cites
      cases he
  · refine iff_of_true (.inl ⟨hitems, hsome⟩) fun results hparsed ↦ .inl ?_
    have hcollect := hrefused results hparsed
    rw [Extractor.collect_isOk_iff hpersona] at hcollect
    simpa using hcollect
  · have hadmissible := (Extractor.collect_isOk_iff hpersona).mp ⟨_, hcollect⟩
    have hhonest : (∀ item ∈ run.items, Honest extractor.persona.val extractor.resolveParty
        envelopes item) ↔ ∀ raw ∈ results, ¬Forged raw extractor.resolveParty :=
      Extractor.honest_iff_of_forall₂ hpersona (Extractor.collect_ok hcollect)
    have htrust : Trustworthy extractor envelopes run ↔ ∀ item ∈ run.items,
        Honest extractor.persona.val extractor.resolveParty envelopes item := by
      simp [Trustworthy, hnone]
    rw [htrust, hhonest]
    constructor
    · intro hplain results' hresults
      cases hparsed.symm.trans hresults
      exact .inr hplain
    · intro hcondition
      obtain ⟨raw, hraw, hnot⟩ | hplain := hcondition results hparsed
      · exact absurd (hadmissible raw hraw) hnot
      · exact hplain

namespace Sample

def chat : Envelope := ⟨hexId 0, Servanda.Sample.observed []⟩

/-- The local user promises something to the party of a label. -/
def promised (label : Text) : Json :=
  .obj [(text "results", .arr [.obj
    [(text "envelope_id", .str chat.id.val), (text "intent", .str (text "send the draft")),
      (text "owner", .str (text "local_user")), (text "owner_label", .null),
      (text "owed_to", .str (text "other_party")), (text "owed_to_label", .str label),
      (text "due", .null), (text "confidence", .num (JsNumber.ofNat 1)),
      (text "quote", .str (text "I will send the draft"))]])]

def response (label : Text) : Text := Unicode.units ((canonicalize (promised label)).getD [])

/-- What `JSON.parse` answers on the response. No other text here is JSON. -/
def parsePromised (label : Text) (t : Text) : Option Json :=
  if t = response label then some (promised label) else none

/-- Nobody but the local user is known here. -/
def alone : Extractor := ⟨chat.content.persona, text "model", fun _ ↦ none⟩

def createdAt : Text := text "2026-03-01T10:00:00Z"

/-- A name, and a label in the form of a key. -/
def bob : Text := text "bob"

def keyLike : Text := (hexId 5).val

def extracted (label : Text) : Except PersonaMixingError ExtractionRun :=
  alone.extract (parsePromised label) createdAt [chat] (response label)

/-- The `owed_to` of every item. -/
def parties (run : ExtractionRun) : List (Option (Option Text)) :=
  run.items.map fun item ↦ item.routed.commitment.map fun c ↦ c.val.owedTo.map (·.val)

end Sample

section

open Servanda.Extraction.Sample

theorem exists_ok_of_toOption_map {ε α β : Type} {f : α → β} {x : Except ε α} {b : β}
    (h : x.toOption.map f = some b) : ∃ a, x = .ok a ∧ f a = b := by
  cases x with
  | error _ => cases h
  | ok a => exact ⟨a, rfl, Option.some.inj h⟩

theorem named_party_trusted : ∃ run, extracted bob = .ok run ∧ Trustworthy alone [chat] run := by
  have hparties : (extracted bob).toOption.map parties = some [some (some bob)] := by
    decide +kernel
  obtain ⟨run, hrun, -⟩ := exists_ok_of_toOption_map hparties
  refine ⟨run, hrun, (fooled_model_names_no_key_iff hrun).mpr fun results hparsed ↦ .inr ?_⟩
  have hlabels : (parseExtractionResponse (parsePromised bob) (response bob)).toOption.map
      (fun results ↦ results.map labelOf) = some [some bob] := by
    decide +kernel
  rw [hparsed] at hlabels
  rintro raw hraw ⟨label, hlabel, -, hhex⟩
  have hmem : some label ∈ [some bob] := by
    rw [← Option.some.inj hlabels, ← hlabel]
    exact List.mem_map_of_mem hraw
  cases List.mem_singleton.mp hmem
  revert hhex
  decide

/-- The resolver has nothing for the label, and the commitment is owed to a key. -/
theorem label_becomes_key : ∃ run, extracted keyLike = .ok run ∧
    ¬Trustworthy alone [chat] run := by
  have hparties : (extracted keyLike).toOption.map parties = some [some (some keyLike)] := by
    decide +kernel
  obtain ⟨run, hrun, hitems⟩ := exists_ok_of_toOption_map hparties
  obtain ⟨item, hitem, hnamed⟩ : ∃ item ∈ run.items,
      item.routed.commitment.map (fun c ↦ c.val.owedTo.map (·.val)) = some (some keyLike) := by
    have hmem : some (some keyLike) ∈ parties run := by simp [hitems]
    exact List.mem_map.mp hmem
  refine ⟨run, hrun, ?_⟩
  rintro (⟨hnil, -⟩ | hhonest)
  · rw [hnil] at hitem
    cases hitem
  · obtain ⟨c, hc, howed⟩ := Option.map_eq_some_iff.mp hnamed
    obtain ⟨party, hparty, hval⟩ := Option.map_eq_some_iff.mp howed
    have hhex : isHex64 party.val = true := by rw [hval]; decide
    obtain ⟨_, _, hresolved⟩ := (hhonest item hitem).owedTo c hc party hparty hhex
    cases hresolved

end

end Servanda.Extraction
