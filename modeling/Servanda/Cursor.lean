import Servanda.Base64
import Servanda.Extraction
import Servanda.Instant
import Servanda.Jcs
import Servanda.Paging
import Servanda.Tools

/-!
A cursor as a client sends it: a text nobody signed. What `open_loops` makes of any such text, the
dates it may name included that no node ever wrote.
-/

namespace Servanda.Cursor

open Unicode Calendar JsonRpc

/-- A time value. -/
abbrev TimeValue := { t : ℤ // |t| ≤ maxTime }

theorem TimeValue.bounded (t : TimeValue) : |t.val| ≤ maxTime := t.property

/-- A `Date`, or `none` where it is invalid and its time value is `NaN`. -/
abbrev JsDate := Option TimeValue

def JsDate.getTime (date : JsDate) : Option ℤ := date.map Subtype.val

/-- What the runtime does with the text of a cursor: `Buffer.from(raw, 'base64url')` read as UTF-8,
the numerals of `JSON.parse`, and `Date.parse`. -/
structure Engine where
  decodeBase64url : Text → Text
  numerals : JsonParse.Numerals
  dateParse : Text → JsDate

/-- A cursor that the schema accepts. Its score may be infinite. -/
structure PageCursor where
  view : OpenLoopsView
  persona : Checked isNonempty
  asOf : Checked isNonempty
  score : WithBot (WithTop ℚ)
  id : Checked isNonempty
  above : ℕ

namespace PageCursor

def shape : List Text :=
  [text "v", text "view", text "persona", text "as_of", text "score", text "id", text "above"]

def nonempty (v : Value) : Option (Checked isNonempty) :=
  (ToolInput.string v).bind fun s ↦ if h : isNonempty s = true then some ⟨s, h⟩ else none

def number : Value → Option (WithBot (WithTop ℚ))
  | .num n => (Extraction.numberValue n).map fun q ↦ ((q : WithTop ℚ) : WithBot (WithTop ℚ))
  | .infinity negative => some (if negative then ⊥ else (⊤ : WithTop ℚ))
  | _ => none

/-- `z.number().int().nonnegative()`. -/
def count : Value → Option ℕ
  | .num n => (Extraction.numberValue n).bind fun q ↦
    if q.den = 1 ∧ 0 ≤ q.num then some q.num.toNat else none
  | _ => none

def isStrict : Value → Bool
  | .obj members => members.all fun m ↦ shape.contains m.1
  | _ => false

def parse (v : Value) : Option PageCursor := do
  guard (isStrict v)
  let version ← ToolInput.required ToolInput.string v (text "v")
  guard (version = protocolVersion)
  let view ← ToolInput.required (ToolInput.word ToolInput.views) v (text "view")
  let persona ← ToolInput.required nonempty v (text "persona")
  let asOf ← ToolInput.required nonempty v (text "as_of")
  let score ← ToolInput.required number v (text "score")
  let id ← ToolInput.required nonempty v (text "id")
  let above ← ToolInput.required count v (text "above")
  some ⟨view, persona, asOf, score, id, above⟩

end PageCursor

variable (engine : Engine)

/-- `none` where the source throws `CursorError`. -/
def decodeCursor (raw : Text) : Option PageCursor :=
  (JsonParse.parse engine.numerals (engine.decodeBase64url raw)).bind PageCursor.parse

/-- `new Date(Date.parse(cursor.as_of))`. -/
def PageCursor.date (cursor : PageCursor) : JsDate := engine.dateParse cursor.asOf.val

/-- Against an invalid date the comparison is false. -/
def cursorExpired (cursor : PageCursor) (now : Rfc3339) : Bool :=
  ((cursor.date engine).getTime.bind (addDuration · cursorTtl)).any fun finish ↦
    decide (finish < Date.parse now)

def idText (id : Sha256Hex) : Text := units (hexText id)

/-- Is an item after the key of a cursor? A score that is `NaN` is neither less nor equal. -/
def sortsAfter (cursor : PageCursor) (score : Option ℚ) (id : Sha256Hex) : Bool :=
  score.any fun score ↦
    decide (((score : WithTop ℚ) : WithBot (WithTop ℚ)) < cursor.score) ||
      decide (((score : WithTop ℚ) : WithBot (WithTop ℚ)) = cursor.score) &&
        decide (cursor.id.val < idText id)

section AsOf

variable (asOf : JsDate)

/-- The time from an instant to a date in days, `none` for `NaN`. -/
def ageDays (since : Rfc3339) : Option ℚ := asOf.getTime.map fun t ↦
  max 0 (binary64 (((t - Date.parse since : ℤ) : ℚ) / 86400000))

def daysToDue (due : Rfc3339) (t : ℤ) : ℚ := binary64 (((Date.parse due - t : ℤ) : ℚ) / 86400000)

/-- The score of a key as of a date. Against an invalid one every comparison fails, and the weight of
the undated band is `NaN`. -/
def score (key : OrderingKey) : Option ℚ := asOf.getTime.map fun t ↦
  let ageWeight := binary64
    (max 0 (binary64 (((t - Date.parse key.since : ℤ) : ℚ) / 86400000)) * (1 + key.blockingCount))
  (match key.due with
    | none => band bandUndated ageWeight
    | some due =>
      if daysToDue due t < 0 then
        band bandOverdue (binary64 (-daysToDue due t * (1 + key.blockingCount)))
      else if daysToDue due t ≤ dueSoonHorizonDays then
        band bandDueSoon (binary64
          (binary64 (dueSoonHorizonDays - daysToDue due t) * (1 + key.blockingCount)))
      else band bandUndated ageWeight).score

/-- `now.getTime() >= d.getTime()`. -/
def reached (d : Option ℤ) : Bool := asOf.getTime.any fun t ↦ reaches t d

def acceptanceWindowElapsed (node : ServandaNode) (persona : PublicKeyHex) (edge : Edge) : Bool :=
  edge.closurePolicy == .onAcceptance && edge.acceptanceWindow.any fun window ↦
    let chain := (node.vault persona).getAssertions edge.edgeId
    (chain.find? fun a ↦ a.state == .closed && a.signer == edge.owner).any fun openedAt ↦
      reached asOf (addDuration (Date.parse openedAt.assertedAt) window)

variable (crypto : Crypto) (now : Rfc3339) (node : ServandaNode)

def edgeActions (persona : PublicKeyHex) (edge : Edge) : List ItemAction :=
  let verified := node.edgeState crypto persona edge
  actionsFor verified.finalState (if edge.owner = persona then .owner else .owedTo) edge.edgeId
    (acceptanceWindowElapsed asOf node persona edge)
    (verified.deadlockedSince.any fun since ↦
      reached asOf (addDuration (Date.parse since) Transitions.disputeWindow))
    (edge.due.any fun due ↦ reached asOf (some (Date.parse due)))

/-- An item as of a date: its age may be `NaN`. -/
structure DatedItem where
  kind : ItemKind
  id : Sha256Hex
  intentOrExpect : String
  counterparty : Option (Counterparty × NameOrigin)
  verificationLevel : VerificationLevel
  ageDays : Option ℚ
  due : Option Rfc3339
  state : ItemState
  actions : List ItemAction

/-- An item of a register, with the age and the actions it has at a date. -/
def redate (item : OpenLoopItem) (since : Rfc3339) (actions : List ItemAction) : DatedItem where
  kind := item.kind
  id := item.id
  intentOrExpect := item.intentOrExpect
  counterparty := item.counterparty
  verificationLevel := item.verificationLevel
  ageDays := ageDays asOf since
  due := item.due
  state := item.state
  actions := actions

/-- The items of a view as of a date: which ones there are does not depend on it. -/
def itemsFor (persona : PublicKeyHex) (view : OpenLoopsView) : List DatedItem :=
  let s := node.vault persona
  s.edges.values.filterMap (fun edge ↦ (node.edgeItem crypto now persona view now edge).map fun i ↦
    redate asOf i edge.proposedAt (edgeActions asOf crypto node persona edge)) ++
  s.commitments.values.filterMap (fun c ↦ (node.commitmentItem crypto now persona view now c).map
    fun i ↦ redate asOf i c.2.createdAt i.actions) ++
  (if view = .pending ∨ view = .all then (node.pending persona).map fun p ↦
    let i := node.pendingItem crypto now persona now p
    redate asOf i p.queuedAt i.actions else []) ++
  s.expectations.values.filterMap fun e ↦ (node.expectationItem crypto now persona view now e).map
    fun i ↦ redate asOf i e.2.since i.actions

/-- `scored.get(id) ?? 0`. -/
def scoreOf (persona : PublicKeyHex) (id : Sha256Hex) : Option ℚ :=
  match (node.listOrderingKeys persona).reverse.find? (·.id = id) with
  | none => some 0
  | some key => score asOf key

/-- The comparison of the sort: the higher score first, and the ids where the scores are equal or
their difference is `NaN`. -/
def precedes (persona : PublicKeyHex) (a b : DatedItem) : Prop :=
  match scoreOf asOf node persona a.id, scoreOf asOf node persona b.id with
  | some x, some y => y < x ∨ x = y ∧ a.id ≤ b.id
  | _, _ => a.id ≤ b.id

instance (persona : PublicKeyHex) : DecidableRel (precedes asOf node persona) := fun a b ↦ by
  unfold precedes
  split <;> infer_instance

def ordered (persona : PublicKeyHex) (view : OpenLoopsView) : List DatedItem :=
  (itemsFor asOf crypto now node persona view).insertionSort (precedes asOf node persona)

end AsOf

/-- The cursor a page ends with, before it is encoded. -/
structure NextCursor where
  view : OpenLoopsView
  persona : PublicKeyHex
  asOf : List Char
  score : Option ℚ
  id : Sha256Hex
  above : ℕ

structure OpenLoopsOutput where
  items : List DatedItem
  total : ℕ
  nextCursor : Option NextCursor
  skipped : ℕ

inductive Thrown
  | nodeError (error : OpenLoopsError)
  /-- `toISOString` of an invalid date. -/
  | rangeError

section OpenLoops

variable (crypto : Crypto) (now : Rfc3339) (node : ServandaNode)

def pageStart (scoreOf : Sha256Hex → Option ℚ) (ordered : List DatedItem) : Option PageCursor → ℕ
  | none => 0
  | some cursor =>
    (ordered.findIdx? fun i ↦ sortsAfter cursor (scoreOf i.id) i.id).getD ordered.length

def servePage (persona : PublicKeyHex) (view : OpenLoopsView) (limit : ℕ)
    (cursor : Option PageCursor) (asOf : JsDate) : Except Thrown OpenLoopsOutput :=
  let scoreOf := scoreOf asOf node persona
  let ordered := ordered asOf crypto now node persona view
  let start := pageStart scoreOf ordered cursor
  let page := (ordered.drop start).take limit
  let delivered := start + page.length
  let skipped := match cursor with
    | none => 0
    | some cursor => start - cursor.above
  if ordered.length ≤ delivered then .ok ⟨page, ordered.length, none, skipped⟩
  else match asOf with
    | none => .error .rangeError
    | some t => .ok
      { items := page
        total := ordered.length
        nextCursor := page.getLast?.map fun last ↦
          ⟨view, persona, toISOString t.val t.property, scoreOf last.id, last.id, delivered⟩
        skipped := skipped }

/-- `open_loops` with the text of a cursor. -/
def openLoops (name : Option PersonaName) (view : OpenLoopsView) (limit : ℕ) (raw : Text) :
    Except Thrown OpenLoopsOutput :=
  match node.resolvePersona name with
  | none => .error (.nodeError .noSuchPersona)
  | some persona =>
    match decodeCursor engine raw with
    | none => .error (.nodeError .notACursor)
    | some cursor =>
      if cursor.view ≠ view ∨ cursor.persona.val ≠ idText persona then
        .error (.nodeError .otherViewOrPersona)
      else if cursorExpired engine cursor now then .error (.nodeError .olderThanTtl)
      else servePage crypto now node persona view limit (some cursor) (cursor.date engine)

/-- A cursor is refused, or it names an instant of the last quarter of an hour and the page is that
of the instant. -/
def Verified (name : Option PersonaName) (view : OpenLoopsView) (limit : ℕ) (raw : Text) : Prop :=
  match openLoops engine crypto now node name view limit raw with
  | .error (.nodeError _) => True
  | .error .rangeError => False
  | .ok page => ∃ persona cursor t, node.resolvePersona name = some persona ∧
    decodeCursor engine raw = some cursor ∧ cursor.view = view ∧
    cursor.persona.val = idText persona ∧ cursor.date engine = some t ∧
    Date.parse now - 900000 ≤ t.val ∧ t.val ≤ Date.parse now ∧
    servePage crypto now node persona view limit (some cursor) (some t) = .ok page

end OpenLoops

section Typed

variable (crypto : Crypto) (now asOf : Rfc3339) (node : ServandaNode)

/-- The date of a timestamp. -/
def dateOf : JsDate :=
  some ⟨Date.parse asOf, (Date.parse_bound asOf).trans (by decide)⟩

/-- An item that a timestamp dates. -/
def dated (item : OpenLoopItem) : DatedItem where
  kind := item.kind
  id := item.id
  intentOrExpect := item.intentOrExpect
  counterparty := item.counterparty
  verificationLevel := item.verificationLevel
  ageDays := some item.ageDays
  due := item.due
  state := item.state
  actions := item.actions

variable {crypto now asOf node} {persona : PublicKeyHex} {view : OpenLoopsView}

theorem score_dateOf (key : OrderingKey) : score (dateOf asOf) key = some (rank key asOf).score := by
  unfold score rank dateOf
  cases key.due <;> rfl

theorem scoreOf_dateOf (id : Sha256Hex) :
    scoreOf (dateOf asOf) node persona id = some (node.scoreOf persona asOf id) := by
  unfold scoreOf ServandaNode.scoreOf
  cases (node.listOrderingKeys persona).reverse.find? (·.id = id) with
  | none => rfl
  | some key => exact score_dateOf key

theorem edgeActions_dateOf (edge : Edge) : edgeActions (dateOf asOf) crypto node persona edge =
    node.edgeActions crypto persona edge asOf := by
  have hdue (due : Rfc3339) : reached (dateOf asOf) (some (Date.parse due)) =
      decide (Date.parse due ≤ Date.parse asOf) := rfl
  simp only [edgeActions, ServandaNode.edgeActions, hdue]
  rfl

/-- As of a timestamp the items are those of the register, aged by it. -/
theorem itemsFor_dateOf : itemsFor (dateOf asOf) crypto now node persona view =
    (node.itemsFor crypto now persona view asOf).map dated := by
  have hedge (edge : Edge) : (node.edgeItem crypto now persona view now edge).map (fun i ↦
      redate (dateOf asOf) i edge.proposedAt (edgeActions (dateOf asOf) crypto node persona edge)) =
      (node.edgeItem crypto now persona view asOf edge).map dated := by
    rw [edgeActions_dateOf]
    unfold ServandaNode.edgeItem
    dsimp only
    split_ifs <;> rfl
  have hcommitment (c : Sha256Hex × Commitment) :
      (node.commitmentItem crypto now persona view now c).map (fun i ↦
        redate (dateOf asOf) i c.2.createdAt i.actions) =
      (node.commitmentItem crypto now persona view asOf c).map dated := by
    unfold ServandaNode.commitmentItem
    split_ifs <;> rfl
  have hexpectation (e : Sha256Hex × Expectation) :
      (node.expectationItem crypto now persona view now e).map (fun i ↦
        redate (dateOf asOf) i e.2.since i.actions) =
      (node.expectationItem crypto now persona view asOf e).map dated := by
    unfold ServandaNode.expectationItem
    split_ifs <;> rfl
  have hpending (p : Servanda.PendingExtraction) :
      redate (dateOf asOf) (node.pendingItem crypto now persona now p) p.queuedAt
        (node.pendingItem crypto now persona now p).actions =
      dated (node.pendingItem crypto now persona asOf p) := rfl
  unfold itemsFor ServandaNode.itemsFor
  simp only [hedge, hcommitment, hexpectation, hpending, List.map_append, List.map_filterMap]
  split_ifs <;> simp [Function.comp_def]

/-- As of a timestamp the register is in its own order. -/
theorem ordered_dateOf : ordered (dateOf asOf) crypto now node persona view =
    (node.ordered crypto now persona view asOf).map dated := by
  unfold ordered ServandaNode.ordered
  rw [itemsFor_dateOf]
  refine (List.map_insertionSort _ _ _ _ fun a _ b _ ↦ ?_).symm
  unfold precedes
  rw [scoreOf_dateOf, scoreOf_dateOf]
  rfl

end Typed

section Instants

variable {t : ℤ}

theorem fixedMs_cursorTtl : fixedMs (parseDuration cursorTtl) = ((900000 : ℤ) : ℚ) := by
  have h₁ : binary64 ((900 : ℤ) : ℚ) = ((900 : ℤ) : ℚ) := binary64_int (by decide)
  have h₂ : binary64 ((900000 : ℤ) : ℚ) = ((900000 : ℤ) : ℚ) := binary64_int (by decide)
  have hp : parseDuration cursorTtl = ⟨0, 0, 0, 0, 0, 15, 0⟩ := rfl
  rw [hp]
  norm_num [fixedMs] at h₁ h₂ ⊢
  rw [h₁]
  norm_num [h₂]

theorem addDuration_cursorTtl (ht : |t| ≤ maxTime) :
    addDuration t cursorTtl = timeClip ((t + 900000 : ℤ) : ℚ) := by
  rw [abs_le] at ht
  unfold maxTime at ht
  exact addDuration_fixed ⟨rfl, rfl⟩ fixedMs_cursorTtl (by omega)

/-- A cursor of the past is expired after a quarter of an hour. -/
theorem addDuration_past (ht : |t| ≤ maxTime) {now : Rfc3339} (hnow : t ≤ Date.parse now) :
    addDuration t cursorTtl = some (t + 900000) := by
  have hbound := Date.parse_bound now
  rw [addDuration_cursorTtl ht, timeClip_int]
  rw [abs_le] at ht hbound ⊢
  unfold maxTime at ht ⊢
  omega

theorem past_of_expired (ht : |t| ≤ maxTime) {now : Rfc3339} {finish : ℤ}
    (h : addDuration t cursorTtl = some finish) (hexpired : finish < Date.parse now) :
    t ≤ Date.parse now := by
  rw [addDuration_cursorTtl ht] at h
  by_cases hrange : |t + 900000| ≤ maxTime
  · rw [timeClip_int hrange, Option.some.injEq] at h
    omega
  · have hnone : timeClip ((t + 900000 : ℤ) : ℚ) = none := by
      refine if_neg fun hle ↦ hrange ?_
      exact_mod_cast hle
    rw [hnone] at h
    cases h

end Instants

section Verified

variable {engine : Engine} {crypto : Crypto} {now : Rfc3339} {node : ServandaNode}
  {name : Option PersonaName} {view : OpenLoopsView} {limit : ℕ} {raw : Text}
  {persona : PublicKeyHex} {cursor : PageCursor}

theorem cursorExpired_iff : cursorExpired engine cursor now = true ↔ ∃ t finish,
    cursor.date engine = some t ∧ addDuration t.val cursorTtl = some finish ∧
      finish < Date.parse now := by
  unfold cursorExpired JsDate.getTime
  cases cursor.date engine with
  | none => simp
  | some t =>
    rw [Option.map_some, Option.bind_some]
    constructor
    · intro h
      cases hfinish : addDuration t.val cursorTtl with
      | none => simp [hfinish] at h
      | some finish => exact ⟨t, finish, rfl, hfinish, by simpa [hfinish] using h⟩
    · rintro ⟨_, finish, ⟨⟩, hfinish, hlt⟩
      rw [hfinish]
      exact decide_eq_true hlt

/-- As of an instant a page is served. -/
theorem servePage_ok (t : TimeValue) :
    ∃ page, servePage crypto now node persona view limit (some cursor) (some t) = .ok page := by
  unfold servePage
  dsimp only
  split <;> exact ⟨_, rfl⟩

theorem servePage_error {e : Thrown} {asOf : JsDate}
    (h : servePage crypto now node persona view limit (some cursor) asOf = .error e) :
    e = .rangeError := by
  cases asOf with
  | none =>
    unfold servePage at h
    dsimp only at h
    split at h
    · cases h
    · exact (Except.error.inj h).symm
  | some t =>
    obtain ⟨page, hpage⟩ := @servePage_ok crypto now node view limit persona cursor t
    rw [hpage] at h
    cases h

theorem openLoops_of_unexpired (hresolve : node.resolvePersona name = some persona)
    (hdecode : decodeCursor engine raw = some cursor) (hview : cursor.view = view)
    (hname : cursor.persona.val = idText persona)
    (hexpired : ¬cursorExpired engine cursor now = true) :
    openLoops engine crypto now node name view limit raw =
      servePage crypto now node persona view limit (some cursor) (cursor.date engine) := by
  have hother : ¬(cursor.view ≠ view ∨ cursor.persona.val ≠ idText persona) := by
    simp [hview, hname]
  simp only [openLoops, hresolve, hdecode, if_neg hother, if_neg hexpired]

/-- Past the checks, what is verified has a date. -/
theorem date_of_verified (hresolve : node.resolvePersona name = some persona)
    (hdecode : decodeCursor engine raw = some cursor) (hview : cursor.view = view)
    (hname : cursor.persona.val = idText persona)
    (hexpired : ¬cursorExpired engine cursor now = true)
    (h : Verified engine crypto now node name view limit raw) :
    ∃ t, cursor.date engine = some t ∧ t.val ≤ Date.parse now := by
  rw [Verified, openLoops_of_unexpired hresolve hdecode hview hname hexpired] at h
  cases hserved : servePage crypto now node persona view limit (some cursor)
      (cursor.date engine) with
  | error e =>
    obtain rfl := servePage_error hserved
    rw [hserved] at h
    exact h.elim
  | ok page =>
    rw [hserved] at h
    obtain ⟨_, cursor', t, -, hcursor', -, -, hdate, -, hle, -⟩ := h
    obtain rfl := Option.some.inj (hdecode.symm.trans hcursor')
    exact ⟨t, hdate, hle⟩

end Verified

section Sent

open Sample

/-- A runtime whose `Date.parse` reads RFC 3339 timestamps and nothing else. -/
def runtime : Engine where
  decodeBase64url raw := ((Base64.decodeUrl (scalars raw)).map Lines.decode).getD []
  numerals := Jcs.texts
  dateParse s := (Rfc3339.ofText? (scalars s)).map fun t ↦
    ⟨Date.parse t, (Date.parse_bound t).trans (by decide)⟩

/-- A cursor of one's own making, whose `as_of` is no date. -/
def forged : Json :=
  .obj [(text "above", .num (JsNumber.ofNat 0)), (text "as_of", .str (text "soon")),
    (text "id", .str (text "x")), (text "persona", .str (idText creditorKey)),
    (text "score", .num (JsNumber.ofNat 0)), (text "v", .str protocolVersion),
    (text "view", .str (text "all"))]

def forgedText : List Char := (canonicalize forged).getD []

def forgedRaw : Text := units (Base64.encodeUrl (encodeUtf8 forgedText))

theorem forged_sorted : forged.sorted = forged := by
  have hmembers : Json.sortedMembers
      [(text "above", .num (JsNumber.ofNat 0)), (text "as_of", .str (text "soon")),
        (text "id", .str (text "x")), (text "persona", .str (idText creditorKey)),
        (text "score", .num (JsNumber.ofNat 0)), (text "v", .str protocolVersion),
        (text "view", .str (text "all"))] =
      [(text "above", .num (JsNumber.ofNat 0)), (text "as_of", .str (text "soon")),
        (text "id", .str (text "x")), (text "persona", .str (idText creditorKey)),
        (text "score", .num (JsNumber.ofNat 0)), (text "v", .str protocolVersion),
        (text "view", .str (text "all"))] := rfl
  rw [forged, Json.sorted, hmembers]
  refine congrArg Json.obj (List.Pairwise.insertionSort_eq ?_)
  have hkeys : [text "above", text "as_of", text "id", text "persona", text "score", text "v",
      text "view"].Pairwise (· ≤ ·) := by decide
  exact List.pairwise_map.mp hkeys

theorem forged_distinct : forged.Distinct := by
  refine .obj (by decide : [text "above", text "as_of", text "id", text "persona", text "score",
    text "v", text "view"].Nodup) ?_
  simp only [List.mem_cons, List.not_mem_nil, or_false]
  rintro m (rfl | rfl | rfl | rfl | rfl | rfl | rfl)
  · exact .num _
  · exact .str _
  · exact .str _
  · exact .str _
  · exact .num _
  · exact .str _
  · exact .str _

theorem decodeCursor_forged : ∃ cursor, decodeCursor runtime forgedRaw = some cursor ∧
    cursor.view = .all ∧ cursor.persona.val = idText creditorKey ∧
    cursor.asOf.val = text "soon" := by
  have hsome : (canonicalize forged).isSome := by
    rw [canonicalize, write_isSome_iff]
    decide
  obtain ⟨cs, hcs⟩ := Option.isSome_iff_exists.mp hsome
  have htext : runtime.decodeBase64url forgedRaw = units cs := by
    simp [runtime, forgedRaw, forgedText, hcs, Base64.decodeUrl_encodeUrl, Lines.decode,
      Decoder.run_encodeUtf8]
  have hparse := JsonParse.parse_canonicalize forged_distinct
    (Jcs.numbers_of_forall Jcs.texts_digits forged) hcs
  rw [forged_sorted] at hparse
  have hread : (PageCursor.parse (.ofJson forged)).map (fun c ↦ (c.view, c.persona.val, c.asOf.val)) =
      some (.all, idText creditorKey, text "soon") := by decide +kernel
  obtain ⟨cursor, hcursor, heq⟩ := Option.map_eq_some_iff.mp hread
  rw [Prod.mk.injEq, Prod.mk.injEq] at heq
  refine ⟨cursor, ?_, heq⟩
  rw [decodeCursor, htext]
  change (JsonParse.parse Jcs.texts (units cs)).bind PageCursor.parse = some cursor
  rw [hparse]
  exact hcursor

theorem dateParse_soon : runtime.dateParse (text "soon") = none := by decide

end Sent

end Servanda.Cursor
