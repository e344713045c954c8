import Servanda.Effects
import Servanda.Json
import Servanda.Paging
import Servanda.StoreInvariant

/-!
The schemas of the node's tools: what a call may carry, what a read must return, and when what was
stored can come back.
-/

namespace Servanda

open StoreInvariant

/-- The length of a string, as a schema's `min` and `max` count it. -/
def codeUnits (s : String) : ℕ := (text s).length

structure ExpectInput where
  expect : String
  /-- The member `from`. -/
  source : Counterparty
  context : Option String

def intentSchema (s : String) : Bool := 1 ≤ codeUnits s && codeUnits s ≤ 500

def externalLabel (s : String) : Bool := 1 ≤ codeUnits s && codeUnits s ≤ 200

def CommitInput.parses (input : CommitInput) : Bool := intentSchema input.intent

def ExpectInput.parses (input : ExpectInput) : Bool :=
  1 ≤ codeUnits input.expect && match input.source with
    | .persona _ => true
    | .label s => 1 ≤ codeUnits s

def ConfirmInput.parses (input : ConfirmInput) : Bool :=
  input.edit.all fun edit ↦ edit.intent.all intentSchema

/-- The schema of a name that is read back: a label within its bounds, or a key. -/
def Counterparty.parses : Counterparty → Bool
  | .persona _ => true
  | .label s => externalLabel s

def ItemAction.parses (a : ItemAction) : Bool :=
  a.tool == a.act.tool && (a.tool.isSome || a.args == .none)

def OpenLoopItem.parses (item : OpenLoopItem) : Bool :=
  codeUnits item.intentOrExpect ≤ 500 && item.counterparty.all (·.1.parses) &&
    0 ≤ item.ageDays && item.actions.all ItemAction.parses

def OpenLoopsOutput.parses (out : OpenLoopsOutput) : Bool := out.items.all OpenLoopItem.parses

def BriefOutput.parses (out : BriefOutput) : Bool :=
  out.slots.all fun slot ↦ slot.primaryAction.all ItemAction.parses

section

variable (crypto : Crypto) (expectationId : Expectation → Sha256Hex) (now : Rfc3339)

/-- The record's name is the digest of its canonical form. -/
def ServandaNode.expect (node : ServandaNode) (input : ExpectInput) :
    ServandaNode × Except NodeError Sha256Hex :=
  let persona := node.activePersona
  let expectation : Expectation :=
    ⟨input.expect, input.source, now, input.context.filter (· ≠ ""), .opened⟩
  let id := expectationId expectation
  if persona ∉ node.personas then (node, .error .noSuchPersona)
  else (node.withVault persona ((node.vault persona).putExpectation id expectation), .ok id)

/-- A call that writes to the register, or a delivery to the inbox. -/
inductive Call
  | commit (input : CommitInput)
  | expect (input : ExpectInput)
  | confirm (input : ConfirmInput)
  | act (input : ActInput)
  | ingest (persona : PublicKeyHex) (budgetNow : ℤ) (messages : List Delivery)

/-- Do the schemas accept the call? A delivered message has been read through its own. -/
def Call.parses : Call → Bool
  | .commit input => input.parses
  | .expect input => input.parses
  | .confirm input => input.parses
  | .act _ | .ingest .. => true

def StoreInvariant.System.call (sys : System) : Call → System
  | .commit input => sys.perform crypto now (.commit input)
  | .expect input => sys.withNode (sys.node.expect expectationId now input).1
  | .confirm input => sys.perform crypto now (.confirm input)
  | .act input => sys.perform crypto now (.act input)
  | .ingest persona budgetNow messages =>
    sys.perform crypto now (.ingest persona budgetNow messages)

/-- A register built from an empty one, by calls the schemas accept that also meet a condition. -/
inductive Built (C : Call → Prop) : System → Prop
  | start {sys : System} (hvault : ∀ persona, sys.node.vault persona = .empty)
      (hpending : ∀ persona, sys.node.pending persona = []) : Built C sys
  | call {sys : System} {call : Call} (now : Rfc3339) (h : Built C sys) (hparses : call.parses = true)
      (hcall : C call) : Built C (sys.call crypto expectationId now call)

/-- Every page of every view, and every brief, is what its own schema accepts. -/
def ComesBack (node : ServandaNode) : Prop :=
  ∀ now, (∀ input out, node.openLoops crypto now input = .ok out → out.parses = true) ∧
    ∀ briefSlots persona out, node.brief crypto now briefSlots persona = some out →
      out.parses = true

end

/-- Will a name be read back within the bounds of a label, or not be shown at all? -/
def Counterparty.storable : Counterparty → Bool
  | .persona _ => true
  | .label s => s.toList.all isWhitespace || codeUnits s ≤ 200

/-- Does a call write only what a read may return? -/
def Call.storable : Call → Bool
  | .commit input => input.owedTo.all Counterparty.storable
  | .expect input => codeUnits input.expect ≤ 500 && input.source.storable
  | .confirm _ | .act _ | .ingest .. => true

structure Returnable (s : Subtree) : Prop where
  commitments : ∀ c ∈ s.commitments.values,
    codeUnits c.2.intent ≤ 500 ∧ c.2.owedTo.all Counterparty.storable = true
  expectations : ∀ e ∈ s.expectations.values,
    codeUnits e.2.expect ≤ 500 ∧ e.2.source.storable = true

namespace Returnable

variable {crypto : Crypto} {s s' : Subtree}

theorem empty : Returnable .empty := ⟨fun _ h ↦ (nomatch h), fun _ h ↦ (nomatch h)⟩

theorem of_sameOwn (h : Returnable s) (hs : SameOwn s s') : Returnable s' :=
  ⟨hs.commitments ▸ h.commitments, hs.expectations ▸ h.expectations⟩

theorem putCommitment (h : Returnable s) {c : Commitment} (hc : codeUnits c.intent ≤ 500)
    (howedTo : c.owedTo.all Counterparty.storable = true) :
    Returnable (s.putCommitment crypto c) := by
  refine ⟨fun d hd ↦ ?_, h.expectations⟩
  rcases Directory.mem_values_put.mp hd with rfl | ⟨hd, -⟩
  · exact ⟨hc, howedTo⟩
  · exact h.commitments d hd

theorem putExpectation (h : Returnable s) {id : Sha256Hex} {e : Expectation}
    (he : codeUnits e.expect ≤ 500) (hsource : e.source.storable = true) :
    Returnable (s.putExpectation id e) := by
  refine ⟨h.commitments, fun d hd ↦ ?_⟩
  rcases Directory.mem_values_put.mp hd with rfl | ⟨hd, -⟩
  · exact ⟨he, hsource⟩
  · exact h.expectations d hd

theorem putEdge (h : Returnable s) {edge : Edge} (hs : s.putEdge crypto edge = some s') :
    Returnable s' := h.of_sameOwn (.putEdge hs)

theorem getCommitment (h : Returnable s) {hash : Sha256Hex} {c : Commitment}
    (hget : s.getCommitment hash = some c) : codeUnits c.intent ≤ 500 := by
  obtain ⟨d, hd, rfl⟩ := Option.map_eq_some_iff.mp hget
  exact (h.commitments d (Directory.mem_of_get? hd)).1

end Returnable

/-- Nothing is queued, and every record may be read back. -/
structure Holds (node : ServandaNode) : Prop where
  vault : ∀ persona, Returnable (node.vault persona)
  pending : ∀ persona, node.pending persona = []

namespace Holds

open ServandaNode

variable {crypto : Crypto} {expectationId : Expectation → Sha256Hex} {now : Rfc3339}
  {node : ServandaNode}

theorem withVault (h : Holds node) {persona : PublicKeyHex} {s : Subtree} (hs : Returnable s) :
    Holds (node.withVault persona s) := by
  refine ⟨fun other ↦ ?_, h.pending⟩
  by_cases ho : other = persona
  · subst ho
    simpa [ServandaNode.withVault] using hs
  · simpa [ServandaNode.withVault, ho] using h.vault other

theorem getPending (h : Holds node) (persona : PublicKeyHex) (id : Sha256Hex) :
    node.getPending persona id = none := by
  simp [ServandaNode.getPending, h.pending]

theorem commit (h : Holds node) {input : CommitInput} (hparses : input.parses = true)
    (hstorable : input.owedTo.all Counterparty.storable = true) :
    Holds (node.commit crypto now input).1 := by
  have hintent : codeUnits input.intent ≤ 500 := by
    simp only [CommitInput.parses, intentSchema, Bool.and_eq_true, decide_eq_true_eq] at hparses
    exact hparses.2
  have hput (persona : PublicKeyHex) : Returnable ((node.vault persona).putCommitment crypto
      (ServandaNode.committed now persona input)) :=
    (h.vault persona).putCommitment hintent hstorable
  have heffect := @commit_committed crypto now node input
  generalize (node.commit crypto now input).1 = after at heffect ⊢
  cases heffect with
  | refused => exact h
  | recorded => exact h.withVault (hput _)
  | proposed _ _ hedge => exact h.withVault (((hput _).putEdge hedge).of_sameOwn (.appendAssertion _ _))

theorem expect (h : Holds node) {input : ExpectInput} (hexpect : codeUnits input.expect ≤ 500)
    (hsource : input.source.storable = true) :
    Holds (node.expect expectationId now input).1 := by
  unfold ServandaNode.expect
  by_cases hmem : node.activePersona ∈ node.personas
  · rw [if_neg (not_not.mpr hmem)]
    exact h.withVault ((h.vault _).putExpectation hexpect hsource)
  · rwa [if_pos hmem]

theorem confirm (h : Holds node) (input : ConfirmInput) :
    Holds (node.confirm crypto now input).1 := by
  have heffect := @confirm_confirmed crypto now node input
  generalize (node.confirm crypto now input).1 = after at heffect ⊢
  cases heffect with
  | refused => exact h
  | dequeued persona =>
    refine ⟨h.vault, fun other ↦ ?_⟩
    by_cases ho : other = persona <;> simp [deletePending, ho, h.pending]
  | expected hpending | recorded _ hpending => simp [h.getPending] at hpending
  | dismissed => exact h.withVault ⟨(h.vault _).commitments, (h.vault _).expectations⟩
  | confirmed _ _ _ _ hs =>
    subst hs
    exact h.withVault ⟨(h.vault _).commitments, (h.vault _).expectations⟩

theorem act (h : Holds node) (input : ActInput) : Holds (node.act crypto now input).1 := by
  have heffect := @act_acted crypto now node input
  generalize (node.act crypto now input).1 = after at heffect ⊢
  cases heffect with
  | refused => exact h
  | asserted => exact h.withVault ((h.vault _).of_sameOwn (.appendAssertion _ _))

/-- One call keeps it. -/
theorem call {sys : System} (h : Holds sys.node) {call : Call} (hparses : call.parses = true)
    (hstorable : call.storable = true) :
    Holds (sys.call crypto expectationId now call).node := by
  cases call with
  | commit input => exact h.commit hparses hstorable
  | expect input =>
    simp only [Call.storable, Bool.and_eq_true, decide_eq_true_eq] at hstorable
    exact h.expect hstorable.1 hstorable.2
  | confirm input => exact h.confirm input
  | act input => exact h.act input
  | ingest persona budgetNow messages =>
    simp only [System.call, System.perform]
    split_ifs
    · have hsame := @SameOwn.ingest crypto now (sys.inbox persona) budgetNow messages
      exact h.withVault ((h.vault persona).of_sameOwn hsame)
    · exact h

end Holds

section

open ServandaNode

variable {crypto : Crypto} {expectationId : Expectation → Sha256Hex} {now asOf : Rfc3339}
  {node : ServandaNode} {persona : PublicKeyHex} {view : OpenLoopsView}

theorem Built.holds {sys : System}
    (h : Built crypto expectationId (fun call ↦ call.storable = true) sys) : Holds sys.node := by
  induction h with
  | start hvault hpending =>
    refine ⟨fun persona ↦ ?_, hpending⟩
    rw [hvault]
    exact .empty
  | call now _ hparses hcall ih => exact ih.call hparses hcall

theorem codeUnits_eq_zero {s : String} : codeUnits s = 0 ↔ s.toList = [] := by
  rw [codeUnits, text, List.length_eq_zero_iff, Unicode.units, List.flatMap_eq_nil_iff]
  refine ⟨fun h ↦ List.eq_nil_iff_forall_not_mem.mpr fun c hc ↦ ?_, fun h ↦ by simp [h]⟩
  have hnil := h c hc
  unfold Unicode.unitsOf at hnil
  split_ifs at hnil

theorem counterpartyOf_parses {c : Option Counterparty}
    (h : c.all Counterparty.storable = true) :
    (counterpartyOf c).all (·.1.parses) = true := by
  cases c with
  | none => rfl
  | some c =>
    cases c with
    | persona key => rfl
    | label s =>
      simp only [counterpartyOf]
      split_ifs with hblank
      · rfl
      · simp only [Option.all_some, Counterparty.storable, hblank, Bool.false_or,
          decide_eq_true_eq] at h
        have hne : codeUnits s ≠ 0 := by
          intro hzero
          simp [codeUnits_eq_zero.mp hzero] at hblank
        simp only [Option.all_some, Counterparty.parses, externalLabel, Bool.and_eq_true,
          decide_eq_true_eq]
        omega

theorem actionsFor_parses (state : EffectiveState) (role : ViewerRole) (edgeId : Sha256Hex)
    (windowElapsed disputeWindowElapsed dueElapsed : Bool) :
    (actionsFor state role edgeId windowElapsed disputeWindowElapsed dueElapsed).all
      ItemAction.parses = true := by
  cases windowElapsed <;> cases disputeWindowElapsed <;> cases dueElapsed <;> cases role <;>
    cases state <;> rfl

theorem missingPlaintext_short (s : Subtree) (edgeId : Sha256Hex) :
    codeUnits (s.missingPlaintext edgeId) ≤ 500 := by
  unfold Subtree.missingPlaintext
  split_ifs <;> decide +kernel

theorem parses_item {item : OpenLoopItem} (hintent : codeUnits item.intentOrExpect ≤ 500)
    (hcounterparty : item.counterparty.all (·.1.parses) = true) (hage : 0 ≤ item.ageDays)
    (hactions : item.actions.all ItemAction.parses = true) : item.parses = true := by
  simp [OpenLoopItem.parses, hintent, hcounterparty, hage, hactions]

theorem ageDays_nonneg (since now : Rfc3339) : 0 ≤ ageDays since now := le_max_left ..

theorem edgeItem_parses (h : Returnable (node.vault persona)) {edge : Edge} {item : OpenLoopItem}
    (hitem : node.edgeItem crypto now persona view asOf edge = some item) :
    item.parses = true := by
  simp only [edgeItem] at hitem
  split_ifs at hitem <;> obtain rfl := Option.some.inj hitem
  all_goals
    refine parses_item ?_ rfl (ageDays_nonneg _ _) (actionsFor_parses ..)
    cases hget : (node.vault persona).getCommitment edge.commitmentHash with
    | none => exact missingPlaintext_short _ _
    | some c => exact h.getCommitment hget

theorem commitmentItem_parses {c : Sha256Hex × Commitment} {item : OpenLoopItem}
    (hc : codeUnits c.2.intent ≤ 500 ∧ c.2.owedTo.all Counterparty.storable = true)
    (hitem : node.commitmentItem crypto now persona view asOf c = some item) :
    item.parses = true := by
  simp only [commitmentItem] at hitem
  split_ifs at hitem
  obtain rfl := Option.some.inj hitem
  exact parses_item hc.1 (counterpartyOf_parses hc.2) (ageDays_nonneg _ _) rfl

theorem expectationItem_parses {e : Sha256Hex × Expectation} {item : OpenLoopItem}
    (he : codeUnits e.2.expect ≤ 500 ∧ e.2.source.storable = true)
    (hitem : node.expectationItem crypto now persona view asOf e = some item) :
    item.parses = true := by
  simp only [expectationItem] at hitem
  split_ifs at hitem <;> obtain rfl := Option.some.inj hitem
  · exact parses_item he.1 (counterpartyOf_parses he.2) (ageDays_nonneg _ _) rfl
  · exact parses_item he.1 (counterpartyOf_parses he.2) (ageDays_nonneg _ _) rfl

theorem itemsFor_parses (h : Holds node) {item : OpenLoopItem}
    (hitem : item ∈ node.itemsFor crypto now persona view asOf) : item.parses = true := by
  simp only [itemsFor, h.pending, List.map_nil, ite_self, List.append_nil, List.mem_append,
    List.mem_filterMap] at hitem
  rcases hitem with (⟨edge, -, hitem⟩ | ⟨c, hc, hitem⟩) | ⟨e, he, hitem⟩
  · exact edgeItem_parses (h.vault persona) hitem
  · exact commitmentItem_parses ((h.vault persona).commitments c hc) hitem
  · exact expectationItem_parses ((h.vault persona).expectations e he) hitem

theorem openLoops_parses (h : Holds node) {input : OpenLoopsInput} {out : OpenLoopsOutput}
    (hout : node.openLoops crypto now input = .ok out) : out.parses = true := by
  have hpage (persona : PublicKeyHex) (cursor : Option PageCursor) :
      (node.servePage crypto now persona input.view input.limit cursor).parses = true := by
    rw [OpenLoopsOutput.parses, List.all_eq_true]
    intro item hitem
    have hordered := List.mem_of_mem_drop (List.mem_of_mem_take hitem)
    exact itemsFor_parses h ((List.mem_insertionSort _).mp hordered)
  unfold openLoops at hout
  split at hout
  · cases hout
  · cases hout
  · obtain rfl := Except.ok.inj hout
    exact hpage _ none
  · split_ifs at hout
    obtain rfl := Except.ok.inj hout
    exact hpage _ _

theorem slotFor_parses {key : OrderingKey} {slot : BriefSlot}
    (h : node.slotFor crypto now key = some slot) :
    slot.primaryAction.all ItemAction.parses = true := by
  unfold slotFor at h
  dsimp only at h
  split at h
  · obtain ⟨edge, -, rfl⟩ := Option.map_eq_some_iff.mp h
    rw [Option.all_eq_true_iff_get]
    intro hsome
    have hmem := List.mem_of_find?_eq_some (Option.some_get hsome).symm
    exact List.all_eq_true.mp (actionsFor_parses ..) _ hmem
  · obtain ⟨c, -, rfl⟩ := Option.map_eq_some_iff.mp h
    rfl
  · obtain ⟨e, -, rfl⟩ := Option.map_eq_some_iff.mp h
    rfl

theorem brief_parses {briefSlots : ℕ} {name : Option PersonaName} {out : BriefOutput}
    (hout : node.brief crypto now briefSlots name = some out) : out.parses = true := by
  obtain ⟨keys, -, rfl⟩ := Option.map_eq_some_iff.mp hout
  rw [BriefOutput.parses, List.all_eq_true]
  intro slot hslot
  obtain ⟨key, -, hkey⟩ := List.mem_filterMap.mp hslot
  exact slotFor_parses hkey

theorem stored_comes_back {sys : System}
    (h : Built crypto expectationId (fun call ↦ call.storable = true) sys) :
    ComesBack crypto sys.node :=
  fun _ ↦ ⟨fun _ _ hout ↦ openLoops_parses h.holds hout, fun _ _ _ hout ↦ brief_parses hout⟩

/-- A page as long as the register holds every item of the view. -/
theorem openLoops_all (node : ServandaNode) (now : Rfc3339) : ∃ input out,
    node.openLoops crypto now input = .ok out ∧
      ∀ item ∈ node.itemsFor crypto now node.activePersona .all now, item ∈ out.items := by
  have hlimit : 0 < (node.itemsFor crypto now node.activePersona .all now).length + 1 := by omega
  refine ⟨⟨.all, none, _, hlimit, none⟩, _, rfl, fun item hitem ↦ ?_⟩
  simp only [servePage, pageStart, List.drop_zero]
  rw [List.take_of_length_le]
  · exact (List.mem_insertionSort _).mpr hitem
  · rw [ordered, List.length_insertionSort]
    exact Nat.le_succ _

theorem counterpartyOf_unstorable {c : Counterparty} (h : c.storable = false) :
    (counterpartyOf (some c)).all (·.1.parses) = false := by
  cases c with
  | persona key => cases h
  | label s =>
    simp only [Counterparty.storable, Bool.or_eq_false_iff, decide_eq_false_iff_not] at h
    simp only [counterpartyOf, h.1, Bool.false_eq_true, if_false, Option.all_some,
      Counterparty.parses, externalLabel, Bool.and_eq_false_iff, decide_eq_false_iff_not]
    exact .inr h.2

/-- What a persona expects in words that cannot be read back spoils the register at once. -/
theorem expect_spoils {sys : System} {input : ExpectInput} (now : Rfc3339)
    (hactive : sys.node.activePersona ∈ sys.node.personas)
    (hinput : (Call.expect input).storable = false) :
    ¬ComesBack crypto (sys.call crypto expectationId now (.expect input)).node := by
  let persona := sys.node.activePersona
  let e : Expectation :=
    ⟨input.expect, input.source, now, input.context.filter (· ≠ ""), .opened⟩
  let after := sys.node.withVault persona
    ((sys.node.vault persona).putExpectation (expectationId e) e)
  have hafter : (sys.call crypto expectationId now (.expect input)).node = after := by
    simp only [System.call, System.withNode, ServandaNode.expect]
    rw [if_neg (not_not.mpr hactive)]
  have hheld : (expectationId e, e) ∈ (after.vault persona).expectations.values := by
    simp only [after, ServandaNode.withVault, Function.update_self]
    exact Directory.mem_values_put.mpr (.inl rfl)
  obtain ⟨item, hitem, hbad⟩ : ∃ item, after.expectationItem crypto now persona .all now
      (expectationId e, e) = some item ∧ item.parses = false := by
    refine ⟨_, rfl, ?_⟩
    simp only [Call.storable, Bool.and_eq_false_iff, decide_eq_false_iff_not] at hinput
    simp only [OpenLoopItem.parses, Bool.and_eq_false_iff, decide_eq_false_iff_not]
    rcases hinput with hlong | hsource
    · exact .inl (.inl (.inl hlong))
    · exact .inl (.inl (.inr (counterpartyOf_unstorable hsource)))
  obtain ⟨page, out, hout, hall⟩ := @openLoops_all crypto after now
  have hmem : item ∈ out.items := hall item <| by
    simp only [itemsFor, List.mem_append, List.mem_filterMap]
    exact .inr ⟨_, hheld, hitem⟩
  intro h
  rw [hafter] at h
  have hparses := List.all_eq_true.mp ((h now).1 page out hout) item hmem
  rw [hbad] at hparses
  cases hparses

end

section LongExpectation

open Sample

def storedCommit : Call := .commit ⟨"deliver the logo", some (.label "Studio"), none, none, false, false⟩

def longExpect : Call :=
  .expect ⟨String.ofList (List.replicate 501 'a'), .label "Studio", none⟩

theorem codeUnits_replicate (n : ℕ) : codeUnits (String.ofList (List.replicate n 'a')) = n := by
  have hone : (Unicode.unitsOf 'a').length = 1 := by decide
  rw [codeUnits, text, String.toList_ofList, Unicode.units]
  induction n with
  | zero => rfl
  | succ n ih => rw [List.replicate_succ, List.flatMap_cons, List.length_append, ih, hone, add_comm]

/-- The schema of `expect` bounds nothing from above, and that of a listed item does. -/
theorem long_expectation_never_comes_back :
    Built Sample.crypto (fun _ ↦ 0) (fun _ ↦ True)
        (creditorNode.call Sample.crypto (fun _ ↦ 0) (date 3 1 9) longExpect) ∧
      ¬ComesBack Sample.crypto
        (creditorNode.call Sample.crypto (fun _ ↦ 0) (date 3 1 9) longExpect).node := by
  have hstart : Built Sample.crypto (fun _ ↦ 0) (fun _ ↦ True) creditorNode :=
    .start (fun _ ↦ rfl) fun _ ↦ rfl
  have hlabel : 1 ≤ codeUnits "Studio" := by decide +kernel
  have hlong (s : String) (h : codeUnits s = 501) :
      (Call.expect ⟨s, .label "Studio", none⟩).parses = true ∧
        (Call.expect ⟨s, .label "Studio", none⟩).storable = false := by
    simp [Call.parses, ExpectInput.parses, Call.storable, h, hlabel]
  obtain ⟨hparses, hstorable⟩ := hlong _ (codeUnits_replicate 501)
  refine ⟨.call _ hstart hparses trivial, expect_spoils _ ?_ hstorable⟩
  exact List.mem_singleton_self creditorKey

theorem commitment_comes_back : ComesBack Sample.crypto
    (creditorNode.call Sample.crypto (fun _ ↦ 0) (date 3 1 9) storedCommit).node := by
  apply @stored_comes_back _ (fun _ ↦ 0)
  exact .call _ (.start (fun _ ↦ rfl) fun _ ↦ rfl) (by decide +kernel) (by decide +kernel)

end LongExpectation

end Servanda
