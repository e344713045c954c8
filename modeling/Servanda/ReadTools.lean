import Servanda.Brief
import Servanda.Runs

namespace Servanda

open Transitions

namespace ServandaNode

variable {crypto : Crypto} {now asOf : Rfc3339} {node : ServandaNode} {persona : PublicKeyHex}
  {view : OpenLoopsView} {item : OpenLoopItem}

theorem edgeItem_spec {edge : Edge}
    (h : node.edgeItem crypto now persona view asOf edge = some item) :
    ((node.vault persona).getEdgeMeta edge.edgeId).dismissed = false ∧
      edgeInView view (edge.owner == persona) (node.edgeState crypto persona edge).finalState = true ∧
      item.kind = .edge ∧ item.id = edge.edgeId ∧
      item.actions = node.edgeActions crypto persona edge asOf := by
  unfold edgeItem at h
  dsimp only at h
  by_cases hdismissed : ((node.vault persona).getEdgeMeta edge.edgeId).dismissed = true
  · simp [hdismissed] at h
  by_cases hview : edgeInView view (edge.owner == persona)
      (node.edgeState crypto persona edge).finalState = true
  swap
  · simp [hdismissed, hview] at h
  simp only [hdismissed, hview, Bool.not_true, Bool.false_eq_true, if_false] at h
  cases h
  exact ⟨by simpa using hdismissed, hview, rfl, rfl, rfl⟩

theorem edgeItem_isSome {edge : Edge}
    (hdismissed : ((node.vault persona).getEdgeMeta edge.edgeId).dismissed = false)
    (hview : edgeInView view (edge.owner == persona)
      (node.edgeState crypto persona edge).finalState = true) :
    ∃ item, node.edgeItem crypto now persona view asOf edge = some item := by
  simp [edgeItem, hdismissed, hview]

theorem commitmentItem_spec {c : Sha256Hex × Commitment}
    (h : node.commitmentItem crypto now persona view asOf c = some item) :
    (node.vault persona).carried c.1 = false ∧ item.kind = .commitment ∧ item.id = c.1 ∧
      item.actions = [⟨.propose, none, .none⟩] := by
  unfold commitmentItem at h
  split_ifs at h with hcarried
  cases h
  exact ⟨by simpa using hcarried, rfl, rfl, rfl⟩

theorem commitmentItem_all {c : Sha256Hex × Commitment}
    (h : (node.vault persona).carried c.1 = false) :
    ∃ item, node.commitmentItem crypto now persona .all asOf c = some item := by
  simp [commitmentItem, h]

theorem expectationItem_spec {e : Sha256Hex × Expectation}
    (h : node.expectationItem crypto now persona view asOf e = some item) :
    item.kind = .expectation ∧ item.id = e.1 := by
  unfold expectationItem at h
  split_ifs at h <;>
  · cases h
    exact ⟨rfl, rfl⟩

theorem expectationItem_all {e : Sha256Hex × Expectation} :
    ∃ item, node.expectationItem crypto now persona .all asOf e = some item := by
  simp [expectationItem]

theorem mem_itemsFor : item ∈ node.itemsFor crypto now persona view asOf ↔
    (∃ edge ∈ (node.vault persona).edges.values,
        node.edgeItem crypto now persona view asOf edge = some item) ∨
      (∃ c ∈ (node.vault persona).commitments.values,
        node.commitmentItem crypto now persona view asOf c = some item) ∨
      ((view = .pending ∨ view = .all) ∧ ∃ p ∈ node.pending persona,
        node.pendingItem crypto now persona asOf p = item) ∨
      ∃ e ∈ (node.vault persona).expectations.values,
        node.expectationItem crypto now persona view asOf e = some item := by
  simp only [itemsFor, List.mem_append, List.mem_filterMap, List.mem_ite_nil_right, List.mem_map,
    or_assoc]

end ServandaNode

namespace ReadTools

open ServandaNode StoreInvariant

variable (crypto : Crypto) (now : Rfc3339) (node : ServandaNode) (persona : PublicKeyHex)

/-- The items of the view of everything, less the queue of extractions. -/
def recorded : List OpenLoopItem :=
  (node.itemsFor crypto now persona .all now).filter fun item ↦
    item ∉ (node.pending persona).map (node.pendingItem crypto now persona now)

/-- The two read tools show the same records, and each edge with the same act. -/
structure Agree (briefSlots : ℕ) (out : BriefOutput) : Prop where
  returned : node.brief crypto now briefSlots (some (.key persona)) = some out
  sameIds : ∀ id, id ∈ out.slots.map (·.itemId) ↔ id ∈ (recorded crypto now node persona).map (·.id)
  sameActs : ∀ key ∈ node.listOrderingKeys persona, key.kind = .edge →
    ∀ slot, node.slotFor crypto now key = some slot →
      ∃ item ∈ recorded crypto now node persona, item.kind = .edge ∧ item.id = slot.itemId ∧
        slot.primaryAction = item.actions.find? fun a ↦ a.tool.isSome

variable {crypto now node persona} {id : Sha256Hex} {item : OpenLoopItem}

theorem mem_recorded : item ∈ recorded crypto now node persona ↔
    (∃ edge ∈ (node.vault persona).edges.values,
        node.edgeItem crypto now persona .all now edge = some item) ∨
      (∃ c ∈ (node.vault persona).commitments.values,
        node.commitmentItem crypto now persona .all now c = some item) ∨
      ∃ e ∈ (node.vault persona).expectations.values,
        node.expectationItem crypto now persona .all now e = some item := by
  have hqueued {p : PendingExtraction} :
      (node.pendingItem crypto now persona now p).kind = .commitment ∧
        (node.pendingItem crypto now persona now p).actions ≠ [⟨.propose, none, .none⟩] :=
    ⟨rfl, by simp [pendingItem]⟩
  simp only [recorded, List.mem_filter, mem_itemsFor, List.mem_map, decide_eq_true_eq]
  constructor
  · rintro ⟨hedge | hcommitment | ⟨-, hpending⟩ | hexpectation, hqueue⟩
    · exact .inl hedge
    · exact .inr (.inl hcommitment)
    · exact absurd hpending hqueue
    · exact .inr (.inr hexpectation)
  · rintro (⟨edge, hedge, h⟩ | ⟨c, hc, h⟩ | ⟨e, he, h⟩)
    · refine ⟨.inl ⟨edge, hedge, h⟩, ?_⟩
      rintro ⟨p, -, rfl⟩
      have hkind := (edgeItem_spec h).2.2.1
      rw [hqueued.1] at hkind
      cases hkind
    · refine ⟨.inr (.inl ⟨c, hc, h⟩), ?_⟩
      rintro ⟨p, -, rfl⟩
      exact hqueued.2 (commitmentItem_spec h).2.2.2
    · refine ⟨.inr (.inr (.inr ⟨e, he, h⟩)), ?_⟩
      rintro ⟨p, -, rfl⟩
      have hkind := (expectationItem_spec h).1
      rw [hqueued.1] at hkind
      cases hkind

theorem mem_listOrderingKeys {key : OrderingKey} : key ∈ node.listOrderingKeys persona ↔
    (∃ c ∈ (node.vault persona).commitments.values,
        ⟨persona, .commitment, c.1, c.2.createdAt, c.2.due, c.2.conditions.length⟩ = key) ∨
      (∃ edge ∈ (node.vault persona).edges.values,
        ⟨persona, .edge, edge.edgeId, edge.proposedAt, edge.due, edge.blockedBy.length⟩ = key) ∨
      ∃ e ∈ (node.vault persona).expectations.values,
        ⟨persona, .expectation, e.1, e.2.since, none, 0⟩ = key := by
  simp only [listOrderingKeys, Subtree.listOrderingKeys, List.mem_append, List.mem_map, or_assoc]

theorem slotFor_listed {key : OrderingKey} (h : key ∈ node.listOrderingKeys persona) :
    ∃ slot, node.slotFor crypto now key = some slot ∧ slot.itemId = key.id := by
  obtain ⟨c, hc, rfl⟩ | ⟨edge, hedge, rfl⟩ | ⟨e, he, rfl⟩ := mem_listOrderingKeys.mp h
  · have hget : (node.vault persona).commitments.get? c.1 = some c :=
      Directory.get?_eq_some_iff.mpr ⟨hc, rfl⟩
    simp [slotFor, Subtree.getCommitment, hget]
  · have hget : (node.vault persona).getEdge edge.edgeId = some edge :=
      Directory.get?_eq_some_iff.mpr ⟨hedge, rfl⟩
    simp [slotFor, hget]
  · have hget : (node.vault persona).expectations.get? e.1 = some e :=
      Directory.get?_eq_some_iff.mpr ⟨he, rfl⟩
    simp [slotFor, Subtree.getExpectation, hget]

theorem mem_ranked {key : OrderingKey} {keys : List OrderingKey} :
    key ∈ node.ranked now keys ↔ key ∈ keys ∧ node.supersededByAnEdge key = false := by
  simp [ranked]

/-- With enough slots, every record that no edge stands for has one. -/
theorem mem_slots {briefSlots : ℕ} (hslots : (node.listOrderingKeys persona).length ≤ briefSlots) :
    id ∈ (node.slots crypto now briefSlots (node.listOrderingKeys persona)).map (·.itemId) ↔
      (∃ edge ∈ (node.vault persona).edges.values, edge.edgeId = id) ∨
        (∃ c ∈ (node.vault persona).commitments.values,
          (node.vault persona).carried c.1 = false ∧ c.1 = id) ∨
        ∃ e ∈ (node.vault persona).expectations.values, e.1 = id := by
  have hranked : (node.ranked now (node.listOrderingKeys persona)).length ≤ briefSlots := by
    rw [ranked, List.length_insertionSort]
    exact (List.length_filter_le _ _).trans hslots
  have hmem : id ∈ (node.slots crypto now briefSlots (node.listOrderingKeys persona)).map (·.itemId) ↔
      ∃ key ∈ node.listOrderingKeys persona, node.supersededByAnEdge key = false ∧ key.id = id := by
    rw [slots, List.take_of_length_le hranked]
    simp only [List.mem_map, List.mem_filterMap, mem_ranked]
    constructor
    · rintro ⟨slot, ⟨key, ⟨hkey, hshadow⟩, hslot⟩, rfl⟩
      obtain ⟨slot', hslot', hid⟩ := @slotFor_listed crypto now _ _ _ hkey
      rw [hslot] at hslot'
      cases hslot'
      exact ⟨key, hkey, hshadow, hid.symm⟩
    · rintro ⟨key, hkey, hshadow, rfl⟩
      obtain ⟨slot, hslot, hid⟩ := @slotFor_listed crypto now _ _ _ hkey
      exact ⟨slot, ⟨key, ⟨hkey, hshadow⟩, hslot⟩, hid⟩
  rw [hmem]
  constructor
  · rintro ⟨key, hkey, hshadow, rfl⟩
    obtain ⟨c, hc, rfl⟩ | ⟨edge, hedge, rfl⟩ | ⟨e, he, rfl⟩ := mem_listOrderingKeys.mp hkey
    · exact .inr (.inl ⟨c, hc, by simpa [supersededByAnEdge] using hshadow, rfl⟩)
    · exact .inl ⟨edge, hedge, rfl⟩
    · exact .inr (.inr ⟨e, he, rfl⟩)
  · rintro (⟨edge, hedge, rfl⟩ | ⟨c, hc, hcarried, rfl⟩ | ⟨e, he, rfl⟩)
    · exact ⟨_, mem_listOrderingKeys.mpr (.inr (.inl ⟨edge, hedge, rfl⟩)), rfl, rfl⟩
    · exact ⟨_, mem_listOrderingKeys.mpr (.inl ⟨c, hc, rfl⟩), by simpa [supersededByAnEdge], rfl⟩
    · exact ⟨_, mem_listOrderingKeys.mpr (.inr (.inr ⟨e, he, rfl⟩)), rfl, rfl⟩

theorem mem_recorded_id : id ∈ (recorded crypto now node persona).map (·.id) ↔
    (∃ edge ∈ (node.vault persona).edges.values,
        ((node.vault persona).getEdgeMeta edge.edgeId).dismissed = false ∧ edge.edgeId = id) ∨
      (∃ c ∈ (node.vault persona).commitments.values,
        (node.vault persona).carried c.1 = false ∧ c.1 = id) ∨
      ∃ e ∈ (node.vault persona).expectations.values, e.1 = id := by
  simp only [List.mem_map, mem_recorded]
  constructor
  · rintro ⟨item, ⟨edge, hedge, h⟩ | ⟨c, hc, h⟩ | ⟨e, he, h⟩, rfl⟩
    · obtain ⟨hdismissed, -, -, hid, -⟩ := edgeItem_spec h
      exact .inl ⟨edge, hedge, hdismissed, hid.symm⟩
    · obtain ⟨hcarried, -, hid, -⟩ := commitmentItem_spec h
      exact .inr (.inl ⟨c, hc, hcarried, hid.symm⟩)
    · exact .inr (.inr ⟨e, he, (expectationItem_spec h).2.symm⟩)
  · rintro (⟨edge, hedge, hdismissed, rfl⟩ | ⟨c, hc, hcarried, rfl⟩ | ⟨e, he, rfl⟩)
    · obtain ⟨item, h⟩ := @edgeItem_isSome crypto now now _ _ .all _ hdismissed rfl
      exact ⟨item, .inl ⟨edge, hedge, h⟩, (edgeItem_spec h).2.2.2.1⟩
    · obtain ⟨item, h⟩ := @commitmentItem_all crypto now now _ _ _ hcarried
      exact ⟨item, .inr (.inl ⟨c, hc, h⟩), (commitmentItem_spec h).2.2.1⟩
    · obtain ⟨item, h⟩ := @expectationItem_all crypto now now node persona e
      exact ⟨item, .inr (.inr ⟨e, he, h⟩), (expectationItem_spec h).2⟩

variable (node persona) in
def NothingDismissed : Prop := ∀ edge ∈ (node.vault persona).edges.values,
  ((node.vault persona).getEdgeMeta edge.edgeId).dismissed = false

theorem agree_iff {briefSlots : ℕ} (hslots : (node.listOrderingKeys persona).length ≤ briefSlots) :
    (∃ out, Agree crypto now node persona briefSlots out) ↔ NothingDismissed node persona := by
  constructor
  · intro ⟨out, h⟩ edge hedge
    have hkey := mem_listOrderingKeys.mpr (.inr (.inl ⟨edge, hedge, rfl⟩))
    obtain ⟨slot, hslot, hid⟩ := @slotFor_listed crypto now _ _ _ hkey
    obtain ⟨item, hitem, hkind, hitemId, -⟩ := h.sameActs _ hkey rfl slot hslot
    obtain ⟨edge', hedge', h⟩ | ⟨c, -, h⟩ | ⟨e, -, h⟩ := mem_recorded.mp hitem
    · obtain ⟨hdismissed, -, -, hid', -⟩ := edgeItem_spec h
      rwa [← hid', hitemId, hid] at hdismissed
    · rw [(commitmentItem_spec h).2.1] at hkind
      cases hkind
    · rw [(expectationItem_spec h).1] at hkind
      cases hkind
  · intro h
    refine ⟨_, rfl, fun id ↦ ?_, ?_⟩
    · rw [mem_recorded_id]
      refine (mem_slots hslots).trans (or_congr_left ?_)
      constructor
      · intro ⟨edge, hedge, hid⟩
        exact ⟨edge, hedge, h edge hedge, hid⟩
      · intro ⟨edge, hedge, _, hid⟩
        exact ⟨edge, hedge, hid⟩
    · intro key hkey hkind slot hslot
      obtain ⟨c, -, rfl⟩ | ⟨edge, hedge, rfl⟩ | ⟨e, -, rfl⟩ := mem_listOrderingKeys.mp hkey
      · cases hkind
      · obtain ⟨item, hitem⟩ := 
          @edgeItem_isSome crypto now now _ _ .all _ (h edge hedge) rfl
        obtain ⟨-, -, hitemKind, hitemId, hactions⟩ := edgeItem_spec hitem
        have hget : (node.vault persona).getEdge edge.edgeId = some edge :=
          Directory.get?_eq_some_iff.mpr ⟨hedge, rfl⟩
        simp only [slotFor, hget, Option.map_some, Option.some.injEq] at hslot
        subst hslot
        exact ⟨item, mem_recorded.mpr (.inl ⟨edge, hedge, hitem⟩), hitemKind, hitemId,
          by rw [hactions]; rfl⟩
      · cases hkind

/-- No call of the run dismisses an edge; it may dismiss what an extraction found. -/
def DismissesNoEdge (_ : Rfc3339) : Operation → System → Prop
  | .confirm input, sys => input.decision = .dismiss → ∀ persona kind,
      sys.node.locate input.id = some (persona, kind) → kind = .pending
  | _, _ => True

def Undismissed (s : Subtree) : Prop := ∀ id, (s.getEdgeMeta id).dismissed = false

namespace Undismissed

variable {s s' : Subtree}

theorem congr (h : Undismissed s) (hs : s'.edgeMeta = s.edgeMeta) : Undismissed s' := by
  intro id
  rw [Subtree.getEdgeMeta, hs]
  exact h id

theorem wrote {sys : System} {op : Operation} (h : Undismissed (sys.node.vault persona))
    (hop : DismissesNoEdge now op sys) (hwrote : Wrote crypto now sys op persona s) :
    Undismissed s := by
  cases hwrote with
  | committed | expected | recorded | asserted => exact h.congr rfl
  | proposed hpersona hedge hput ha =>
    have hsame := (SameOwn.putEdge hput).edgeMeta
    exact h.congr hsame
  | dismissed hlocate hkind hget hdecision => exact absurd (hop hdecision _ _ hlocate) hkind
  | @confirmed input _ edge a hget howedTo ha haccepted =>
    intro id
    by_cases hid : id = edge.edgeId
    · simp [Subtree.getEdgeMeta, Subtree.putEdgeMeta, hid]
    · simpa [Subtree.getEdgeMeta, Subtree.putEdgeMeta, hid, Subtree.appendAssertion] using h id
  | ingested => exact h.congr (SameOwn.ingest _).edgeMeta
  | reconciled => exact h.congr (SameOwn.reconResponse _).edgeMeta
  | recovered => exact h.congr (SameOwn.recoverResponse _).edgeMeta

theorem reached {sys : System} (h : Reached crypto DismissesNoEdge now sys) (persona : PublicKeyHex) :
    Undismissed (sys.node.vault persona) := by
  refine h.invariant (P := fun _ ↦ Undismissed) (fun _ _ ↦ rfl) ?_ persona
  intro now sys op actor s hbefore hop hwrote
  exact (hbefore actor).wrote hop hwrote

end Undismissed

/-- The read tools agree in every state that is reached without a dismissal, and in any state
exactly when nothing in the register is dismissed. -/
theorem tools_agree (crypto : Crypto) (asOf : Rfc3339) (persona : PublicKeyHex) (briefSlots : ℕ) :
    (∀ node : ServandaNode, (node.listOrderingKeys persona).length ≤ briefSlots →
      ((∃ out, Agree crypto asOf node persona briefSlots out) ↔ NothingDismissed node persona)) ∧
    ∀ now sys, Reached crypto DismissesNoEdge now sys →
      (sys.node.listOrderingKeys persona).length ≤ briefSlots →
      ∃ out, Agree crypto asOf sys.node persona briefSlots out := by
  refine ⟨fun node hslots ↦ agree_iff hslots, ?_⟩
  intro now sys h hslots
  rw [agree_iff hslots]
  intro edge _
  exact Undismissed.reached h persona edge.edgeId

section Dismissal

open Sample

theorem proposal_shown : ∃ out, Agree Sample.crypto (date 3 1 9)
    (creditorNode.perform Sample.crypto (date 3 1 9) firstProposal).node creditorKey 3 out := by
  have hstart : Reached Sample.crypto DismissesNoEdge (date 3 1 9) creditorNode := .start fun _ ↦ rfl
  exact (tools_agree Sample.crypto (date 3 1 9) creditorKey 3).2 _ _ (hstart.perform le_rfl trivial)
    (by decide +kernel)

def dismissal : Operation := .confirm ⟨Sample.edge.edgeId, .dismiss, none⟩

/-- A proposal that is dismissed leaves the view of everything and keeps its slot in the brief. -/
theorem dismissed_proposal_in_brief : ¬∀ now sys,
    Reached Sample.crypto (fun _ _ _ ↦ True) now sys → ∀ asOf persona briefSlots,
      (sys.node.listOrderingKeys persona).length ≤ briefSlots →
      ∃ out, Agree Sample.crypto asOf sys.node persona briefSlots out := by
  intro h
  have hstart : Reached Sample.crypto (fun _ _ _ ↦ True) (date 3 1 9) creditorNode :=
    .start fun _ ↦ rfl
  have hreached : Reached Sample.crypto (fun _ _ _ ↦ True) (date 3 1 9)
      ((creditorNode.perform Sample.crypto (date 3 1 9) firstProposal).perform Sample.crypto
        (date 3 1 9) dismissal) := (hstart.perform le_rfl trivial).perform le_rfl trivial
  have hagree := h _ _ hreached (date 3 1 9) creditorKey 3 (by decide +kernel)
  rw [agree_iff (by decide +kernel)] at hagree
  exact absurd (hagree Sample.edge (by decide +kernel)) (by decide +kernel)

end Dismissal

end ReadTools

end Servanda
