import Servanda.Lineage
import Servanda.ReadTools

namespace Servanda.Succession

open Transitions Serve Recon Rotation ServandaNode

variable (crypto : Crypto) (now : Rfc3339) (old new : PublicKeyHex) (r : Rotation)
  (nodeOld nodeNew : ServandaNode) (response : RecoverResponse)

/-- The vault of a key that has recovered: the one statement that makes it a successor, and what the
response restored. -/
def recovered : Subtree :=
  (Recovery.applyRecoverResponse crypto (Subtree.empty.putRotation r) new now response).1

/-- A recovery of all that a persona's vault holds, by the key that replaces the persona's. -/
structure Restoration : Prop where
  oldActive : nodeOld.activePersona = old
  newActive : nodeNew.activePersona = new
  genuine : genuine crypto r = true
  replaced : r.old = old
  successor : r.new = new
  vault : nodeNew.vault new = recovered crypto now new r response
  given : ∀ entry ∈ response.edges, entry.edge ∈ (nodeOld.vault old).edges.values ∧
    entry.assertions = (nodeOld.vault old).getAssertions entry.edge.edgeId
  whole : ∀ edge ∈ (nodeOld.vault old).edges.values, ∃ entry ∈ response.edges, entry.edge = edge
  accepted : ∀ entry ∈ response.edges, AcceptsAll crypto
    (partyLineage crypto (Subtree.empty.putRotation r)) (some now) entry.edge
    (incoming [] entry.assertions)
  past : ∀ entry ∈ response.edges, ∀ a ∈ entry.assertions,
    Date.parse a.assertedAt ≤ Date.parse now

/-- An edge is listed in a view of the persona's, in this state and with this counterparty. -/
def Appears (node : ServandaNode) (persona : PublicKeyHex) (view : OpenLoopsView)
    (edgeId : Sha256Hex) (state : ItemState) (counterparty : Option (Counterparty × NameOrigin)) :
    Prop :=
  ∃ item ∈ node.itemsFor crypto now persona view now, item.kind = .edge ∧ item.id = edgeId ∧
    item.state = state ∧ item.counterparty = counterparty

/-- Is an act refused since the persona is not a party, or not the one whose act it is? -/
def RefusedAsStranger (node : ServandaNode) (input : ActInput) : Prop :=
  ∃ reason ∈ [ActRejectionReason.notAParty, .wrongRoleForAct],
    (node.act crypto now input).2 = .ok (.refused reason)

/-- The register of the new key is that of the old one. -/
structure KeepsRegister : Prop where
  listed : ∀ edge ∈ (nodeNew.vault new).edges.values, isParty edge old = true →
    ∀ view ∈ [OpenLoopsView.owe, .waiting, .closed], ∀ state counterparty,
      Appears crypto now nodeOld old view edge.edgeId state counterparty ↔
        Appears crypto now nodeNew new view edge.edgeId state counterparty
  acts : ∀ edge ∈ (nodeNew.vault new).edges.values, isParty edge old = true →
    ∀ input : ActInput, input.id = edge.edgeId → ¬RefusedAsStranger crypto now nodeOld input →
      ¬RefusedAsStranger crypto now nodeNew input
  confirms : ∀ edge ∈ (nodeNew.vault new).edges.values, isParty edge old = true →
    ∀ input : ConfirmInput, input.id = edge.edgeId →
      (nodeOld.confirm crypto now input).2 = .ok .confirmed →
      (nodeNew.confirm crypto now input).2 = .ok .confirmed
  history : ∀ counterparty, (nodeNew.localPairwiseHistory crypto new counterparty).isSome

variable {crypto now old new r nodeOld nodeNew response} {edge : Edge} {s : Subtree}

theorem mem_lineage_of_one (hr : s.rotations.values = [r]) {key : PublicKeyHex} {k : PartyKey}
    (hk : k ∈ partyLineage crypto s key) : k.key = key ∨ key = r.old := by
  rw [partyLineage_apply, maxRotationDepth] at hk
  have hhead := @walk_head (stored crypto s) [key] key 31
  generalize (walk (stored crypto s) (31 + 1) [key] key).1 = chain at hk hhead
  cases chain with
  | nil => exact .inl (congrArg PartyKey.key (List.mem_singleton.mp hk))
  | cons r' rest =>
    have hstored : r' ∈ stored crypto s key := by
      rcases hnext : stored crypto s key with _ | ⟨x, _ | ⟨y, l⟩⟩
      · simp [hnext] at hhead
      · simp only [hnext, List.head?_cons] at hhead
        split_ifs at hhead
        rw [Option.some.inj hhead]
        exact List.mem_cons_self
      · simp [hnext] at hhead
    obtain ⟨hmem, -, hold⟩ := mem_stored.mp hstored
    rw [hr, List.mem_singleton] at hmem
    rw [← hmem]
    exact .inr hold.symm

theorem entry_of_recovered (hedge : edge ∈ (recovered crypto now new r response).edges.values) :
    ∃ entry ∈ response.edges, entry.edge = edge := by
  refine applyRecoverResponse_induction (P := fun s ↦ ∀ edge ∈ s.edges.values,
    ∃ entry ∈ response.edges, entry.edge = edge) (fun edge h ↦ absurd h List.not_mem_nil) ?_ edge hedge
  intro entry hentry s₁ s₂ hbefore hrecovered
  cases hrecovered with
  | unstored => exact hbefore
  | @restored s' hparty hput =>
    rw [edges_appendAll]
    intro other ho
    obtain ⟨-, ⟨held, -, -, rfl⟩ | ⟨-, rfl⟩⟩ := Subtree.putEdge_cases hput
    · exact hbefore other ho
    rcases Directory.mem_values_put.mp ho with rfl | ⟨ho, -⟩
    · exact ⟨entry, hentry, rfl⟩
    · exact hbefore other ho

theorem party_of_recovered (hold : r.old = old) (hedge : edge ∈ (recovered crypto now new r response).edges.values) :
    isParty edge old = true ∨ isParty edge new = true := by
  have hone : (Subtree.empty.putRotation r).rotations.values = [r] := rfl
  refine applyRecoverResponse_induction (P := fun s ↦ ∀ edge ∈ s.edges.values,
    isParty edge old = true ∨ isParty edge new = true) (fun edge h ↦ absurd h List.not_mem_nil) ?_
    edge hedge
  intro entry _ s₁ s₂ hbefore hentry
  cases hentry with
  | unstored => exact hbefore
  | @restored s' hparty hput =>
    rw [edges_appendAll]
    intro other ho
    obtain ⟨-, ⟨held, -, -, rfl⟩ | ⟨-, rfl⟩⟩ := Subtree.putEdge_cases hput
    · exact hbefore other ho
    rcases Directory.mem_values_put.mp ho with rfl | ⟨ho, -⟩
    · rw [isPartyOrSuccessor, Bool.or_eq_true, Bool.or_eq_true] at hparty
      have hside {side : PublicKeyHex} (hany : ((partyLineage crypto (Subtree.empty.putRotation r) side).any
          fun k ↦ k.key == new) = true) : side = new ∨ side = old := by
        obtain ⟨k, hk, hkey⟩ := List.any_eq_true.mp hany
        rcases mem_lineage_of_one hone hk with h | h
        · exact .inl (h.symm.trans (eq_of_beq hkey))
        · exact .inr (h.trans hold)
      simp only [isParty_iff] at hparty ⊢
      rcases hparty with (hparty | howner) | howed
      · exact .inr hparty
      · exact (hside howner).elim (fun h ↦ .inr (.inl h)) fun h ↦ .inl (.inl h)
      · exact (hside howed).elim (fun h ↦ .inr (.inr h)) fun h ↦ .inl (.inr h)
    · exact hbefore other ho

theorem localPairwiseHistory_isSome {node : ServandaNode} {persona counterparty : PublicKeyHex} :
    (node.localPairwiseHistory crypto persona counterparty).isSome ↔
      ∀ edge ∈ (node.vault persona).edges.values, isParty edge persona = true := by
  unfold localPairwiseHistory
  generalize (⟨0, 0, 0, 0, 0⟩ : PairwiseHistory) = counts
  generalize (node.vault persona).edges.values = edges
  induction edges generalizing counts with
  | nil => simp
  | cons edge edges ih =>
    rw [List.foldlM_cons, List.forall_mem_cons]
    by_cases hparty : isParty edge persona = true
    · simp only [hparty, Bool.not_true, Bool.false_eq_true, if_false, true_and]
      split_ifs
      · exact ih counts
      · exact ih _
    · simp [hparty]

theorem edgeItem_state {node : ServandaNode} {persona : PublicKeyHex} {view : OpenLoopsView}
    {asOf : Rfc3339} {item : OpenLoopItem}
    (h : node.edgeItem crypto now persona view asOf edge = some item) :
    item.state = .edge (node.edgeState crypto persona edge).finalState ∧
      item.counterparty = counterpartyOf (some (.persona
        (if edge.owner == persona then edge.owedTo else edge.owner))) := by
  unfold edgeItem at h
  dsimp only at h
  split_ifs at h <;>
  · cases h
    simp_all

theorem exists_view (isOwner : Bool) (state : EffectiveState) :
    ∃ view ∈ [OpenLoopsView.owe, .waiting, .closed], edgeInView view isOwner state = true := by
  by_cases hlive : liveStates.contains state = true
  · cases isOwner with
    | true => exact ⟨.owe, by simp, by simpa [edgeInView] using hlive⟩
    | false => exact ⟨.waiting, by simp, by simpa [edgeInView] using hlive⟩
  · exact ⟨.closed, by simp, by simpa [edgeInView] using hlive⟩

theorem edgeItem_of_appears {node : ServandaNode} {persona : PublicKeyHex} {view : OpenLoopsView}
    {state : ItemState} {counterparty : Option (Counterparty × NameOrigin)}
    (hedge : edge ∈ (node.vault persona).edges.values)
    (h : Appears crypto now node persona view edge.edgeId state counterparty) :
    ∃ item, node.edgeItem crypto now persona view now edge = some item ∧
      item.counterparty = counterparty := by
  obtain ⟨item, hitem, hkind, hid, -, hcounterparty⟩ := h
  rcases mem_itemsFor.mp hitem with ⟨other, ho, hother⟩ | ⟨c, -, hc⟩ | ⟨-, p, -, rfl⟩ | ⟨e, -, he⟩
  · have hsame : other.edgeId = edge.edgeId := (edgeItem_spec hother).2.2.2.1.symm.trans hid
    obtain rfl : other = edge := Directory.name_injOn ho hedge hsame
    exact ⟨item, hother, hcounterparty⟩
  · rw [(commitmentItem_spec hc).2.1] at hkind
    cases hkind
  · cases hkind
  · rw [(expectationItem_spec he).1] at hkind
    cases hkind

theorem not_listed_of_both (h : Restoration crypto now old new r nodeOld nodeNew response)
    (hedge : edge ∈ (nodeNew.vault new).edges.values) (hold : isParty edge old = true)
    (hnew : isParty edge new = true) : ¬∀ view ∈ [OpenLoopsView.owe, .waiting, .closed],
      ∀ state counterparty, Appears crypto now nodeOld old view edge.edgeId state counterparty ↔
        Appears crypto now nodeNew new view edge.edgeId state counterparty := by
  intro hsame
  have hne : old ≠ new := by
    rw [← h.replaced, ← h.successor]
    exact old_ne_new_of_genuine h.genuine
  have hshown : ((nodeNew.vault new).getEdgeMeta edge.edgeId).dismissed = false := by
    rw [h.vault, Subtree.getEdgeMeta, recovered, (SameOwn.recoverResponse response).edgeMeta]
    rfl
  obtain ⟨view, hview, hin⟩ := exists_view (edge.owner == new)
    (nodeNew.edgeState crypto new edge).finalState
  obtain ⟨item, hitem⟩ := @edgeItem_isSome crypto now now nodeNew new view edge hshown hin
  obtain ⟨-, -, hkind, hid, -⟩ := edgeItem_spec hitem
  have hnewAppears : Appears crypto now nodeNew new view edge.edgeId item.state item.counterparty :=
    ⟨item, mem_itemsFor.mpr (.inl ⟨edge, hedge, hitem⟩), hkind, hid, rfl, rfl⟩
  have hedgeOld : edge ∈ (nodeOld.vault old).edges.values := by
    rw [h.vault] at hedge
    obtain ⟨entry, hentry, rfl⟩ := entry_of_recovered hedge
    exact (h.given entry hentry).1
  obtain ⟨item', hitem', hcounterparty⟩ :=
    edgeItem_of_appears hedgeOld ((hsame view hview _ _).mpr hnewAppears)
  rw [(edgeItem_state hitem).2, (edgeItem_state hitem').2] at hcounterparty
  rcases isParty_iff.mp hold with howner | howed <;> rcases isParty_iff.mp hnew with howner' | howed'
  · exact hne (howner.symm.trans howner')
  · simp [howner, howed', counterpartyOf, hne, hne.symm] at hcounterparty
  · simp [howner', howed, counterpartyOf, hne.symm] at hcounterparty
  · exact hne (howed.symm.trans howed')

/-- The register is kept exactly where the old key is a party to nothing that is restored. -/
theorem keepsRegister_iff (h : Restoration crypto now old new r nodeOld nodeNew response) :
    KeepsRegister crypto now old new nodeOld nodeNew ↔
      ∀ edge ∈ (nodeNew.vault new).edges.values, isParty edge old = false := by
  constructor
  · intro hkeeps edge hedge
    by_contra hold
    have hold : isParty edge old = true := by simpa using hold
    have hnew := localPairwiseHistory_isSome.mp (hkeeps.history new) edge hedge
    exact not_listed_of_both h hedge hold hnew (hkeeps.listed edge hedge hold)
  · intro hnone
    have hvacuous {edge : Edge} (hedge : edge ∈ (nodeNew.vault new).edges.values)
        (hold : isParty edge old = true) : False := by
      rw [hnone edge hedge] at hold
      cases hold
    refine ⟨fun edge hedge hold ↦ (hvacuous hedge hold).elim,
      fun edge hedge hold ↦ (hvacuous hedge hold).elim,
      fun edge hedge hold ↦ (hvacuous hedge hold).elim, fun counterparty ↦ ?_⟩
    apply localPairwiseHistory_isSome.mpr
    intro edge hedge
    have hrecovered := hedge
    rw [h.vault] at hrecovered
    rcases party_of_recovered h.replaced hrecovered with hold | hnew
    · exact (hvacuous hedge hold).elim
    · exact hnew

section Recovered

open Sample

def nodeOf (persona : PublicKeyHex) (s : Subtree) : ServandaNode where
  activePersona := persona
  personas := [persona]
  personas_nodup := List.nodup_singleton persona
  label := fun _ ↦ "me"
  vault := fun _ ↦ s
  pending := fun _ ↦ []

def ownerVault : Subtree :=
  { Subtree.empty with
    edges := .put .empty Sample.edge
    files := fun id ↦ if id = Sample.edge.edgeId then [proposal, confirmation] else [] }

def answer : RecoverResponse := ⟨[⟨Sample.edge, [proposal, confirmation]⟩]⟩

def recoveredNode : ServandaNode :=
  nodeOf nextKey (recovered Sample.crypto (date 3 4 9) nextKey ownerRotation answer)

theorem restoration : Restoration Sample.crypto (date 3 4 9) ownerKey nextKey ownerRotation
    (nodeOf ownerKey ownerVault) recoveredNode answer where
  oldActive := rfl
  newActive := rfl
  genuine := by decide +kernel
  replaced := rfl
  successor := rfl
  vault := rfl
  given := by decide +kernel
  whole := by decide +kernel
  accepted := by decide +kernel
  past := by decide +kernel

theorem register_of_the_owner : KeepsRegister Sample.crypto (date 3 4 9) ownerKey nextKey
      (nodeOf ownerKey ownerVault) recoveredNode ↔
    ∀ edge ∈ (recoveredNode.vault nextKey).edges.values, isParty edge ownerKey = false :=
  keepsRegister_iff restoration

/-- The owner's next key recovers the one open promise and loses its side of it. -/
theorem recovered_promise_changes_sides : ¬∀ crypto now old new r nodeOld nodeNew response,
    Restoration crypto now old new r nodeOld nodeNew response →
    KeepsRegister crypto now old new nodeOld nodeNew := by
  intro h
  have hkeeps := h _ _ _ _ _ _ _ _ restoration
  have hview : OpenLoopsView.waiting ∈ [OpenLoopsView.owe, .waiting, .closed] := by simp
  have hsame := hkeeps.listed Sample.edge (by decide +kernel) (by decide +kernel) .waiting hview
    (.edge .opened) (counterpartyOf (some (.persona ownerKey)))
  have hwaiting : Appears Sample.crypto (date 3 4 9) recoveredNode nextKey .waiting
      Sample.edge.edgeId (.edge .opened) (counterpartyOf (some (.persona ownerKey))) := by
    unfold Appears
    decide +kernel
  have hnone : (nodeOf ownerKey ownerVault).itemsFor Sample.crypto (date 3 4 9) ownerKey .waiting
      (date 3 4 9) = [] := by decide +kernel
  obtain ⟨item, hitem, -⟩ := hsame.mpr hwaiting
  rw [hnone] at hitem
  exact List.not_mem_nil hitem

end Recovered

end Servanda.Succession
