import Servanda.Commuting
import Servanda.Effects
import Servanda.Responder

namespace Servanda.Recovery

open Transitions Serve Recon

/-- No assertion is dated before one that stands before it. -/
def Dated (chain : List Assertion) : Prop :=
  chain.Pairwise fun a b ↦ Date.parse a.assertedAt ≤ Date.parse b.assertedAt

instance (chain : List Assertion) : Decidable (Dated chain) :=
  inferInstanceAs (Decidable (chain.Pairwise _))

variable (crypto : Crypto)

/-- The table takes the whole chain in the order of its dates too, and ends where it ended. -/
structure ReadsAlike (edge : Edge) (chain : List Assertion) : Prop where
  accepts : AcceptsAll crypto noRotations none edge (inWireOrder chain)
  state : finalState crypto noRotations none edge (inWireOrder chain) =
    finalState crypto noRotations none edge chain

/-- A party that holds nothing for an edge, and asks a vault that has it with a chain accepted in
full on replay. Neither holds a rotation. -/
structure Asks (held s : Subtree) (edge : Edge) (persona : PublicKeyHex) (now : Rfc3339) :
    Prop where
  stored : held.getEdge edge.edgeId = some edge
  accepted : AcceptsAll crypto (partyLineage crypto held) none edge
    (held.getAssertions edge.edgeId)
  heldUnrotated : held.listRotations = []
  party : isParty edge persona = true
  unrotated : s.listRotations = []
  edgeless : s.getEdge edge.edgeId = none
  chainless : s.getAssertions edge.edgeId = []
  past : ∀ a ∈ held.getAssertions edge.edgeId, Date.parse a.assertedAt ≤ Date.parse now

/-- A response leaves a vault with the edge, its whole chain and its state, refuses nothing of it,
and changes nothing about it when it is applied again. -/
structure Restored (held s : Subtree) (edge : Edge) (persona : PublicKeyHex) (now : Rfc3339)
    (response : RecoverResponse) : Prop where
  restored : edge.edgeId ∈ (applyRecoverResponse crypto s persona now response).2.restored
  undiscarded : ∀ d ∈ (applyRecoverResponse crypto s persona now response).2.discarded,
    d.1 ≠ edge.edgeId
  stored : (applyRecoverResponse crypto s persona now response).1.getEdge edge.edgeId = some edge
  chain : ((applyRecoverResponse crypto s persona now response).1.getAssertions edge.edgeId).Perm
    (held.getAssertions edge.edgeId)
  state : finalState crypto
      (partyLineage crypto (applyRecoverResponse crypto s persona now response).1) none edge
      ((applyRecoverResponse crypto s persona now response).1.getAssertions edge.edgeId) =
    finalState crypto (partyLineage crypto held) none edge (held.getAssertions edge.edgeId)
  again :
    let after := (applyRecoverResponse crypto s persona now response).1
    let again := applyRecoverResponse crypto after persona now response
    again.1.getEdge edge.edgeId = after.getEdge edge.edgeId ∧
      again.1.getAssertions edge.edgeId = after.getAssertions edge.edgeId ∧
      ∀ d ∈ again.2.discarded, d.1 ≠ edge.edgeId

variable {crypto} {held s : Subtree} {edge : Edge} {persona : PublicKeyHex} {now : Rfc3339}
  {lineage : KeyLineage} {chain : List Assertion} {id : Sha256Hex} {entry : RecoverEntry}

/-- Two steps of an applier between which nothing happened to an edge. -/
structure Leaves (id : Sha256Hex) (before after : Subtree × RecoverApplyResult) : Prop where
  edge : after.1.getEdge id = before.1.getEdge id
  files : after.1.files id = before.1.files id
  rotations : after.1.rotations = before.1.rotations
  restored : id ∈ after.2.restored ↔ id ∈ before.2.restored
  discarded : (∀ d ∈ after.2.discarded, d.1 ≠ id) ↔ ∀ d ∈ before.2.discarded, d.1 ≠ id

namespace Leaves

variable {x y z : Subtree × RecoverApplyResult}

theorem refl (x : Subtree × RecoverApplyResult) : Leaves id x x := ⟨rfl, rfl, rfl, .rfl, .rfl⟩

theorem trans (h : Leaves id x y) (h' : Leaves id y z) : Leaves id x z :=
  ⟨h'.edge.trans h.edge, h'.files.trans h.files, h'.rotations.trans h.rotations,
    h'.restored.trans h.restored, h'.discarded.trans h.discarded⟩

theorem getAssertions (h : Leaves id x y) : y.1.getAssertions id = x.1.getAssertions id := by
  rw [Subtree.getAssertions, h.files, Subtree.getAssertions]

end Leaves

theorem forall_discarded_append {l m : List (Sha256Hex × Option ℕ × RecoverDiscard)}
    (h : ∀ d ∈ m, d.1 ≠ id) : (∀ d ∈ l ++ m, d.1 ≠ id) ↔ ∀ d ∈ l, d.1 ≠ id := by
  rw [List.forall_mem_append]
  exact and_iff_left h

theorem discardedOf_edgeId {verdicts : List (Assertion × AssertionOutcome)} {d : DiscardedAssertion}
    (h : d ∈ discardedOf id verdicts) : d.edgeId = id := by
  obtain ⟨v, -, hv⟩ := List.mem_filterMap.mp h
  split_ifs at hv
  obtain ⟨reason, -, rfl⟩ := Option.map_eq_some_iff.mp hv
  rfl

theorem applyRecoverEntry_leaves (h : id ≠ entry.edge.edgeId)
    (acc : Subtree × RecoverApplyResult) :
    Leaves id acc (applyRecoverEntry crypto persona lineage now acc entry) := by
  obtain ⟨s, result⟩ := acc
  obtain ⟨edge, assertions⟩ := entry
  unfold applyRecoverEntry
  dsimp only
  by_cases hparty : isPartyOrSuccessor edge persona lineage = true
  swap
  · rw [if_pos (by simpa using hparty)]
    exact .refl _
  rw [if_neg (by simpa using hparty)]
  cases hbound : edgeBindingFailure crypto s edge with
  | some bound =>
    refine ⟨rfl, rfl, rfl, .rfl, forall_discarded_append ?_⟩
    simpa using h.symm
  | none =>
    dsimp only
    split_ifs with hproposed
    · refine ⟨rfl, rfl, rfl, .rfl, forall_discarded_append ?_⟩
      simpa using h.symm
    cases hput : s.putEdge crypto edge with
    | none => exact .refl _
    | some s' =>
      have hkept : ∀ a ∈ keptOf (judged crypto lineage now edge (s.getAssertions edge.edgeId)
          (incoming (s.getAssertions edge.edgeId) assertions)), a.edgeId = edge.edgeId := by
        intro a ha
        cases hm : edgeMalformed crypto edge with
        | some reason => simp [keptOf_judged_malformed hm] at ha
        | none => exact edgeId_of_accepted (keptOf_judged hm ▸ ha)
      have hput : s'.getEdge id = s.getEdge id ∧ s'.files = s.files ∧
          s'.rotations = s.rotations := by
        obtain ⟨-, ⟨held, -, -, rfl⟩ | ⟨-, rfl⟩⟩ := Subtree.putEdge_cases hput
        · exact ⟨rfl, rfl, rfl⟩
        · exact ⟨Directory.get?_put_of_ne _ h, rfl, rfl⟩
      dsimp only
      rw [appendAll_spec hkept]
      refine ⟨hput.1, ?_, hput.2.2, ?_, forall_discarded_append fun d hd ↦ ?_⟩
      · rw [← hput.2.1]
        exact Function.update_of_ne h _ _
      · rw [List.mem_append, List.mem_singleton]
        exact or_iff_left h
      · obtain ⟨d', hd', rfl⟩ := List.mem_map.mp hd
        rw [discardedOf_edgeId hd']
        exact h.symm

theorem fold_leaves {entries : List RecoverEntry} (h : ∀ e ∈ entries, id ≠ e.edge.edgeId)
    (acc : Subtree × RecoverApplyResult) :
    Leaves id acc (entries.foldl (applyRecoverEntry crypto persona lineage now) acc) := by
  induction entries generalizing acc with
  | nil => exact .refl _
  | cons entry entries ih =>
    obtain ⟨hentry, hentries⟩ := List.forall_mem_cons.mp h
    exact (applyRecoverEntry_leaves hentry acc).trans (ih hentries _)

/-- An answer holds the edge once, with the stored chain. -/
theorem served_split {asked : Rfc3339} {identities : List PublicKeyHex}
    (h : held.getEdge edge.edgeId = some edge) (hparty : isParty edge persona = true)
    (hpersona : persona ∈ identities) :
    ∃ before after, served crypto held asked identities =
        before ++ ⟨edge, held.getAssertions edge.edgeId⟩ :: after ∧
      ∀ e ∈ before ++ after, edge.edgeId ≠ e.edge.edgeId := by
  obtain ⟨hmem, -⟩ := Directory.get?_eq_some_iff.mp h
  obtain ⟨before, after, hvalues⟩ := List.append_of_mem hmem
  have hserves : mayServeEdge crypto held asked persona edge ≠ .refused := by
    rw [mayServeEdge, if_pos (isPartyOrSuccessor_of_isParty hparty _)]
    nofun
  have hanyone : (identities.any (isParty edge)) = true :=
    List.any_eq_true.mpr ⟨_, hpersona, hparty⟩
  have hanyserved : (identities.any fun who ↦
      mayServeEdge crypto held asked who edge ≠ .refused) = true :=
    List.any_eq_true.mpr ⟨_, hpersona, decide_eq_true hserves⟩
  have hsorted := held.edges.sorted
  rw [hvalues, List.pairwise_append, List.pairwise_cons] at hsorted
  obtain ⟨-, ⟨hafter, -⟩, hbefore⟩ := hsorted
  unfold served Subtree.listEdgeIds
  rw [hvalues, List.map_append, List.map_cons, List.filterMap_append, List.filterMap_cons]
  simp only [h, hanyone, hanyserved, Bool.not_true, Bool.false_eq_true, if_false]
  refine ⟨_, _, rfl, fun e he ↦ ?_⟩
  obtain ⟨x, hx, hne⟩ : ∃ x, e.edge.edgeId = x ∧ edge.edgeId ≠ x := by
    rcases List.mem_append.mp he with he | he
    all_goals
      obtain ⟨x, hx, he⟩ := List.mem_filterMap.mp he
      obtain ⟨e', he', rfl⟩ := List.mem_map.mp hx
      split at he
      · cases he
      next hget =>
        split_ifs at he
        cases he
        refine ⟨_, Directory.name_of_get? hget, ?_⟩
        first
          | exact ne_of_gt (hbefore e' he' edge List.mem_cons_self)
          | exact ne_of_lt (hafter e' he')
  exact hx ▸ hne

section Verdicts

variable {clock : Option Rfc3339} {l : List Assertion}

/-- The verdicts on a chain, each beside its assertion. -/
def verdictsOf (crypto : Crypto) (lineage : KeyLineage) (clock : Option Rfc3339) (edge : Edge)
    (l : List Assertion) : List (Assertion × AssertionOutcome) :=
  l.zip (verifyAssertionChain crypto lineage clock edge l).outcomes

theorem length_outcomes :
    (verifyAssertionChain crypto lineage clock edge l).outcomes.length = l.length := by
  unfold verifyAssertionChain
  cases edgeMalformed crypto edge with
  | some reason => exact List.length_mapIdx
  | none => rw [List.length_mapIdx, Replay.verdicts_length]

theorem outcome_of_mem {o : AssertionOutcome}
    (h : o ∈ (verifyAssertionChain crypto lineage clock edge l).outcomes) :
    ∃ i verdict, o = outcome i verdict := by
  unfold verifyAssertionChain at h
  cases hm : edgeMalformed crypto edge with
  | some reason =>
    rw [hm] at h
    obtain ⟨i, -, rfl⟩ := List.mem_mapIdx.mp h
    exact ⟨_, _, rfl⟩
  | none =>
    rw [hm] at h
    obtain ⟨i, -, rfl⟩ := List.mem_mapIdx.mp h
    exact ⟨_, _, rfl⟩

theorem discardedOf_eq_nil : discardedOf edge.edgeId (verdictsOf crypto lineage clock edge l) = [] ↔
    AcceptsAll crypto lineage clock edge l := by
  rw [discardedOf, List.filterMap_eq_nil_iff]
  constructor
  · intro h o ho
    obtain ⟨i, hi, rfl⟩ := List.getElem_of_mem ho
    have hl : i < l.length := length_outcomes ▸ hi
    have hmem : (l[i], (verifyAssertionChain crypto lineage clock edge l).outcomes[i]) ∈
        verdictsOf crypto lineage clock edge l :=
      List.mem_iff_getElem.mpr ⟨i, by simpa [verdictsOf] using ⟨hl, hi⟩, List.getElem_zip⟩
    have hnone := h _ hmem
    obtain ⟨j, verdict, ho⟩ := outcome_of_mem ho
    rw [ho] at hnone ⊢
    cases verdict with
    | none => rfl
    | some reason => cases hnone
  · intro h v hv
    rw [if_pos (h _ (List.of_mem_zip hv).2)]

theorem keptOf_of_accepts (h : AcceptsAll crypto lineage clock edge l) :
    keptOf (verdictsOf crypto lineage clock edge l) = l := by
  have hall : ∀ v ∈ verdictsOf crypto lineage clock edge l, v.2.accepted = true :=
    fun v hv ↦ h _ (List.of_mem_zip hv).2
  rw [keptOf, List.filter_eq_self.mpr hall]
  exact List.map_fst_zip length_outcomes.ge

theorem edgeMalformed_of_accepts (hne : l ≠ []) (h : AcceptsAll crypto lineage clock edge l) :
    edgeMalformed crypto edge = none := by
  obtain ⟨a, l, rfl⟩ := List.exists_cons_of_ne_nil hne
  cases hm : edgeMalformed crypto edge with
  | none => rfl
  | some reason => simp [AcceptsAll, verifyAssertionChain, hm, outcome] at h

theorem edgeId_of_accepts (h : AcceptsAll crypto lineage clock edge l) :
    ∀ a ∈ l, a.edgeId = edge.edgeId := by
  intro a ha
  have hm := edgeMalformed_of_accepts (List.ne_nil_of_mem ha) h
  exact edgeId_of_accepted (((acceptsAll_iff hm).mp h).accepted_eq.symm ▸ ha)

theorem verdictsOf_clock (h : ∀ a ∈ l, Date.parse a.assertedAt ≤ Date.parse now) :
    verifyAssertionChain crypto lineage (some now) edge l =
      verifyAssertionChain crypto lineage none edge l := by
  have hjudge : ∀ ctx, ∀ a ∈ l, judge crypto lineage (some now) edge ctx a =
      judge crypto lineage none edge ctx a := fun ctx a ha ↦ judge_clock (h a ha)
  unfold verifyAssertionChain
  rw [Replay.final_congr hjudge, Replay.verdicts_congr hjudge]

/-- The first assertion of a chain accepted in full is the owner's proposal. -/
theorem proposedByOwner_of_accepts (hne : l ≠ []) (h : AcceptsAll crypto noRotations clock edge l) :
    proposedByOwner edge (verdictsOf crypto noRotations clock edge l) = true := by
  have hm := edgeMalformed_of_accepts hne h
  obtain ⟨a, l, rfl⟩ := List.exists_cons_of_ne_nil hne
  obtain ⟨-, -, -, ha, ho⟩ : _ ∧ _ ∧ _ ∧ a.state = .proposed ∧ a.signer = edge.owner := by
    cases (acceptsAll_iff hm).mp h with
    | cons hj _ => exact acceptsLast_first_iff.mp (acceptsLast_iff.mpr ⟨hm, _, hj⟩)
  have hlength :
      0 < (verifyAssertionChain crypto noRotations clock edge (a :: l)).outcomes.length := by
    rw [length_outcomes]
    exact Nat.succ_pos _
  have hmem : (a, (verifyAssertionChain crypto noRotations clock edge (a :: l)).outcomes[0]) ∈
      verdictsOf crypto noRotations clock edge (a :: l) :=
    List.mem_iff_getElem.mpr ⟨0, by simpa [verdictsOf] using hlength, List.getElem_zip⟩
  refine List.any_eq_true.mpr ⟨_, hmem, ?_⟩
  simp [h _ (List.getElem_mem hlength), ha, ho]

end Verdicts

section Entry

variable {result : RecoverApplyResult}

theorem incoming_nil : incoming [] chain = inWireOrder chain :=
  congrArg inWireOrder (List.filter_eq_self.mpr fun _ _ ↦ rfl)

theorem judged_nil {l : List Assertion} :
    judged crypto lineage now edge [] l = verdictsOf crypto lineage (some now) edge l := rfl

/-- What an applier makes of an edge it holds nothing for. -/
theorem applyRecoverEntry_fresh (hparty : isParty edge persona = true)
    (hbound : crypto.edgeIdBindsBody edge = true) (hedgeless : s.getEdge edge.edgeId = none)
    (hchainless : s.getAssertions edge.edgeId = []) :
    applyRecoverEntry crypto persona lineage now (s, result) ⟨edge, chain⟩ =
      let verdicts := verdictsOf crypto lineage (some now) edge (inWireOrder chain)
      if proposedByOwner edge verdicts then
        (appendAll { s with edges := s.edges.put edge } (keptOf verdicts),
          { restored := result.restored ++ [edge.edgeId]
            discarded := result.discarded ++ (discardedOf edge.edgeId verdicts).map fun d ↦
              (d.edgeId, some d.index, .transitionTable d.reason) })
      else (s, { result with
        discarded :=
          result.discarded ++ [(edge.edgeId, none, .noAcceptedProposalByTheOwner)] }) := by
  have hput : s.putEdge crypto edge = some { s with edges := s.edges.put edge } := by
    simp [Subtree.putEdge, hbound, hedgeless]
  have hbinding : edgeBindingFailure crypto s edge = none :=
    edgeBindingFailure_eq_none_iff.mpr ⟨hbound, by simp [hedgeless]⟩
  simp only [applyRecoverEntry, isPartyOrSuccessor_of_isParty hparty, hbinding, hchainless,
    incoming_nil, judged_nil, hput, List.nil_append, Bool.not_true, Bool.false_eq_true, if_false]
  rw [verdictsOf]
  split_ifs <;> simp_all

/-- And of one it holds with every assertion it is given. -/
theorem applyRecoverEntry_held (hparty : isParty edge persona = true)
    (hbound : crypto.edgeIdBindsBody edge = true) (hedge : s.getEdge edge.edgeId = some edge)
    (hheld : ∀ a ∈ chain, a ∈ s.getAssertions edge.edgeId)
    (hproposed : proposedByOwner edge (verdictsOf crypto lineage (some now) edge
      (s.getAssertions edge.edgeId)) = true) :
    applyRecoverEntry crypto persona lineage now (s, result) ⟨edge, chain⟩ =
      (s, { result with restored := result.restored ++ [edge.edgeId] }) := by
  have hput : s.putEdge crypto edge = some s := by
    simp [Subtree.putEdge, hbound, hedge]
  have hbinding : edgeBindingFailure crypto s edge = none :=
    edgeBindingFailure_eq_none_iff.mpr ⟨hbound, by simp [hedge]⟩
  have hnone : incoming (s.getAssertions edge.edgeId) chain = [] :=
    incoming_eq_nil.mpr fun a ha ↦ List.mem_map_of_mem (hheld a ha)
  rw [verdictsOf] at hproposed
  simp [applyRecoverEntry, isPartyOrSuccessor_of_isParty hparty, hbinding, hput, hnone, hproposed,
    judged, keptOf, discardedOf, appendAll]

/-- An edge without a chain is not taken on the responder's word. -/
theorem applyRecoverEntry_nil (hchainless : s.getAssertions edge.edgeId = []) :
    (applyRecoverEntry crypto persona lineage now (s, result) ⟨edge, []⟩).2.restored =
      result.restored := by
  have hproposed : proposedByOwner edge (([] : List Assertion).zip
      (verifyAssertionChain crypto lineage (some now) edge []).outcomes) = false := rfl
  simp only [applyRecoverEntry, hchainless, incoming_nil, inWireOrder, List.insertionSort_nil,
    List.nil_append, hproposed, Bool.not_false, if_true]
  split_ifs
  · rfl
  · cases edgeBindingFailure crypto s edge <;> rfl

end Entry

theorem applied_around {response : RecoverResponse} {before after : List RecoverEntry}
    (hsplit : response.edges = before ++ entry :: after)
    (hothers : ∀ e ∈ before ++ after, entry.edge.edgeId ≠ e.edge.edgeId) :
    ∃ x, Leaves entry.edge.edgeId (s, ⟨[], []⟩) x ∧
      Leaves entry.edge.edgeId
        (applyRecoverEntry crypto persona (partyLineage crypto s) now x entry)
        (applyRecoverResponse crypto s persona now response) := by
  obtain ⟨hbefore, hafter⟩ := List.forall_mem_append.mp hothers
  refine ⟨before.foldl (applyRecoverEntry crypto persona (partyLineage crypto s) now) (s, ⟨[], []⟩),
    fold_leaves hbefore _, ?_⟩
  rw [applyRecoverResponse, hsplit, List.foldl_append, List.foldl_cons]
  exact fold_leaves hafter _

theorem listRotations_leaves {x y : Subtree × RecoverApplyResult} (h : Leaves id x y) :
    y.1.listRotations = x.1.listRotations := by
  rw [Subtree.listRotations, h.rotations, Subtree.listRotations]

theorem length_inWireOrder : (inWireOrder chain).length = chain.length :=
  (List.perm_insertionSort _ chain).length_eq

theorem inWireOrder_of_dated (h : Dated chain) : inWireOrder chain = chain := h.insertionSort_eq

theorem readsAlike_of_dated (h : Dated chain)
    (haccepts : AcceptsAll crypto noRotations none edge chain) : ReadsAlike crypto edge chain := by
  constructor
  · rwa [inWireOrder_of_dated h]
  · rw [inWireOrder_of_dated h]

/-- The vault in which an edge and its chain have been put. -/
def withChain (t : Subtree) (edge : Edge) (l : List Assertion) : Subtree :=
  appendAll { t with edges := t.edges.put edge } l

theorem getEdge_withChain (t : Subtree) (l : List Assertion) :
    (withChain t edge l).getEdge edge.edgeId = some edge := by
  rw [withChain, Subtree.getEdge, edges_appendAll]
  exact Directory.get?_put_self _ _

theorem getAssertions_withChain {t : Subtree} {l : List Assertion}
    (h : ∀ a ∈ l, a.edgeId = edge.edgeId) (hchainless : t.getAssertions edge.edgeId = [])
    (hroom : l.length ≤ 10000) : (withChain t edge l).getAssertions edge.edgeId = l := by
  have hnil : ({ t with edges := t.edges.put edge } : Subtree).getAssertions edge.edgeId = [] :=
    hchainless
  have hlength : (({ t with edges := t.edges.put edge } : Subtree).getAssertions
      edge.edgeId).length + l.length ≤ 10000 := by
    rw [hnil, List.length_nil]
    omega
  rw [withChain, getAssertions_appendAll h hlength, hnil, List.nil_append]

theorem listRotations_withChain {t : Subtree} {l : List Assertion}
    (h : ∀ a ∈ l, a.edgeId = edge.edgeId) :
    (withChain t edge l).listRotations = t.listRotations := by
  rw [withChain, appendAll_spec h]
  rfl

/-- An edge whose chain the table takes in the order of its dates. -/
theorem applyRecoverEntry_alike {t : Subtree} {result : RecoverApplyResult}
    (hparty : isParty edge persona = true) (hedgeless : t.getEdge edge.edgeId = none)
    (hchainless : t.getAssertions edge.edgeId = []) (hne : inWireOrder chain ≠ [])
    (haccepts : AcceptsAll crypto noRotations (some now) edge (inWireOrder chain)) :
    applyRecoverEntry crypto persona noRotations now (t, result) ⟨edge, chain⟩ =
      (withChain t edge (inWireOrder chain),
        { result with restored := result.restored ++ [edge.edgeId] }) := by
  have hbound := (edgeMalformed_eq_none_iff.mp (edgeMalformed_of_accepts hne haccepts)).1
  rw [applyRecoverEntry_fresh hparty hbound hedgeless hchainless]
  dsimp only
  rw [if_pos (proposedByOwner_of_accepts hne haccepts), keptOf_of_accepts haccepts,
    discardedOf_eq_nil.mpr haccepts, List.map_nil, List.append_nil]
  rfl

variable {response : RecoverResponse} {before after : List RecoverEntry}

theorem readsAlike_of_restored (h : Asks crypto held s edge persona now)
    (hroom : (held.getAssertions edge.edgeId).length ≤ 10000)
    (hsplit : response.edges = before ++ ⟨edge, held.getAssertions edge.edgeId⟩ :: after)
    (hothers : ∀ e ∈ before ++ after, edge.edgeId ≠ e.edge.edgeId)
    (hrestored : Restored crypto held s edge persona now response) :
    held.getAssertions edge.edgeId ≠ [] ∧
      ReadsAlike crypto edge (held.getAssertions edge.edgeId) := by
  obtain ⟨⟨t, result⟩, hx, hy⟩ := applied_around hsplit hothers
  have hedgeless : t.getEdge edge.edgeId = none := hx.edge.trans h.edgeless
  have hchainless : t.getAssertions edge.edgeId = [] := hx.getAssertions.trans h.chainless
  have hnot : edge.edgeId ∉ result.restored := fun hmem ↦ by simpa using hx.restored.mp hmem
  have hne : held.getAssertions edge.edgeId ≠ [] := by
    intro hnil
    have hmem := hy.restored.mp hrestored.restored
    rw [hnil, applyRecoverEntry_nil hchainless] at hmem
    exact hnot hmem
  refine ⟨hne, ?_⟩
  have hbound := (edgeMalformed_eq_none_iff.mp (edgeMalformed_of_accepts hne h.accepted)).1
  have hlineage : partyLineage crypto s = noRotations := partyLineage_eq_noRotations h.unrotated
  have hdates : ∀ a ∈ inWireOrder (held.getAssertions edge.edgeId),
      Date.parse a.assertedAt ≤ Date.parse now :=
    fun a ha ↦ h.past a ((List.mem_insertionSort _).mp ha)
  rw [hlineage, applyRecoverEntry_fresh h.party hbound hedgeless hchainless] at hy
  dsimp only at hy
  split_ifs at hy with hproposed
  · have hkept := hy.discarded.mp hrestored.undiscarded
    have hnil : discardedOf edge.edgeId (verdictsOf crypto noRotations (some now) edge
        (inWireOrder (held.getAssertions edge.edgeId))) = [] := by
      by_contra hsome
      obtain ⟨d, hd⟩ := List.exists_mem_of_ne_nil _ hsome
      exact hkept _ (List.mem_append_right _ (List.mem_map_of_mem hd))
        (discardedOf_edgeId hd)
    have haccepts := discardedOf_eq_nil.mp hnil
    have habout := edgeId_of_accepts haccepts
    rw [keptOf_of_accepts haccepts] at hy
    have hstored : (applyRecoverResponse crypto s persona now response).1.getAssertions
        edge.edgeId = inWireOrder (held.getAssertions edge.edgeId) :=
      hy.getAssertions.trans (getAssertions_withChain habout hchainless
        (length_inWireOrder.trans_le hroom))
    have hunrotated : (applyRecoverResponse crypto s persona now response).1.listRotations = [] :=
      (listRotations_leaves hy).trans ((listRotations_withChain habout).trans
        ((listRotations_leaves hx).trans h.unrotated))
    have hstate := hrestored.state
    rw [hstored, partyLineage_eq_noRotations hunrotated,
      partyLineage_eq_noRotations h.heldUnrotated] at hstate
    refine ⟨?_, hstate⟩
    rwa [AcceptsAll, verdictsOf_clock hdates] at haccepts
  · have hkept := hy.discarded.mp hrestored.undiscarded
    exact absurd rfl (hkept _ (List.mem_append_right _ (List.mem_singleton_self _)))

theorem restored_of_readsAlike (h : Asks crypto held s edge persona now)
    (hroom : (held.getAssertions edge.edgeId).length ≤ 10000)
    (hsplit : response.edges = before ++ ⟨edge, held.getAssertions edge.edgeId⟩ :: after)
    (hothers : ∀ e ∈ before ++ after, edge.edgeId ≠ e.edge.edgeId)
    (hne : held.getAssertions edge.edgeId ≠ [])
    (halike : ReadsAlike crypto edge (held.getAssertions edge.edgeId)) :
    Restored crypto held s edge persona now response := by
  have hperm := List.perm_insertionSort
    (fun a b : Assertion ↦ Date.parse a.assertedAt ≤ Date.parse b.assertedAt)
    (held.getAssertions edge.edgeId)
  have hdates : ∀ a ∈ inWireOrder (held.getAssertions edge.edgeId),
      Date.parse a.assertedAt ≤ Date.parse now := fun a ha ↦ h.past a (hperm.mem_iff.mp ha)
  have haccepts : AcceptsAll crypto noRotations (some now) edge
      (inWireOrder (held.getAssertions edge.edgeId)) := by
    rw [AcceptsAll, verdictsOf_clock hdates]
    exact halike.accepts
  have hne' : inWireOrder (held.getAssertions edge.edgeId) ≠ [] := fun hnil ↦
    hne (List.Perm.eq_nil (hnil ▸ hperm.symm))
  have habout := edgeId_of_accepts haccepts
  have hbound := (edgeMalformed_eq_none_iff.mp (edgeMalformed_of_accepts hne' haccepts)).1
  obtain ⟨⟨t, result⟩, hx, hy⟩ := applied_around hsplit hothers
  have hchainless : t.getAssertions edge.edgeId = [] := hx.getAssertions.trans h.chainless
  rw [partyLineage_eq_noRotations h.unrotated, applyRecoverEntry_alike h.party
    (hx.edge.trans h.edgeless) hchainless hne' haccepts] at hy
  generalize happlied : applyRecoverResponse crypto s persona now response = applied at hy
  have hedge : applied.1.getEdge edge.edgeId = some edge := hy.edge.trans (getEdge_withChain t _)
  have hchain : applied.1.getAssertions edge.edgeId =
      inWireOrder (held.getAssertions edge.edgeId) :=
    hy.getAssertions.trans (getAssertions_withChain habout hchainless
      (length_inWireOrder.trans_le hroom))
  have hunrotated : partyLineage crypto applied.1 = noRotations :=
    partyLineage_eq_noRotations ((listRotations_leaves hy).trans
      ((listRotations_withChain habout).trans ((listRotations_leaves hx).trans h.unrotated)))
  constructor
  · rw [happlied]
    exact hy.restored.mpr (List.mem_append_right _ (List.mem_singleton_self _))
  · rw [happlied]
    refine hy.discarded.mpr (hx.discarded.mpr ?_)
    simp
  · rw [happlied]
    exact hedge
  · rw [happlied, hchain]
    exact hperm
  · rw [happlied, hunrotated, partyLineage_eq_noRotations h.heldUnrotated, hchain]
    exact halike.state
  · obtain ⟨⟨t', result'⟩, hx', hy'⟩ :=
      @applied_around crypto applied.1 persona now _ response before after hsplit hothers
    have hchain' : t'.getAssertions edge.edgeId = inWireOrder (held.getAssertions edge.edgeId) :=
      hx'.getAssertions.trans hchain
    have hheld : ∀ a ∈ held.getAssertions edge.edgeId, a ∈ t'.getAssertions edge.edgeId :=
      fun a ha ↦ hchain' ▸ hperm.mem_iff.mpr ha
    rw [hunrotated, applyRecoverEntry_held h.party hbound (hx'.edge.trans hedge) hheld
      (hchain' ▸ proposedByOwner_of_accepts hne' haccepts)] at hy'
    rw [happlied]
    refine ⟨hy'.edge.trans hx'.edge, hy'.getAssertions.trans hx'.getAssertions, ?_⟩
    refine hy'.discarded.mpr (hx'.discarded.mpr ?_)
    simp

/-- An answer restores an edge that its asker lost exactly where the table, reading the stored
chain in the order of its dates, takes all of it to the same state. It does where no assertion is
dated before one stored before it. -/
theorem restores_dated_chain {responder spent : RecoveryResponder} {request : RecoverRequest}
    {asked : Rfc3339} {predecessor : Option PublicKeyHex}
    (hanswer : answer crypto held asked responder request =
      (spent, .verified persona predecessor, response))
    (h : Asks crypto held s edge persona now)
    (hroom : (held.getAssertions edge.edgeId).length ≤ 10000) :
    (held.getAssertions edge.edgeId ≠ [] → Dated (held.getAssertions edge.edgeId) →
      Restored crypto held s edge persona now response) ∧
    (Restored crypto held s edge persona now response ↔ held.getAssertions edge.edgeId ≠ [] ∧
      ReadsAlike crypto edge (held.getAssertions edge.edgeId)) := by
  have hresponse : response = ⟨served crypto held asked (persona :: predecessor.toList)⟩ := by
    unfold answer at hanswer
    split at hanswer
    · cases hanswer
    · cases hanswer
      rfl
  obtain ⟨before, after, hsplit, hothers⟩ :=
    @served_split crypto held edge persona asked (persona :: predecessor.toList) h.stored h.party
      List.mem_cons_self
  have hsplit : response.edges = before ++ ⟨edge, held.getAssertions edge.edgeId⟩ :: after := by
    rw [hresponse, hsplit]
  have haccepted := h.accepted
  rw [partyLineage_eq_noRotations h.heldUnrotated] at haccepted
  constructor
  · intro hne hdated
    exact restored_of_readsAlike h hroom hsplit hothers hne (readsAlike_of_dated hdated haccepted)
  · constructor
    · exact readsAlike_of_restored h hroom hsplit hothers
    · intro ⟨hne, halike⟩
      exact restored_of_readsAlike h hroom hsplit hothers hne halike

section Asked

open Sample

def vaultOf (chain : List Assertion) : Subtree := withChain .empty Sample.edge chain

def challenger : RecoveryResponder := (RecoveryResponder.new.issueChallenge 0).1

def challenged : RecoverRequest where
  persona := creditorKey
  challenge := some (RecoveryResponder.new.issueChallenge 0).2
  sig := some "signed"
  rotation := none

/-- Signed by a creditor whose clock is an hour behind the owner's. -/
def earlyConfirmation : Assertion := act .confirmed creditorKey (date 3 1 8) none
  0x2c1f5a90c3a04e0ce5c2d8a7f3f1be7a6a0c7a3b27a2d55c2f0b7f0b6d2e0a41f6e0f2f04c1db54e3ab3c1c4fd5f61c0e7a55f0e6d2e0a41f6e0f2f04c1db500

def answered (chain : List Assertion) : RecoverResponse :=
  (answer Sample.crypto (vaultOf chain) (date 4 1 0) challenger challenged).2.2

theorem agreed_chain_restored : Restored Sample.crypto (vaultOf [proposal, confirmation]) .empty
    Sample.edge creditorKey (date 4 1 0) (answered [proposal, confirmation]) := by
  have hverified : (answer Sample.crypto (vaultOf [proposal, confirmation]) (date 4 1 0) challenger
      challenged).2.1 = .verified creditorKey none := by decide +kernel
  have hasks : Asks Sample.crypto (vaultOf [proposal, confirmation]) .empty Sample.edge creditorKey
      (date 4 1 0) :=
    ⟨by decide +kernel, by decide +kernel, rfl, rfl, rfl, rfl, rfl, by decide +kernel⟩
  have hanswer : answer Sample.crypto (vaultOf [proposal, confirmation]) (date 4 1 0) challenger
      challenged = ((answer Sample.crypto (vaultOf [proposal, confirmation]) (date 4 1 0) challenger
        challenged).1, .verified creditorKey none, answered [proposal, confirmation]) := by
    rw [← hverified]
    rfl
  exact (restores_dated_chain hanswer hasks (by decide +kernel)).1 (by decide +kernel)
    (by decide +kernel)

/-- The confirmation precedes the proposal in the order of the dates, and is refused there. -/
theorem early_confirmation_not_restored :
    (answer Sample.crypto (vaultOf [proposal, earlyConfirmation]) (date 4 1 0) challenger
        challenged).2.1 = .verified creditorKey none ∧
      Asks Sample.crypto (vaultOf [proposal, earlyConfirmation]) .empty Sample.edge creditorKey
        (date 4 1 0) ∧
      ¬Restored Sample.crypto (vaultOf [proposal, earlyConfirmation]) .empty Sample.edge creditorKey
        (date 4 1 0) (answered [proposal, earlyConfirmation]) := by
  refine ⟨by decide +kernel, ⟨by decide +kernel, by decide +kernel, rfl, rfl, rfl, rfl, rfl,
    by decide +kernel⟩, fun h ↦ ?_⟩
  have hdiscarded : ∃ d ∈ (applyRecoverResponse Sample.crypto .empty creditorKey (date 4 1 0)
      (answered [proposal, earlyConfirmation])).2.discarded, d.1 = Sample.edge.edgeId := by
    decide +kernel
  obtain ⟨d, hd, hid⟩ := hdiscarded
  exact h.undiscarded d hd hid

end Asked

end Servanda.Recovery
