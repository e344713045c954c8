import Servanda.Node
import Servanda.Settlement

namespace Servanda

open Calendar Transitions

namespace Subtree

def deleteCommitmentPlaintext (s : Subtree) (commitmentHash : Sha256Hex) : Subtree × Bool :=
  ({ s with commitments := s.commitments.remove commitmentHash },
    (s.getCommitment commitmentHash).isSome)

end Subtree

namespace Retention

structure RetentionResult where
  deletedPlaintext : List Sha256Hex
  preservedEdges : List Sha256Hex
  skippedWithinWindow : List Sha256Hex

/-- What the caller answers about an edge: its state, and when that was reached. -/
abbrev EdgeStateResolver := Sha256Hex → EffectiveState × Option Rfc3339

variable (resolve : EdgeStateResolver) (now : Rfc3339) (windowMs : ℚ)

def retainEdge (acc : Subtree × RetentionResult) (edgeId : Sha256Hex) :
    Subtree × RetentionResult :=
  let (s, result) := acc
  match s.getEdge edgeId with
  | none => (s, result)
  | some edge =>
    let result := { result with preservedEdges := result.preservedEdges ++ [edgeId] }
    match resolve edgeId with
    | (_, none) => (s, result)
    | (state, some resolvedAt) =>
      if !terminalStates.contains state then (s, result)
      else if ((Date.parse now - Date.parse resolvedAt : ℤ) : ℚ) < windowMs then
        (s, { result with skippedWithinWindow := result.skippedWithinWindow ++ [edgeId] })
      else match s.deleteCommitmentPlaintext edge.commitmentHash with
        | (s, false) => (s, result)
        | (s, true) =>
          (s.putEdgeMeta edgeId
              { dismissed := (s.getEdgeMeta edgeId).dismissed, plaintextDeletedAt := some now },
            { result with deletedPlaintext := result.deletedPlaintext ++ [edge.commitmentHash] })

def runRetention (retentionDays : ℚ) (s : Subtree) : Subtree × RetentionResult :=
  s.listEdgeIds.foldl (retainEdge resolve now (binary64 (retentionDays * 86400000))) (s, ⟨[], [], []⟩)

/-- Is the edge at an end that the window has run from? -/
def pastWindow (edgeId : Sha256Hex) : Bool :=
  terminalStates.contains (resolve edgeId).1 && (resolve edgeId).2.any fun resolvedAt ↦
    decide (windowMs ≤ ((Date.parse now - Date.parse resolvedAt : ℤ) : ℚ))

/-- One edge of the pass, as the vault sees it: past the window its plaintext goes, and the edge
that sees it go remembers when. -/
def sweep (s : Subtree) (edge : Edge) : Subtree :=
  if pastWindow resolve now windowMs edge.edgeId ∧ (s.getCommitment edge.commitmentHash).isSome then
    { s with commitments := s.commitments.remove edge.commitmentHash }.putEdgeMeta edge.edgeId
      { s.getEdgeMeta edge.edgeId with plaintextDeletedAt := some now }
  else s

variable {resolve now windowMs} {s : Subtree} {edge : Edge} {result : RetentionResult}

theorem remove_of_absent {h : Sha256Hex} (habsent : s.getCommitment h = none) :
    ({ s with commitments := s.commitments.remove h } : Subtree) = s := by
  have hget : s.commitments.get? h = none := by simpa [Subtree.getCommitment] using habsent
  have hremove : s.commitments.remove h = s.commitments := by
    apply Directory.ext_mem
    intro c
    rw [Directory.mem_values_remove]
    exact ⟨And.left, fun hc ↦ ⟨hc, Directory.get?_eq_none_iff.mp hget c hc⟩⟩
  rw [hremove]

theorem retainEdge_vault (hget : s.getEdge edge.edgeId = some edge) :
    (retainEdge resolve now windowMs (s, result) edge.edgeId).1 = sweep resolve now windowMs s edge := by
  unfold retainEdge sweep pastWindow
  simp only [hget]
  cases hresolve : resolve edge.edgeId with
  | mk state resolvedAt =>
  cases resolvedAt with
  | none => simp
  | some resolvedAt =>
  by_cases hterminal : state ∈ terminalStates
  swap
  · simp [hterminal]
  by_cases hwindow : windowMs ≤ (Date.parse now : ℚ) - Date.parse resolvedAt
  swap
  · simp [hterminal, not_le.mp hwindow, hwindow]
  cases hplain : s.getCommitment edge.commitmentHash with
  | none =>
    simp [hterminal, not_lt.mpr hwindow, Subtree.deleteCommitmentPlaintext, hplain,
      remove_of_absent hplain]
  | some c =>
    simp [hterminal, hwindow, not_lt.mpr hwindow, Subtree.deleteCommitmentPlaintext, hplain,
      Subtree.getEdgeMeta]

theorem sweep_edges : (sweep resolve now windowMs s edge).edges = s.edges := by
  unfold sweep
  split_ifs <;> rfl

theorem runRetention_vault {retentionDays : ℚ} : (runRetention resolve now retentionDays s).1 =
    s.edges.values.foldl (sweep resolve now (binary64 (retentionDays * 86400000))) s := by
  have hfold (edges : List Edge) : ∀ acc : Subtree × RetentionResult, acc.1.edges = s.edges →
      (∀ edge ∈ edges, s.getEdge edge.edgeId = some edge) →
      ((edges.map Edge.edgeId).foldl
          (retainEdge resolve now (binary64 (retentionDays * 86400000))) acc).1 =
        edges.foldl (sweep resolve now (binary64 (retentionDays * 86400000))) acc.1 := by
    induction edges with
    | nil => exact fun _ _ _ ↦ rfl
    | cons edge edges ih =>
      intro acc hacc hget
      obtain ⟨hedge, hedges⟩ := List.forall_mem_cons.mp hget
      have hstep := @retainEdge_vault resolve now (binary64 (retentionDays * 86400000)) acc.1 edge
        acc.2
        (by rw [Subtree.getEdge, hacc]; exact hedge)
      rw [List.map_cons, List.foldl_cons, List.foldl_cons, ← hstep]
      refine ih _ ?_ hedges
      rw [hstep, sweep_edges, hacc]
  exact hfold s.edges.values (s, ⟨[], [], []⟩) rfl fun edge hedge ↦
    Directory.get?_eq_some_iff.mpr ⟨hedge, rfl⟩

section Sweep

variable {l : List Edge} {h id : Sha256Hex}

theorem getCommitment_remove (s : Subtree) (h' h : Sha256Hex) :
    ({ s with commitments := s.commitments.remove h' } : Subtree).getCommitment h =
      if h' = h then none else s.getCommitment h := by
  unfold Subtree.getCommitment
  split_ifs with heq
  · rw [heq, Directory.get?_remove_self]
    rfl
  · rw [Directory.get?_remove_of_ne _ (Ne.symm heq)]

theorem getCommitment_sweep : (sweep resolve now windowMs s edge).getCommitment h =
    if pastWindow resolve now windowMs edge.edgeId ∧ edge.commitmentHash = h then none
    else s.getCommitment h := by
  have hremove := getCommitment_remove s edge.commitmentHash h
  unfold sweep
  by_cases hpast : pastWindow resolve now windowMs edge.edgeId = true
  swap
  · simp [hpast]
  cases hplain : s.getCommitment edge.commitmentHash with
  | none =>
    by_cases hh : edge.commitmentHash = h
    · subst hh
      simp [hpast, hplain]
    · simp [hpast, hh]
  | some c =>
    simp only [hpast, Option.isSome_some, and_self, if_true, true_and]
    rw [← hremove]
    rfl

theorem getCommitment_sweeps : (l.foldl (sweep resolve now windowMs) s).getCommitment h =
    if ∃ edge ∈ l, pastWindow resolve now windowMs edge.edgeId = true ∧ edge.commitmentHash = h
    then none else s.getCommitment h := by
  induction l generalizing s with
  | nil => simp
  | cons edge l ih =>
    rw [List.foldl_cons, ih, getCommitment_sweep]
    by_cases hl : ∃ edge ∈ l, pastWindow resolve now windowMs edge.edgeId = true ∧
        edge.commitmentHash = h
    · simp [hl]
    · simp only [hl, if_false, List.exists_mem_cons_iff, or_false]

theorem files_sweeps : (l.foldl (sweep resolve now windowMs) s).files = s.files := by
  induction l generalizing s with
  | nil => rfl
  | cons edge l ih =>
    rw [List.foldl_cons, ih]
    unfold sweep
    split_ifs <;> rfl

theorem edges_sweeps : (l.foldl (sweep resolve now windowMs) s).edges = s.edges := by
  induction l generalizing s with
  | nil => rfl
  | cons edge l ih => rw [List.foldl_cons, ih, sweep_edges]

theorem dismissed_sweeps : ((l.foldl (sweep resolve now windowMs) s).getEdgeMeta id).dismissed =
    (s.getEdgeMeta id).dismissed := by
  induction l generalizing s with
  | nil => rfl
  | cons edge l ih =>
    rw [List.foldl_cons, ih]
    unfold sweep
    split_ifs
    · by_cases hid : id = edge.edgeId
      · simp [Subtree.getEdgeMeta, Subtree.putEdgeMeta, hid]
      · simp [Subtree.getEdgeMeta, Subtree.putEdgeMeta, hid]
    · rfl

theorem getEdgeMeta_sweeps_of_notMem (hid : ∀ edge ∈ l, edge.edgeId ≠ id) :
    (l.foldl (sweep resolve now windowMs) s).getEdgeMeta id = s.getEdgeMeta id := by
  induction l generalizing s with
  | nil => rfl
  | cons edge l ih =>
    obtain ⟨hedge, hl⟩ := List.forall_mem_cons.mp hid
    rw [List.foldl_cons, ih hl]
    unfold sweep
    split_ifs
    · simp [Subtree.getEdgeMeta, Subtree.putEdgeMeta, hedge.symm]
    · rfl

/-- An edge is marked by the pass when it is past the window and the first to find the plaintext. -/
theorem plaintextDeletedAt_sweeps {before after : List Edge}
    (hnodup : ((before ++ edge :: after).map Edge.edgeId).Nodup) :
    (((before ++ edge :: after).foldl (sweep resolve now windowMs) s).getEdgeMeta
        edge.edgeId).plaintextDeletedAt =
      if pastWindow resolve now windowMs edge.edgeId = true ∧
          (s.getCommitment edge.commitmentHash).isSome = true ∧
          ∀ other ∈ before, pastWindow resolve now windowMs other.edgeId = true →
            other.commitmentHash ≠ edge.commitmentHash then some now
      else (s.getEdgeMeta edge.edgeId).plaintextDeletedAt := by
  have hbefore : ∀ other ∈ before, other.edgeId ≠ edge.edgeId := by
    intro other ho heq
    rw [List.map_append, List.map_cons] at hnodup
    exact List.disjoint_of_nodup_append hnodup (List.mem_map_of_mem ho) (heq ▸ List.mem_cons_self)
  have hafter : ∀ other ∈ after, other.edgeId ≠ edge.edgeId := by
    intro other ho heq
    rw [List.map_append, List.map_cons] at hnodup
    have hnotMem := (List.nodup_cons.mp hnodup.of_append_right).1
    exact hnotMem (heq ▸ List.mem_map_of_mem ho)
  rw [List.foldl_append, List.foldl_cons, getEdgeMeta_sweeps_of_notMem hafter]
  have hplain := @getCommitment_sweeps resolve now windowMs s before edge.commitmentHash
  have hmeta := @getEdgeMeta_sweeps_of_notMem resolve now windowMs s _ _ hbefore
  generalize before.foldl (sweep resolve now windowMs) s = found at hplain hmeta ⊢
  unfold sweep
  rw [hplain]
  by_cases hpast : pastWindow resolve now windowMs edge.edgeId = true
  swap
  · simp [hpast, hmeta]
  by_cases hearlier : ∃ other ∈ before, pastWindow resolve now windowMs other.edgeId = true ∧
      other.commitmentHash = edge.commitmentHash
  · have hnot : ¬∀ other ∈ before, pastWindow resolve now windowMs other.edgeId = true →
        other.commitmentHash ≠ edge.commitmentHash := by
      obtain ⟨other, ho, hp, heq⟩ := hearlier
      exact fun hall ↦ hall other ho hp heq
    simp [hearlier, hnot, hmeta]
  · cases hc : s.getCommitment edge.commitmentHash with
    | none => simp [hearlier, hmeta]
    | some c => simp [hearlier, hpast, Subtree.getEdgeMeta, Subtree.putEdgeMeta]

theorem sweeps_eq_self (hgone : ∀ edge ∈ l, pastWindow resolve now windowMs edge.edgeId = true →
    s.getCommitment edge.commitmentHash = none) : l.foldl (sweep resolve now windowMs) s = s := by
  induction l with
  | nil => rfl
  | cons edge l ih =>
    obtain ⟨hedge, hl⟩ := List.forall_mem_cons.mp hgone
    have hnone : ¬(pastWindow resolve now windowMs edge.edgeId = true ∧
        (s.getCommitment edge.commitmentHash).isSome = true) := by
      intro ⟨hpast, hsome⟩
      rw [hedge hpast] at hsome
      cases hsome
    rw [List.foldl_cons, sweep, if_neg hnone]
    exact ih hl

end Sweep

section Pass

variable (crypto : Crypto) (keyLineage : KeyLineage) (clock : Option Rfc3339) (now : Rfc3339)
  (retentionDays : ℚ) (resolve : EdgeStateResolver) (s : Subtree)

def verified (edge : Edge) : ChainVerification :=
  verifyAssertionChain crypto keyLineage clock edge (s.getAssertions edge.edgeId)

/-- The resolver says of every edge what the table says of its chain. -/
def Agrees : Prop := ∀ edge ∈ s.edges.values, resolve edge.edgeId =
  ((verified crypto keyLineage clock s edge).finalState,
    (verified crypto keyLineage clock s edge).resolvedAt)

/-- The edge is in a terminal state that it reached at least the window ago. -/
def Settled (edge : Edge) : Prop :=
  (verified crypto keyLineage clock s edge).finalState ∈ terminalStates ∧
    ∃ resolvedAt, (verified crypto keyLineage clock s edge).resolvedAt = some resolvedAt ∧
      binary64 (retentionDays * 86400000) ≤ ((Date.parse now - Date.parse resolvedAt : ℤ) : ℚ)

/-- The pass deletes the words of settled promises alone, marks each edge whose words it deleted,
and leaves everything else, the second time the words too. -/
structure KeepsLiveWords : Prop where
  settled : ∀ h, (s.getCommitment h).isSome = true →
    (runRetention resolve now retentionDays s).1.getCommitment h = none →
    ∀ edge ∈ s.edges.values, edge.commitmentHash = h →
      Settled crypto keyLineage clock now retentionDays s edge
  bodies : (runRetention resolve now retentionDays s).1.edges = s.edges
  chains : (runRetention resolve now retentionDays s).1.files = s.files
  dismissals : ∀ id, ((runRetention resolve now retentionDays s).1.getEdgeMeta id).dismissed =
    (s.getEdgeMeta id).dismissed
  again : (runRetention resolve now retentionDays
      (runRetention resolve now retentionDays s).1).1 =
    (runRetention resolve now retentionDays s).1
  marked : ∀ edge ∈ s.edges.values, Settled crypto keyLineage clock now retentionDays s edge →
    (s.getCommitment edge.commitmentHash).isSome = true →
    ((runRetention resolve now retentionDays s).1.getEdgeMeta
      edge.edgeId).plaintextDeletedAt.isSome = true

/-- A settled edge shares words that are still there with settled edges alone, and those listed
behind it bear the mark already. -/
def SharesNoLiveWords : Prop := ∀ edge ∈ s.edges.values, ∀ other ∈ s.edges.values, edge ≠ other →
  edge.commitmentHash = other.commitmentHash → (s.getCommitment edge.commitmentHash).isSome = true →
  Settled crypto keyLineage clock now retentionDays s edge →
  Settled crypto keyLineage clock now retentionDays s other ∧
    (edge.edgeId < other.edgeId → (s.getEdgeMeta other.edgeId).plaintextDeletedAt.isSome = true)

variable {crypto keyLineage clock now retentionDays resolve s}

theorem Agrees.pastWindow_iff (h : Agrees crypto keyLineage clock resolve s)
    (hedge : edge ∈ s.edges.values) :
    pastWindow resolve now (binary64 (retentionDays * 86400000)) edge.edgeId = true ↔
      Settled crypto keyLineage clock now retentionDays s edge := by
  unfold pastWindow Settled
  rw [h edge hedge]
  simp only [Bool.and_eq_true, List.contains_iff_mem, Option.any_eq_true, decide_eq_true_eq]

theorem Agrees.getCommitment (h : Agrees crypto keyLineage clock resolve s) {hash : Sha256Hex} :
    (runRetention resolve now retentionDays s).1.getCommitment hash = none ↔
      s.getCommitment hash = none ∨ ∃ edge ∈ s.edges.values, edge.commitmentHash = hash ∧
        Settled crypto keyLineage clock now retentionDays s edge := by
  rw [runRetention_vault, getCommitment_sweeps]
  have hsettled : (∃ edge ∈ s.edges.values,
      pastWindow resolve now (binary64 (retentionDays * 86400000)) edge.edgeId = true ∧
        edge.commitmentHash = hash) ↔
      ∃ edge ∈ s.edges.values, edge.commitmentHash = hash ∧
        Settled crypto keyLineage clock now retentionDays s edge :=
    exists_congr fun edge ↦ and_congr_right fun hedge ↦ by rw [h.pastWindow_iff hedge, and_comm]
  split_ifs with hs
  · simp [hsettled.mp hs]
  · simp [mt hsettled.mpr hs]

/-- A settled edge is marked unless another one listed before it has taken the words. -/
theorem Agrees.marked (h : Agrees crypto keyLineage clock resolve s) (hedge : edge ∈ s.edges.values)
    (hsettled : Settled crypto keyLineage clock now retentionDays s edge)
    (hplain : (s.getCommitment edge.commitmentHash).isSome = true) :
    ((runRetention resolve now retentionDays s).1.getEdgeMeta
        edge.edgeId).plaintextDeletedAt.isSome = true ↔
      (s.getEdgeMeta edge.edgeId).plaintextDeletedAt.isSome = true ∨
        ∀ other ∈ s.edges.values, other.edgeId < edge.edgeId →
          Settled crypto keyLineage clock now retentionDays s other →
          other.commitmentHash ≠ edge.commitmentHash := by
  obtain ⟨before, after, hvalues⟩ := List.append_of_mem hedge
  have hsorted := s.edges.sorted
  have hnodup : (s.edges.values.map Edge.edgeId).Nodup :=
    List.pairwise_map.mpr (hsorted.imp fun hlt ↦ ne_of_lt hlt)
  rw [hvalues] at hsorted hnodup
  have hearlier : (∀ other ∈ before,
      pastWindow resolve now (binary64 (retentionDays * 86400000)) other.edgeId = true →
        other.commitmentHash ≠ edge.commitmentHash) ↔
      ∀ other ∈ s.edges.values, other.edgeId < edge.edgeId →
        Settled crypto keyLineage clock now retentionDays s other →
        other.commitmentHash ≠ edge.commitmentHash := by
    obtain ⟨-, hedges, hbefore⟩ := List.pairwise_append.mp hsorted
    constructor
    · intro hall other ho hlt hs
      rw [hvalues] at ho
      rcases List.mem_append.mp ho with ho | ho
      · refine hall other ho ((h.pastWindow_iff ?_).mpr hs)
        rw [hvalues]
        exact List.mem_append_left _ ho
      · rcases List.mem_cons.mp ho with rfl | ho
        · exact absurd hlt (lt_irrefl _)
        · exact absurd hlt (lt_asymm ((List.pairwise_cons.mp hedges).1 other ho))
    · intro hall other ho hpast
      have hmem : other ∈ s.edges.values := by
        rw [hvalues]
        exact List.mem_append_left _ ho
      exact hall other hmem (hbefore other ho edge List.mem_cons_self)
        ((h.pastWindow_iff hmem).mp hpast)
  have hpast := (@Agrees.pastWindow_iff _ _ _ _ now retentionDays _ _ h hedge).mpr hsettled
  rw [← hearlier, runRetention_vault, hvalues, plaintextDeletedAt_sweeps hnodup]
  split_ifs with hfirst
  · simp only [Option.isSome_some, true_iff]
    exact .inr hfirst.2.2
  · exact ⟨.inl, fun hor ↦ hor.resolve_right fun hall ↦ hfirst ⟨hpast, hplain, hall⟩⟩

theorem keepsLiveWords_iff (crypto : Crypto) (keyLineage : KeyLineage) (clock : Option Rfc3339)
    (now : Rfc3339) (retentionDays : ℚ) (resolve : EdgeStateResolver) (s : Subtree)
    (h : Agrees crypto keyLineage clock resolve s) :
    KeepsLiveWords crypto keyLineage clock now retentionDays resolve s ↔
      SharesNoLiveWords crypto keyLineage clock now retentionDays s := by
  constructor
  · intro hkeeps edge hedge other ho hne hhash hplain hsettled
    have hgone := (@Agrees.getCommitment _ _ _ now retentionDays _ _ h edge.commitmentHash).mpr
      (.inr ⟨edge, hedge, rfl, hsettled⟩)
    have hother := hkeeps.settled _ hplain hgone other ho hhash.symm
    refine ⟨hother, fun hlt ↦ ?_⟩
    rw [hhash] at hplain
    rcases (h.marked ho hother hplain).mp (hkeeps.marked other ho hother hplain) with hmarked | hall
    · exact hmarked
    · exact absurd hhash (hall edge hedge hlt hsettled)
  · intro hshares
    constructor
    · intro hash hplain hgone edge hedge hhash
      rcases h.getCommitment.mp hgone with hnone | ⟨other, ho, hother, hsettled⟩
      · rw [hnone] at hplain
        cases hplain
      · by_cases hne : other = edge
        · rwa [← hne]
        · exact (hshares other ho edge hedge hne (hother.trans hhash.symm) (by rwa [hother])
            hsettled).1
    · rw [runRetention_vault, edges_sweeps]
    · rw [runRetention_vault, files_sweeps]
    · intro id
      rw [runRetention_vault, dismissed_sweeps]
    · have hedges : (runRetention resolve now retentionDays s).1.edges = s.edges := by
        rw [runRetention_vault, edges_sweeps]
      rw [runRetention_vault, hedges]
      apply sweeps_eq_self
      intro edge hedge hpast
      exact h.getCommitment.mpr (.inr ⟨edge, hedge, rfl, (h.pastWindow_iff hedge).mp hpast⟩)
    · intro edge hedge hsettled hplain
      refine (h.marked hedge hsettled hplain).mpr ?_
      by_cases hearlier : ∃ other ∈ s.edges.values, other.edgeId < edge.edgeId ∧
          Settled crypto keyLineage clock now retentionDays s other ∧
          other.commitmentHash = edge.commitmentHash
      · obtain ⟨other, ho, hlt, hs, hhash⟩ := hearlier
        refine .inl ((hshares other ho edge hedge ?_ hhash ?_ hs).2 hlt)
        · rintro rfl
          exact lt_irrefl _ hlt
        · rwa [hhash]
      · exact .inr fun other ho hlt hs hhash ↦ hearlier ⟨other, ho, hlt, hs, hhash⟩

end Pass

section SharedWords

open Sample

def promise : Commitment :=
  ⟨⟨"a promise", ownerKey, some (.persona creditorKey), none, date 3 1 9⟩, []⟩

/-- The owner's vault after the promise was kept: its words, the edge and the chain. -/
def keptVault : Subtree :=
  { Subtree.empty with
    commitments := .put .empty (Sample.edge.commitmentHash, promise)
    edges := .put .empty Sample.edge
    files := fun id ↦ if id = Sample.edge.edgeId then
      [proposal, confirmation, closure, Settlement.acceptance] else [] }

def byTable (crypto : Crypto) (s : Subtree) : EdgeStateResolver := fun id ↦
  match s.getEdge id with
  | none => (.none, none)
  | some edge =>
    let v := verified crypto noRotations none s edge
    (v.finalState, v.resolvedAt)

theorem byTable_agrees (crypto : Crypto) (s : Subtree) :
    Agrees crypto noRotations none (byTable crypto s) s := by
  intro edge hedge
  have hget : s.getEdge edge.edgeId = some edge := Directory.get?_eq_some_iff.mpr ⟨hedge, rfl⟩
  simp only [byTable, hget]

theorem kept_promise_forgotten : KeepsLiveWords Sample.crypto noRotations none (date 5 2 10) 30
    (byTable Sample.crypto keptVault) keptVault := by
  refine (keepsLiveWords_iff _ _ _ _ _ _ _ (byTable_agrees _ _)).mpr fun edge hedge other ho hne ↦ ?_
  have hone : ∀ edge ∈ keptVault.edges.values, edge = Sample.edge := by
    intro edge hedge
    simpa [keptVault, Directory.put, Directory.empty, Directory.insertValue] using hedge
  exact absurd ((hone edge hedge).trans (hone other ho).symm) hne

/-- An edge of the creditor's own that names the hash of the owner's promise. -/
def inboundEdge : Edge :=
  { Sample.edge with
    edgeId := 0x91d259dd38ad49264ad0b5e5e2814d26502d7d2dd4a831e4198cf8f81877460a
    owner := creditorKey
    owedTo := ownerKey
    proposedAt := date 3 4 9 }

def inboundProposal : Assertion :=
  ⟨inboundEdge.edgeId, .proposed, date 3 4 9, creditorKey, none,
    0xe30dd200a455017854500294b80fcd95d557688f34a0aeeed2b04fea4a54a7bdfc2a57c61e276f4e8f4994ad7d9e0b0033b9b5299457b9add098dbf1c3fd2703⟩

def bothDigests : Crypto :=
  { Sample.crypto with
    sha256Hex := fun octets ↦
      if octets = Crypto.domainTag Crypto.edgeIdTag ++ Crypto.utf8 (hexText inboundEdge.commitmentHash) ++
          Crypto.utf8 (hexText inboundEdge.owner) ++ Crypto.utf8 (hexText inboundEdge.owedTo) ++
          Crypto.utf8 inboundEdge.proposedAt.text
      then inboundEdge.edgeId else Sample.edge.edgeId }

def sharedVault : Subtree :=
  { keptVault with
    edges := keptVault.edges.put inboundEdge
    files := Function.update keptVault.files inboundEdge.edgeId [inboundProposal] }

/-- The words of the old promise go while a proposal that awaits an answer still names them. -/
theorem proposed_words_deleted : ¬∀ crypto keyLineage clock now retentionDays resolve s,
    Agrees crypto keyLineage clock resolve s →
    KeepsLiveWords crypto keyLineage clock now retentionDays resolve s := by
  intro h
  have hkeeps := h bothDigests noRotations none (date 5 2 10) 30 (byTable bothDigests sharedVault)
    sharedVault (byTable_agrees _ _)
  have hsettled := hkeeps.settled Sample.edge.commitmentHash (by decide +kernel) (by decide +kernel)
    inboundEdge (by decide +kernel) rfl
  exact absurd hsettled.1 (by decide +kernel)

end SharedWords

end Retention

end Servanda
