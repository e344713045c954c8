import Mathlib.Data.List.Sort
import Servanda.Chains
import Servanda.Serve
import Servanda.StableSort

namespace Servanda.Recon

open Transitions Serve

structure DiscardedAssertion where
  edgeId : Sha256Hex
  index : ℕ
  reason : RejectionReason
  deriving DecidableEq

structure ReconApplyResult where
  accepted : List Assertion
  discarded : List DiscardedAssertion
  ignored : List Sha256Hex

def openFamily : List EffectiveState := [.proposed, .opened, .pendingAcceptance, .disputed]

def emptyChainHash : Sha256Hex := 0

/-- `asserted_at` order, the sender's own order between equal dates. -/
def inWireOrder (assertions : List Assertion) : List Assertion :=
  assertions.insertionSort fun a b ↦ Date.parse a.assertedAt ≤ Date.parse b.assertedAt

variable (crypto : Crypto)

/-- A digest of the set of assertions: of their signatures, sorted. -/
def latestAssertionHash (assertions : List Assertion) : Sha256Hex :=
  if assertions.length = 0 then emptyChainHash
  else crypto.hashCanonical (.chainDigest ((assertions.map (·.sig)).insertionSort (· ≤ ·)))

def sharedOpenEdges (s : Subtree) (persona counterparty : PublicKeyHex) : List Edge :=
  let lineage := partyLineage crypto s
  s.listEdgeIds.filterMap fun id ↦
    match s.getEdge id with
    | none => none
    | some edge =>
      if !isPartyOrSuccessor edge persona lineage || !isPartyOrSuccessor edge counterparty lineage then
        none
      else
        let state := (verifyAssertionChain crypto lineage none edge (s.getAssertions id)).finalState
        if openFamily.contains state then some edge else none

def buildReconRequest (s : Subtree) (persona counterparty : PublicKeyHex) : ReconRequest where
  edges := (sharedOpenEdges crypto s persona counterparty).map fun edge ↦
    ⟨edge.edgeId, latestAssertionHash crypto (s.getAssertions edge.edgeId)⟩

def answerReconRequest (s : Subtree) (now : Rfc3339) (requester : PublicKeyHex)
    (request : ReconRequest) : ReconResponse where
  edges := request.edges.filterMap fun ref ↦
    match s.getEdge ref.edgeId with
    | none => none
    | some edge =>
      if mayServeEdge crypto s now requester edge = .refused then none
      else
        let assertions := s.getAssertions ref.edgeId
        if latestAssertionHash crypto assertions = ref.latestAssertionHash then none
        else some ⟨ref.edgeId, assertions⟩

def incoming (held assertions : List Assertion) : List Assertion :=
  inWireOrder (assertions.filter fun a ↦ !(held.map (·.sig)).contains a.sig)

def judged (lineage : KeyLineage) (now : Rfc3339) (edge : Edge) (held new : List Assertion) :
    List (Assertion × AssertionOutcome) :=
  new.zip ((verifyAssertionChain crypto lineage (some now) edge (held ++ new)).outcomes.drop
    held.length)

def keptOf (verdicts : List (Assertion × AssertionOutcome)) : List Assertion :=
  (verdicts.filter (·.2.accepted)).map Prod.fst

def discardedOf (edgeId : Sha256Hex) (verdicts : List (Assertion × AssertionOutcome)) :
    List DiscardedAssertion :=
  verdicts.filterMap fun v ↦
    if v.2.accepted then none else v.2.rejectionReason.map fun reason ↦ ⟨edgeId, v.2.index, reason⟩

def appendAll (s : Subtree) (assertions : List Assertion) : Subtree :=
  assertions.foldl Subtree.appendAssertion s

def applyReconEntry (persona responder : PublicKeyHex) (lineage : KeyLineage) (now : Rfc3339)
    (acc : Subtree × ReconApplyResult) (entry : ReconEntry) : Subtree × ReconApplyResult :=
  let (s, result) := acc
  match s.getEdge entry.edgeId with
  | none => (s, { result with ignored := result.ignored ++ [entry.edgeId] })
  | some edge =>
    if !isPartyOrSuccessor edge persona lineage || !isPartyOrSuccessor edge responder lineage then
      (s, { result with ignored := result.ignored ++ [entry.edgeId] })
    else
      let held := s.getAssertions entry.edgeId
      let verdicts := judged crypto lineage now edge held (incoming held entry.assertions)
      (appendAll s (keptOf verdicts),
        { result with
          accepted := result.accepted ++ keptOf verdicts
          discarded := result.discarded ++ discardedOf entry.edgeId verdicts })

def applyReconResponse (s : Subtree) (persona responder : PublicKeyHex) (now : Rfc3339)
    (response : ReconResponse) : Subtree × ReconApplyResult :=
  response.edges.foldl (applyReconEntry crypto persona responder (partyLineage crypto s) now)
    (s, ⟨[], [], []⟩)

variable {crypto} {lineage : KeyLineage} {now : Rfc3339} {edge : Edge} {held new : List Assertion}

theorem keptOf_verdicts (step : ChainState → Assertion → Except RejectionReason ChainState)
    (ctx : ChainState) (new : List Assertion) (f : ℕ → ℕ) :
    keptOf (new.zip ((Replay.verdicts step ctx new).mapIdx fun i v ↦ outcome (f i) v)) =
      Replay.accepted step ctx new := by
  induction new generalizing ctx f with
  | nil => rfl
  | cons a new ih =>
    unfold Replay.verdicts Replay.accepted
    cases hj : step ctx a with
    | ok next =>
      simpa [keptOf, outcome, List.mapIdx_cons] using ih next fun i ↦ f (i + 1)
    | error reason =>
      simpa [keptOf, outcome, List.mapIdx_cons] using ih ctx fun i ↦ f (i + 1)

/-- What a batch leaves to be kept: the assertions the table accepts after the chain held. -/
theorem keptOf_judged (h : edgeMalformed crypto edge = none) :
    keptOf (judged crypto lineage now edge held new) =
      Replay.accepted (judge crypto lineage (some now) edge)
        (context crypto lineage (some now) edge held) new := by
  have hlength : held.length =
      ((Replay.verdicts (judge crypto lineage (some now) edge) .start held).mapIdx outcome).length := by
    rw [List.length_mapIdx, Replay.verdicts_length]
  simp only [judged, verifyAssertionChain, h, Replay.verdicts_append, List.mapIdx_append]
  rw [List.drop_left' hlength.symm]
  exact keptOf_verdicts _ _ _ _

theorem keptOf_judged_malformed {reason : RejectionReason}
    (h : edgeMalformed crypto edge = some reason) :
    keptOf (judged crypto lineage now edge held new) = [] := by
  rw [keptOf, List.map_eq_nil_iff, List.filter_eq_nil_iff]
  intro v hv
  have hmem := List.mem_of_mem_drop (List.of_mem_zip hv).2
  simp only [verifyAssertionChain, h] at hmem
  obtain ⟨i, hi, hv⟩ := List.mem_mapIdx.mp hmem
  simp [← hv, outcome]

theorem edgeId_of_accepted {ctx : ChainState} {l : List Assertion} {a : Assertion}
    {now : Option Rfc3339} (h : a ∈ Replay.accepted (judge crypto lineage now edge) ctx l) :
    a.edgeId = edge.edgeId := by
  obtain ⟨p, q, hl⟩ := List.append_of_mem h
  have hpath : Replay.Path (judge crypto lineage now edge) ctx _ _ := Replay.path_accepted ctx l
  rw [hl] at hpath
  obtain ⟨t, -, hpath⟩ := hpath.split
  cases hpath with
  | cons hj _ => exact (judge_ok_iff.mp hj).2.1.aboutEdge

theorem mem_incoming {assertions : List Assertion} {a : Assertion} :
    a ∈ incoming held assertions ↔ a ∈ assertions ∧ a.sig ∉ held.map (·.sig) := by
  rw [incoming, inWireOrder, List.mem_insertionSort, List.mem_filter]
  simp

theorem incoming_eq_nil {assertions : List Assertion} :
    incoming held assertions = [] ↔ ∀ a ∈ assertions, a.sig ∈ held.map (·.sig) := by
  simp only [List.eq_nil_iff_forall_not_mem, mem_incoming, not_and, not_not]

theorem incoming_held_snoc {assertions : List Assertion} {a : Assertion}
    (h : a.sig ∉ assertions.map (·.sig)) :
    incoming (held ++ [a]) assertions = incoming held assertions := by
  rw [incoming, incoming]
  refine congrArg inWireOrder (List.filter_congr fun b hb ↦ ?_)
  have hne : b.sig ≠ a.sig := fun heq ↦ h (heq ▸ List.mem_map_of_mem hb)
  simp [hne]

theorem incoming_snoc {assertions : List Assertion} {a : Assertion}
    (h : a.sig ∉ held.map (·.sig))
    (hdated : ∀ b ∈ incoming held assertions, Date.parse b.assertedAt ≤ Date.parse a.assertedAt) :
    incoming held (assertions ++ [a]) = incoming held assertions ++ [a] := by
  have ha : (!(held.map (·.sig)).contains a.sig) = true := by simpa using h
  rw [incoming, List.filter_append, List.filter_singleton, ha]
  exact StableSort.insertionSort_snoc fun b hb ↦ hdated b ((List.mem_insertionSort _).mpr hb)

theorem incoming_taken (assertions : List Assertion) :
    incoming (held ++ incoming held assertions) assertions = [] := by
  apply incoming_eq_nil.mpr
  intro a ha
  rw [List.map_append, List.mem_append]
  by_cases hsig : a.sig ∈ held.map (·.sig)
  · exact .inl hsig
  · exact .inr (List.mem_map_of_mem (mem_incoming.mpr ⟨ha, hsig⟩))

theorem incoming_returned (assertions : List Assertion) :
    incoming held (assertions ++ incoming assertions held) = incoming held assertions := by
  have hnone : (incoming assertions held).filter (fun a ↦ !(held.map (·.sig)).contains a.sig) =
      [] := by
    apply List.filter_eq_nil_iff.mpr
    intro a ha
    simpa using ⟨a, (mem_incoming.mp ha).1, rfl⟩
  rw [incoming, List.filter_append, hnone, List.append_nil, incoming]

theorem length_keptOf_le (assertions : List Assertion) :
    (keptOf (judged crypto lineage now edge held (incoming held assertions))).length ≤
      assertions.countP (·.edgeId = edge.edgeId) := by
  cases hm : edgeMalformed crypto edge with
  | some reason => simp [keptOf_judged_malformed hm]
  | none =>
    have hall : ∀ a ∈ keptOf (judged crypto lineage now edge held (incoming held assertions)),
        decide (a.edgeId = edge.edgeId) = true := by
      intro a ha
      rw [keptOf_judged hm] at ha
      exact decide_eq_true (edgeId_of_accepted ha)
    rw [← List.countP_eq_length.mpr hall, keptOf_judged hm]
    refine ((Replay.accepted_sublist _ _).countP_le).trans ?_
    rw [incoming, inWireOrder, (List.perm_insertionSort _ _).countP_eq]
    exact List.filter_sublist.countP_le

@[simp] theorem edges_appendAll (s : Subtree) (l : List Assertion) :
    (appendAll s l).edges = s.edges := by
  induction l generalizing s with
  | nil => rfl
  | cons a l ih => exact ih (s.appendAssertion a)

/-- Appending assertions of one edge extends its chain by them, and touches nothing else. -/
theorem appendAll_spec {edgeId : Sha256Hex} {l : List Assertion} (h : ∀ a ∈ l, a.edgeId = edgeId)
    (s : Subtree) : appendAll s l =
      { s with files := Function.update s.files edgeId (s.files edgeId ++ l) } := by
  induction l generalizing s with
  | nil => simp [appendAll]
  | cons a l ih =>
    obtain ⟨rfl, hl⟩ := List.forall_mem_cons.mp h
    show appendAll (s.appendAssertion a) l = _
    rw [ih hl]
    simp [Subtree.appendAssertion]

theorem getAssertions_appendAll {s : Subtree} {edgeId : Sha256Hex} {l : List Assertion}
    (h : ∀ a ∈ l, a.edgeId = edgeId)
    (hroom : (s.getAssertions edgeId).length + l.length ≤ 10000) :
    (appendAll s l).getAssertions edgeId = s.getAssertions edgeId ++ l := by
  rw [Subtree.length_getAssertions] at hroom
  have hfiles : (appendAll s l).files edgeId = s.files edgeId ++ l := by
    rw [appendAll_spec h]
    exact Function.update_self ..
  rw [Subtree.getAssertions_eq (by rw [hfiles, List.length_append]; omega), hfiles,
    Subtree.getAssertions_eq (by omega)]

end Servanda.Recon
