import Servanda.Soundness

namespace Servanda.Settlement

open Transitions Soundness

variable (crypto : Crypto) (now : Option Rfc3339) (edge : Edge)

def settles : EffectiveState → EffectiveState → Bool
  | .pendingAcceptance, .closed => true
  | .disputed, after | .contestedClosure, after =>
    after = .closed || after = .superseded || after = .expired
  | .opened, .superseded => true
  | _, _ => false

def Settles (chain before : List Assertion) (a : Assertion) : Prop :=
  Accepted crypto now edge chain before a ∧
    settles (StateAt crypto now edge before) (StateAt crypto now edge (before ++ [a])) = true

/-- A single party's exit from `open` into a terminal state. -/
def Leaves (chain before : List Assertion) (a : Assertion) : Prop :=
  Accepted crypto now edge chain before a ∧ StateAt crypto now edge before = .opened ∧
    (StateAt crypto now edge (before ++ [a]) = .closed ∨
      StateAt crypto now edge (before ++ [a]) = .released ∨
      StateAt crypto now edge (before ++ [a]) = .expired)

def EntersContest (chain before : List Assertion) (a : Assertion) : Prop :=
  before ++ [a] <+: chain ∧ StateAt crypto now edge before ≠ .contestedClosure ∧
    StateAt crypto now edge (before ++ [a]) = .contestedClosure

/-- A settled edge stays settled; a single party's exit can only be contested, by the other. -/
structure Settled (chain : List Assertion) : Prop where
  final : ∀ p x, Settles crypto now edge chain p x →
    (∀ q y, Accepted crypto now edge chain q y → q.length ≤ p.length) ∧
      StateAt crypto now edge chain = StateAt crypto now edge (p ++ [x])
  exit : ∀ p x q y, Leaves crypto now edge chain p x → Accepted crypto now edge chain q y →
    p.length < q.length →
    (∀ r z, Accepted crypto now edge chain r z → r.length ≤ p.length ∨ q.length ≤ r.length) →
    y.state ∈ unilateralExits ∧ y.state ≠ x.state ∧ y.signer ≠ x.signer ∧
      (y.signer = edge.owner ∨ y.signer = edge.owedTo) ∧
      Date.parse y.assertedAt ≤ Date.parse x.assertedAt ∧
      StateAt crypto now edge (q ++ [y]) = .contestedClosure
  contestedOnce : ∀ p x q y, EntersContest crypto now edge chain p x →
    EntersContest crypto now edge chain q y → p = q

/-- The assertion takes the branch that contests the recorded exit, and that branch grants it. -/
structure Reopens (ctx : ChainState) (a : Assertion) : Prop where
  ordered : backdated ctx a = false
  standing : Standing crypto noRotations edge a
  contests : contests ctx a = true
  lawful : unilateralExitFault edge a now (heldBy (noRotations edge.owner) a.signer a.assertedAt)
    (heldBy (noRotations edge.owedTo) a.signer a.assertedAt) = none

/-- No assertion that stands after the settlement of an edge contests the exit behind it. -/
def NoLateContest (chain : List Assertion) : Prop :=
  ∀ p x q y, Settles crypto now edge chain p x → q ++ [y] <+: chain → p.length < q.length →
    ¬Reopens crypto now edge (context crypto noRotations now edge q) y

variable {crypto now edge} {chain p q : List Assertion} {x y : Assertion} {ctx ctx' : ChainState}

theorem Reopens.judge (h : Reopens crypto now edge ctx y) :
    judge crypto noRotations now edge ctx y = .ok (record (contest ctx y) y) :=
  judge_ok_iff.mpr ⟨h.ordered, h.standing, _, .contest h.contests h.lawful, rfl⟩

theorem reopens_of_terminal (ht : terminalStates.contains ctx.state = true)
    (h : judge crypto noRotations now edge ctx y = .ok ctx') :
    Reopens crypto now edge ctx y ∧ ctx' = record (contest ctx y) y := by
  obtain ⟨hb, hstand, next, hrow, rfl⟩ := judge_ok_iff.mp h
  cases hrow with
  | contest hc hf => exact ⟨⟨hb, hstand, hc, hf⟩, rfl⟩
  | table _ hrow =>
    rw [hrow.run.1] at ht
    cases ht

theorem settles_terminal {s t : EffectiveState} (h : settles s t = true) :
    terminalStates.contains t = true := by
  revert h
  cases s <;> cases t <;> decide

theorem context_frozen (ht : terminalStates.contains (context crypto noRotations now edge p).state =
      true) (l : List Assertion)
    (h : ∀ r z, r ++ [z] <+: l →
      ¬Reopens crypto now edge (context crypto noRotations now edge (p ++ r)) z) :
    context crypto noRotations now edge (p ++ l) = context crypto noRotations now edge p := by
  induction l using List.reverseRecOn with
  | nil => rw [List.append_nil]
  | append_singleton l z ih =>
    have hl := ih fun r y hr ↦ h r y (hr.trans (List.prefix_append _ _))
    cases hj : judge crypto noRotations now edge
        (context crypto noRotations now edge (p ++ l)) z with
    | ok next =>
      have ht' : terminalStates.contains
          (context crypto noRotations now edge (p ++ l)).state = true := by rw [hl, ht]
      exact absurd (reopens_of_terminal ht' hj).1 (h l z List.prefix_rfl)
    | error reason =>
      rw [← List.append_assoc, context_snoc_error hj, hl]

theorem prefix_split {l m chain : List Assertion} {x : Assertion} (hl : l ++ [x] <+: chain)
    (hm : m <+: chain) (h : l.length < m.length) : ∃ r, m = l ++ [x] ++ r := by
  obtain ⟨r, hr⟩ := List.prefix_of_prefix_length_le hl hm
    (by simpa using Nat.succ_le_of_lt h)
  exact ⟨r, hr.symm⟩

theorem NoLateContest.frozen (h : NoLateContest crypto now edge chain)
    (hx : Settles crypto now edge chain p x) (hq : q <+: chain) (hlen : p.length < q.length) :
    context crypto noRotations now edge q = context crypto noRotations now edge (p ++ [x]) := by
  obtain ⟨hedge, hpre, -⟩ := acceptedAt_iff.mp hx.1
  obtain ⟨l, rfl⟩ := prefix_split hpre hq hlen
  have ht := settles_terminal hx.2
  rw [stateAt_eq hedge] at ht
  refine context_frozen ht l fun r z hr ↦ h p x _ z hx ?_ ?_
  · obtain ⟨s, rfl⟩ := hr
    exact (List.prefix_append _ _).trans (by simpa using hq)
  · simp only [List.length_append, List.length_singleton]
    omega

theorem NoLateContest.final (h : NoLateContest crypto now edge chain)
    (hx : Settles crypto now edge chain p x) (hy : Accepted crypto now edge chain q y) :
    q.length ≤ p.length := by
  by_contra hlt
  obtain ⟨hedge, hq, ctx, hj⟩ := acceptedAt_iff.mp hy
  have hctx := h.frozen hx ((List.prefix_append q [y]).trans hq) (not_le.mp hlt)
  have ht := settles_terminal hx.2
  rw [stateAt_eq hedge, ← hctx] at ht
  exact h p x q y hx hq (not_le.mp hlt) (reopens_of_terminal ht hj).1

theorem Leaves.exit (hx : Leaves crypto now edge chain p x) :
    terminalStates.contains (context crypto noRotations now edge (p ++ [x])).state = true ∧
      (context crypto noRotations now edge (p ++ [x])).exit =
        some ⟨x.state, x.signer, x.assertedAt⟩ := by
  obtain ⟨hacc, hopen, hafter⟩ := hx
  obtain ⟨hedge, -, ctx, hj⟩ := acceptedAt_iff.mp hacc
  simp only [stateAt_eq hedge] at hopen hafter
  rw [context_snoc_ok hj] at hafter ⊢
  obtain ⟨-, -, next, hrow, rfl⟩ := judge_ok_iff.mp hj
  have hexit : (context crypto noRotations now edge p).exit = none :=
    (context_coherent p).unexited (.inr (.inr hopen))
  cases hrow with
  | contest hc => simp [Transitions.contests, hexit] at hc
  | table _ hrow =>
    cases hrow with
    | evidenceCloses ha | released ha | expired ha => simp [record, resolve, ha, terminalStates]
    | supersededHalf _ hs =>
      exact absurd hafter (by simp [record, hopen])
    | disputeClosedHalf _ hs | contestedClosedHalf _ hs | contestedSupersededHalf _ hs =>
      rw [hopen] at hs
      cases hs
    | accepted _ hs | tacit _ hs | disputeClosed _ hs | disputeExpired _ hs | contestedClosed _ hs
    | contestedExpired _ hs =>
      rw [hopen] at hs
      cases hs
    | _ => simp [record, resolve] at hafter

/-- The first assertion accepted after a single party's exit contests it. -/
theorem exit_contested (hx : Leaves crypto now edge chain p x) (hy : Accepted crypto now edge chain q y)
    (hlen : p.length < q.length)
    (hfirst : ∀ r z, Accepted crypto now edge chain r z → r.length ≤ p.length ∨ q.length ≤ r.length) :
    y.state ∈ unilateralExits ∧ y.state ≠ x.state ∧ y.signer ≠ x.signer ∧
      (y.signer = edge.owner ∨ y.signer = edge.owedTo) ∧
      Date.parse y.assertedAt ≤ Date.parse x.assertedAt ∧
      StateAt crypto now edge (q ++ [y]) = .contestedClosure := by
  obtain ⟨ht, hexit⟩ := hx.exit
  obtain ⟨hedge, hpre, -⟩ := acceptedAt_iff.mp hx.1
  obtain ⟨-, hq, ctx, hj⟩ := acceptedAt_iff.mp hy
  obtain ⟨l, rfl⟩ := prefix_split hpre ((List.prefix_append q [y]).trans hq) hlen
  have hctx : context crypto noRotations now edge (p ++ [x] ++ l) =
      context crypto noRotations now edge (p ++ [x]) := by
    apply context_frozen ht l
    intro r z hr hre
    have hacc : Accepted crypto now edge chain (p ++ [x] ++ r) z := by
      refine acceptedAt_iff.mpr ⟨hedge, ?_, _, hre.judge⟩
      obtain ⟨s, rfl⟩ := hr
      exact (List.prefix_append _ (s ++ [y])).trans (by simpa using hq)
    have hr' := hr.length_le
    rcases hfirst _ _ hacc with h | h <;>
      simp only [List.length_append, List.length_singleton] at h hr' <;> omega
  have hre := (reopens_of_terminal (by rw [hctx, ht]) hj).1
  have hc := hre.contests
  rw [Transitions.contests, hctx, hexit] at hc
  simp only [Option.any_some, Bool.and_eq_true, bne_iff_ne, ne_eq, List.contains_iff_mem,
    decide_eq_true_eq] at hc
  obtain ⟨⟨⟨⟨hsigner, hstate⟩, hne⟩, -⟩, hdate⟩ := hc
  refine ⟨hstate, hne, hsigner, hre.standing.party.imp heldBy_noRotations.mp
    heldBy_noRotations.mp, hdate, ?_⟩
  rw [stateAt_eq hedge, context_snoc_ok hre.judge]
  rfl

theorem settles_of_leaves_contest (hy : q ++ [y] <+: chain)
    (hbefore : StateAt crypto now edge q = .contestedClosure)
    (hafter : StateAt crypto now edge (q ++ [y]) ≠ .contestedClosure) :
    Settles crypto now edge chain q y := by
  have hedge : edgeMalformed crypto edge = none :=
    edgeMalformed_of_finalState (by rw [← StateAt, hbefore]; decide)
  rw [stateAt_eq hedge] at hbefore hafter
  cases hj : judge crypto noRotations now edge (context crypto noRotations now edge q) y with
  | error reason =>
    rw [context_snoc_error hj] at hafter
    exact absurd hbefore hafter
  | ok next =>
    refine ⟨acceptedAt_iff.mpr ⟨hedge, hy, next, hj⟩, ?_⟩
    rw [stateAt_eq hedge, stateAt_eq hedge, hbefore, context_snoc_ok hj]
    rw [context_snoc_ok hj] at hafter
    obtain ⟨-, -, next, hrow, rfl⟩ := judge_ok_iff.mp hj
    cases hrow with
    | contest => exact absurd rfl hafter
    | table _ hrow =>
      cases hrow with
      | contestedClosed | contestedSuperseded | contestedExpired => rfl
      | contestedClosedHalf | contestedSupersededHalf => exact absurd hbefore hafter
      | disputed _ hs => simp [hbefore, disputableFrom] at hs
      | supersededHalf _ hs | superseded _ hs => simp [hbefore] at hs
      | proposed _ hs | confirmed _ hs | evidenceCloses _ hs | evidenceOpensWindow _ hs
      | accepted _ hs | tacit _ hs | disputeClosedHalf _ hs | disputeClosed _ hs | released _ hs
      | disputeExpired _ hs | expired _ hs =>
        rw [hbefore] at hs
        cases hs

theorem accepted_of_entersContest (h : EntersContest crypto now edge chain q y) :
    Accepted crypto now edge chain q y := by
  obtain ⟨hy, hbefore, hafter⟩ := h
  have hedge : edgeMalformed crypto edge = none :=
    edgeMalformed_of_finalState (by rw [← StateAt, hafter]; decide)
  cases hj : judge crypto noRotations now edge (context crypto noRotations now edge q) y with
  | ok next => exact acceptedAt_iff.mpr ⟨hedge, hy, next, hj⟩
  | error reason =>
    rw [stateAt_eq hedge] at hbefore hafter
    rw [context_snoc_error hj] at hafter
    exact absurd hafter hbefore

theorem NoLateContest.entersOnce (h : NoLateContest crypto now edge chain)
    (hx : EntersContest crypto now edge chain p x) (hy : EntersContest crypto now edge chain q y) :
    ¬p.length < q.length := by
  intro hlen
  obtain ⟨hpre, -, hin⟩ := hx
  have hq := (List.prefix_append q [y]).trans hy.1
  obtain ⟨l, rfl⟩ := prefix_split hpre hq hlen
  obtain ⟨r, z, s, rfl, hr, hz⟩ := Replay.exists_change
    (P := fun m ↦ StateAt crypto now edge m = .contestedClosure) hin hy.2.1
  have hz' : p ++ [x] ++ r ++ [z] <+: chain :=
    (List.prefix_append _ s).trans (by simpa using hq)
  have hlt := h.final (settles_of_leaves_contest hz' hr hz) (accepted_of_entersContest hy)
  simp only [List.length_append, List.length_cons, List.length_nil] at hlt
  omega

theorem settled_iff_noLateContest (crypto : Crypto) (now : Option Rfc3339) (edge : Edge)
    (chain : List Assertion) :
    Settled crypto now edge chain ↔ NoLateContest crypto now edge chain := by
  constructor
  · intro h p x q y hx hq hlen hre
    have hacc : Accepted crypto now edge chain q y :=
      acceptedAt_iff.mpr ⟨(acceptedAt_iff.mp hx.1).1, hq, _, hre.judge⟩
    exact absurd ((h.final p x hx).1 q y hacc) (not_le.mpr hlen)
  · intro h
    refine ⟨fun p x hx ↦ ⟨fun q y hy ↦ h.final hx hy, ?_⟩,
      fun p x q y hx hy hlen hfirst ↦ exit_contested hx hy hlen hfirst, fun p x q y hx hy ↦ ?_⟩
    · have hedge := (acceptedAt_iff.mp hx.1).1
      rw [stateAt_eq hedge, stateAt_eq hedge, h.frozen hx List.prefix_rfl hx.1.length_lt]
    · have hlen : p.length = q.length :=
        le_antisymm (not_lt.mp (h.entersOnce hy hx)) (not_lt.mp (h.entersOnce hx hy))
      have hp := (List.prefix_append p [x]).trans hx.1
      have hq := (List.prefix_append q [y]).trans hy.1
      exact (List.prefix_of_prefix_length_le hp hq hlen.le).eq_of_length hlen

section Reopened

open Sample

def acceptance : Assertion := act .closed creditorKey (date 3 2 9) none
  0xc341e43efa31b28acb776a16a660fc3f4bc48d32977d078897c9e585a914d04ed69dbc2befef4f94a4a6f7e46c6aee1143217bb472fc969c311d5020d2cabe03

def lateRelease : Assertion := act .released creditorKey (date 3 2 10) none
  0xaa4c533fc574705bf3486f06126f26a4b9c024c114dae76d8e6684c984b25f28f701a99f3baa6cf29945ce0dc439c2a54932d154d69af478b366168cc74c950c

/-- The creditor accepts the owner's closure, and then contests it with a release. -/
theorem accepted_closure_reopens : ¬Settled Sample.crypto none Sample.edge
    [proposal, confirmation, closure, acceptance, lateRelease] := by
  intro h
  have hsettles : Settles Sample.crypto none Sample.edge
      [proposal, confirmation, closure, acceptance, lateRelease]
      [proposal, confirmation, closure] acceptance := by
    unfold Settles Accepted
    decide +kernel
  have hlate : Accepted Sample.crypto none Sample.edge
      [proposal, confirmation, closure, acceptance, lateRelease]
      [proposal, confirmation, closure, acceptance] lateRelease := by
    unfold Accepted
    decide +kernel
  exact absurd ((h.final _ _ hsettles).1 _ _ hlate) (by decide)

end Reopened

end Servanda.Settlement
