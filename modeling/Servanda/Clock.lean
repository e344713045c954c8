import Servanda.Node
import Servanda.Recon

/-!
What the clock of a node decides about a chain: it filters what is accepted, and what was accepted
with it reads back without it.
-/

namespace Servanda.Transitions

open Recon ServandaNode Serve

variable (crypto : Crypto) (keyLineage : KeyLineage) (now : Option Rfc3339) (edge : Edge)

/-- A chain without the assertions that the verifier rejects. -/
def acceptedOf (chain : List Assertion) : List Assertion :=
  keptOf (chain.zip (verifyAssertionChain crypto keyLineage now edge chain).outcomes)

/-- Two verifications come to the same end. -/
structure SameEnd (v v' : ChainVerification) : Prop where
  finalState : v.finalState = v'.finalState
  resolvedAt : v.resolvedAt = v'.resolvedAt
  deadlockedSince : v.deadlockedSince = v'.deadlockedSince

/-- The accepted assertions alone, replayed without a clock, are all accepted and come to the same
end; so does a node that holds them. -/
structure LeavesNoTrace (chain : List Assertion) : Prop where
  accepts : AcceptsAll crypto keyLineage none edge (acceptedOf crypto keyLineage now edge chain)
  replayed : SameEnd (verifyAssertionChain crypto keyLineage none edge
      (acceptedOf crypto keyLineage now edge chain))
    (verifyAssertionChain crypto keyLineage now edge chain)
  stored (node : ServandaNode) (persona : PublicKeyHex) :
    partyLineage crypto (node.vault persona) = keyLineage →
    (node.vault persona).getAssertions edge.edgeId = acceptedOf crypto keyLineage now edge chain →
    SameEnd (node.edgeState crypto persona edge)
      (verifyAssertionChain crypto keyLineage now edge chain)

variable {crypto keyLineage now edge} {chain : List Assertion}

theorem acceptedOf_malformed {reason : RejectionReason}
    (h : edgeMalformed crypto edge = some reason) :
    acceptedOf crypto keyLineage now edge chain = [] := by
  rw [acceptedOf, keptOf, List.map_eq_nil_iff, List.filter_eq_nil_iff]
  intro v hv
  have hmem := (List.of_mem_zip hv).2
  simp only [verifyAssertionChain, h] at hmem
  obtain ⟨i, hi, hv⟩ := List.mem_mapIdx.mp hmem
  simp [← hv, outcome]

theorem acceptedOf_eq (h : edgeMalformed crypto edge = none) :
    acceptedOf crypto keyLineage now edge chain =
      Replay.accepted (judge crypto keyLineage now edge) .start chain := by
  simp only [acceptedOf, verifyAssertionChain, h]
  exact keptOf_verdicts _ _ _ _

/-- The accepted assertions run without a clock to the context the whole chain came to. -/
theorem path_acceptedOf (h : edgeMalformed crypto edge = none) :
    Replay.Path (judge crypto keyLineage none edge) .start
      (acceptedOf crypto keyLineage now edge chain) (context crypto keyLineage now edge chain) := by
  rw [acceptedOf_eq h]
  exact judge_filters.path (Replay.path_accepted _ _)

theorem sameEnd_of_context {chain' : List Assertion} {now' : Option Rfc3339}
    (h : context crypto keyLineage now' edge chain' = context crypto keyLineage now edge chain) :
    SameEnd (verifyAssertionChain crypto keyLineage now' edge chain')
      (verifyAssertionChain crypto keyLineage now edge chain) := by
  cases hm : edgeMalformed crypto edge with
  | some reason => constructor <;> simp [verifyAssertionChain, hm]
  | none =>
    have hctx := h
    unfold context at hctx
    constructor <;> simp only [verifyAssertionChain, hm, hctx]

theorem acceptedOf_replayed : SameEnd (verifyAssertionChain crypto keyLineage none edge
      (acceptedOf crypto keyLineage now edge chain))
    (verifyAssertionChain crypto keyLineage now edge chain) := by
  cases hm : edgeMalformed crypto edge with
  | some reason => constructor <;> simp [verifyAssertionChain, hm]
  | none => exact sameEnd_of_context (path_acceptedOf hm).final_eq

theorem acceptedOf_acceptsAll : AcceptsAll crypto keyLineage none edge
    (acceptedOf crypto keyLineage now edge chain) := by
  cases hm : edgeMalformed crypto edge with
  | some reason =>
    rw [acceptedOf_malformed hm]
    simp [AcceptsAll, verifyAssertionChain, hm]
  | none =>
    have hpath := @path_acceptedOf crypto keyLineage now edge chain hm
    rw [acceptsAll_iff hm, context, hpath.final_eq]
    exact hpath

/-- Rejected assertions leave no trace, and the clock only filters. -/
theorem leaves_no_trace (crypto : Crypto) (keyLineage : KeyLineage) (now : Option Rfc3339)
    (edge : Edge) (chain : List Assertion) : LeavesNoTrace crypto keyLineage now edge chain where
  accepts := acceptedOf_acceptsAll
  replayed := acceptedOf_replayed
  stored node persona hlineage hstored := by
    rw [edgeState, hlineage, hstored]
    exact acceptedOf_replayed

/-- An accepted expiry is not dated further ahead of the clock than the skew. -/
def ExpiresInTime (crypto : Crypto) (keyLineage : KeyLineage) (edge : Edge) (now : Rfc3339)
    (chain : List Assertion) (a : Assertion) : Prop :=
  AcceptsLast crypto keyLineage (some now) edge chain a → a.state = .expired →
    Date.parse a.assertedAt ≤ Date.parse now + expirySkewMs

instance (crypto : Crypto) (keyLineage : KeyLineage) (edge : Edge) (now : Rfc3339)
    (chain : List Assertion) (a : Assertion) :
    Decidable (ExpiresInTime crypto keyLineage edge now chain a) :=
  inferInstanceAs (Decidable (_ → _ → _))

/-- An expiry that ends a dispute, once its window has run, and is dated ahead of the clock. -/
structure EndsDisputeAhead (crypto : Crypto) (keyLineage : KeyLineage) (edge : Edge) (now : Rfc3339)
    (ctx : ChainState) (a : Assertion) : Prop where
  wellFormed : edgeMalformed crypto edge = none
  state : a.state = .expired
  disputed : ctx.state = .disputed
  standing : Standing crypto keyLineage edge a
  dated : backdated ctx a = false
  uncontesting : contests ctx a = false
  elapsed : ∃ since, ctx.disputedAt = some since ∧ disputeWindowRunning since a = false
  ahead : Date.parse now + expirySkewMs < Date.parse a.assertedAt

theorem not_ahead {now : Rfc3339} {a : Assertion} (h : datedInTheFuture (some now) a = false) :
    Date.parse a.assertedAt ≤ Date.parse now + expirySkewMs := by
  simpa [datedInTheFuture] using h

/-- A contest by an expiry is one its author could have made from an open edge, by the clock. -/
theorem not_ahead_of_contest {now : Rfc3339} {a : Assertion} {o w : Bool}
    (ha : a.state = .expired) (h : unilateralExitFault edge a (some now) o w = none) :
    Date.parse a.assertedAt ≤ Date.parse now + expirySkewMs := by
  simp only [unilateralExitFault, ha] at h
  split at h
  · cases h
  · split_ifs at h with _ hfuture
    exact not_ahead (Bool.eq_false_iff.mpr hfuture)

/-- Of the rows that end in an expiry, the one out of a dispute alone does not ask the clock. -/
theorem expires_in_time_iff (crypto : Crypto) (keyLineage : KeyLineage) (edge : Edge)
    (now : Rfc3339) (chain : List Assertion) (a : Assertion) :
    ExpiresInTime crypto keyLineage edge now chain a ↔
      ¬EndsDisputeAhead crypto keyLineage edge now
        (context crypto keyLineage (some now) edge chain) a := by
  constructor
  · intro h hends
    obtain ⟨since, hsince, hrun⟩ := hends.elapsed
    have haccepted : AcceptsLast crypto keyLineage (some now) edge chain a :=
      acceptsLast_iff.mpr ⟨hends.wellFormed, _, judge_ok_iff.mpr ⟨hends.dated, hends.standing, _,
        .table hends.uncontesting (.disputeExpired hends.state hends.disputed hsince hrun), rfl⟩⟩
    have hle := h haccepted hends.state
    exact absurd hends.ahead (not_lt.mpr hle)
  · intro hnot haccepted ha
    obtain ⟨hedge, ctx, hjudge⟩ := acceptsLast_iff.mp haccepted
    obtain ⟨hdated, hstanding, next, hrow, -⟩ := judge_ok_iff.mp hjudge
    cases hrow with
    | contest _ hfault => exact not_ahead_of_contest ha hfault
    | table hc hrow =>
      cases hrow with
      | expired _ _ _ _ hfuture | contestedExpired _ _ _ _ hfuture => exact not_ahead hfuture
      | disputeExpired _ hdisputed hsince hrun =>
        by_contra hlt
        exact hnot ⟨hedge, ha, hdisputed, hstanding, hdated, hc, ⟨_, hsince, hrun⟩, not_le.mp hlt⟩
      | _ => simp_all

end Servanda.Transitions

namespace Servanda.Sample

open Transitions

/-- Six weeks after the dispute, signed and read an hour after it. -/
def earlyEscape : Assertion := act .expired ownerKey (date 4 20 10) none 0

/-- A dispute ended on the day it was raised: its window is measured between two dates that the
parties wrote. -/
theorem dispute_expires_ahead : ¬ExpiresInTime crypto noRotations edge (date 3 2 11)
    [proposal, confirmation, closure, dispute] earlyEscape := by decide +kernel

end Servanda.Sample
