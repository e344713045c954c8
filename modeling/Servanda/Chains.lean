import Servanda.Table

namespace Servanda.Transitions

variable (crypto : Crypto) (keyLineage : KeyLineage) (now : Option Rfc3339) (edge : Edge)

def context (chain : List Assertion) : ChainState :=
  Replay.final (judge crypto keyLineage now edge) .start chain

/-- The verifier's verdict on the assertion of a chain that follows a prefix. -/
def AcceptedAt (chain before : List Assertion) (a : Assertion) : Prop :=
  before ++ [a] <+: chain ∧
    ((verifyAssertionChain crypto keyLineage now edge chain).outcomes[before.length]?).any
      (·.accepted) = true

/-- The last assertion is accepted when the chain with it is verified. -/
def AcceptsLast (chain : List Assertion) (a : Assertion) : Prop :=
  AcceptedAt crypto keyLineage now edge (chain ++ [a]) chain a

def AcceptsAll (chain : List Assertion) : Prop :=
  ∀ o ∈ (verifyAssertionChain crypto keyLineage now edge chain).outcomes, o.accepted = true

def finalState (chain : List Assertion) : EffectiveState :=
  (verifyAssertionChain crypto keyLineage now edge chain).finalState

instance (chain before : List Assertion) (a : Assertion) :
    Decidable (AcceptedAt crypto keyLineage now edge chain before a) :=
  inferInstanceAs (Decidable (_ ∧ _))

instance (chain : List Assertion) (a : Assertion) :
    Decidable (AcceptsLast crypto keyLineage now edge chain a) :=
  inferInstanceAs (Decidable (AcceptedAt ..))

instance (chain : List Assertion) : Decidable (AcceptsAll crypto keyLineage now edge chain) :=
  inferInstanceAs (Decidable (∀ o ∈ _, _))

variable {crypto keyLineage now edge}

@[simp] theorem context_nil : context crypto keyLineage now edge [] = .start := rfl

theorem context_append (l m : List Assertion) :
    context crypto keyLineage now edge (l ++ m) =
      Replay.final (judge crypto keyLineage now edge) (context crypto keyLineage now edge l) m :=
  Replay.final_append _ _ _

theorem context_snoc (l : List Assertion) (a : Assertion) :
    context crypto keyLineage now edge (l ++ [a]) =
      Replay.next (judge crypto keyLineage now edge) (context crypto keyLineage now edge l) a :=
  Replay.final_snoc _ _ _

theorem context_snoc_ok {l : List Assertion} {a : Assertion} {ctx : ChainState}
    (h : judge crypto keyLineage now edge (context crypto keyLineage now edge l) a = .ok ctx) :
    context crypto keyLineage now edge (l ++ [a]) = ctx := by
  rw [context_snoc, Replay.next_ok h]

theorem context_snoc_error {l : List Assertion} {a : Assertion} {reason : RejectionReason}
    (h : judge crypto keyLineage now edge (context crypto keyLineage now edge l) a =
      .error reason) :
    context crypto keyLineage now edge (l ++ [a]) = context crypto keyLineage now edge l := by
  rw [context_snoc, Replay.next_error h]

theorem finalState_malformed {reason : RejectionReason}
    (h : edgeMalformed crypto edge = some reason) (chain : List Assertion) :
    finalState crypto keyLineage now edge chain = .none := by
  simp [finalState, verifyAssertionChain, h]

theorem finalState_eq (h : edgeMalformed crypto edge = none) (chain : List Assertion) :
    finalState crypto keyLineage now edge chain =
      (context crypto keyLineage now edge chain).state := by
  simp [finalState, verifyAssertionChain, h, context]

theorem deadlockedSince_eq (h : edgeMalformed crypto edge = none) (chain : List Assertion) :
    (verifyAssertionChain crypto keyLineage now edge chain).deadlockedSince =
      deadlockedSince (context crypto keyLineage now edge chain) := by
  simp [verifyAssertionChain, h, context]

theorem edgeMalformed_of_finalState {chain : List Assertion}
    (h : finalState crypto keyLineage now edge chain ≠ .none) :
    edgeMalformed crypto edge = none := by
  cases hm : edgeMalformed crypto edge with
  | none => rfl
  | some reason => exact absurd (finalState_malformed hm chain) h

/-- The verdict on an assertion is the table's answer in the context of what precedes it. -/
theorem acceptedAt_iff {chain before : List Assertion} {a : Assertion} :
    AcceptedAt crypto keyLineage now edge chain before a ↔
      edgeMalformed crypto edge = none ∧ before ++ [a] <+: chain ∧
        ∃ ctx, judge crypto keyLineage now edge (context crypto keyLineage now edge before) a =
          .ok ctx := by
  cases hm : edgeMalformed crypto edge with
  | some reason =>
    simp only [AcceptedAt, verifyAssertionChain, hm, reduceCtorEq, false_and, iff_false, not_and]
    intro _ h
    rw [List.getElem?_mapIdx] at h
    cases hc : chain[before.length]? <;> simp [hc, outcome] at h
  | none =>
    simp only [AcceptedAt, verifyAssertionChain, hm, true_and]
    apply and_congr_right
    intro hpre
    obtain ⟨after, rfl⟩ := hpre
    rw [List.append_assoc, List.singleton_append, List.getElem?_mapIdx, Replay.verdicts_split,
      ← context]
    cases judge crypto keyLineage now edge (context crypto keyLineage now edge before) a <;>
      simp [outcome]

theorem AcceptedAt.mono {chain chain' before : List Assertion} {a : Assertion}
    (h : AcceptedAt crypto keyLineage now edge chain before a) (hpre : chain <+: chain') :
    AcceptedAt crypto keyLineage now edge chain' before a := by
  obtain ⟨hedge, hbefore, hctx⟩ := acceptedAt_iff.mp h
  exact acceptedAt_iff.mpr ⟨hedge, hbefore.trans hpre, hctx⟩

theorem acceptsLast_iff {chain : List Assertion} {a : Assertion} :
    AcceptsLast crypto keyLineage now edge chain a ↔ edgeMalformed crypto edge = none ∧
      ∃ ctx, judge crypto keyLineage now edge (context crypto keyLineage now edge chain) a =
        .ok ctx := by
  simp [AcceptsLast, acceptedAt_iff]

theorem outcomes_last (chain : List Assertion) (a : Assertion) :
    ∃ verdict, (verifyAssertionChain crypto keyLineage now edge (chain ++ [a])).outcomes[chain.length]? =
      some (outcome chain.length verdict) := by
  cases hm : edgeMalformed crypto edge with
  | some reason => exact ⟨some reason, by simp [verifyAssertionChain, hm]⟩
  | none =>
    simp only [verifyAssertionChain, hm, List.getElem?_mapIdx, Replay.verdicts_split]
    exact ⟨_, rfl⟩

theorem acceptsLast_of_unrejected {chain : List Assertion} {a : Assertion}
    (h : ((verifyAssertionChain crypto keyLineage now edge (chain ++ [a])).outcomes[chain.length]?).bind
      (·.rejectionReason) = none) : AcceptsLast crypto keyLineage now edge chain a := by
  obtain ⟨verdict, hverdict⟩ := @outcomes_last crypto keyLineage now edge chain a
  rw [hverdict] at h
  obtain rfl : verdict = none := h
  exact ⟨List.prefix_rfl, by rw [hverdict]; rfl⟩

theorem unrejected_of_acceptsLast {chain : List Assertion} {a : Assertion}
    (h : AcceptsLast crypto keyLineage now edge chain a) :
    ((verifyAssertionChain crypto keyLineage now edge (chain ++ [a])).outcomes[chain.length]?).bind
      (·.rejectionReason) = none := by
  obtain ⟨verdict, hverdict⟩ := @outcomes_last crypto keyLineage now edge chain a
  have haccepted := h.2
  rw [hverdict] at haccepted ⊢
  cases verdict with
  | none => rfl
  | some reason => simp [outcome] at haccepted

theorem edgeMalformed_eq_none_iff : edgeMalformed crypto edge = none ↔
    crypto.edgeIdBindsBody edge = true ∧ acceptanceWindowMalformed edge = false := by
  unfold edgeMalformed
  split_ifs with hbind hwindow
  · simp [show crypto.edgeIdBindsBody edge = false by simpa using hbind]
  · simp [hwindow]
  · simpa using ⟨by simpa using hbind, by simpa using hwindow⟩

/-- What the first assertion of an edge must be. The clock has no say in it. -/
theorem acceptsLast_first_iff {a : Assertion} :
    AcceptsLast crypto noRotations now edge [] a ↔ edgeMalformed crypto edge = none ∧
      a.edgeId = edge.edgeId ∧ crypto.verifyObject (.assertion a) a.signer = true ∧
      a.state = .proposed ∧ a.signer = edge.owner := by
  rw [acceptsLast_iff]
  refine and_congr_right fun _ ↦ ⟨?_, ?_⟩
  · intro h
    obtain ⟨ctx, hj⟩ := h
    obtain ⟨-, hstand, next, hrow, -⟩ := judge_ok_iff.mp hj
    cases hrow with
    | contest hc => cases hc
    | table _ hrow =>
      cases hrow with
      | proposed ha hs ho =>
        exact ⟨hstand.aboutEdge, hstand.signed, ha, heldBy_noRotations.mp ho⟩
      | disputed _ hs => simp [context, ChainState.start, disputableFrom] at hs
      | supersededHalf _ hs | superseded _ hs => rcases hs with hs | hs <;> cases hs
      | _ => contradiction
  · intro h
    obtain ⟨hid, hsig, ha, howner⟩ := h
    have ho : heldBy (noRotations edge.owner) a.signer a.assertedAt = true :=
      heldBy_noRotations.mpr howner
    exact ⟨_, judge_ok_iff.mpr ⟨rfl, ⟨hid, hsig, .inl ho, by simp [ha]⟩, _,
      .table rfl (.proposed ha rfl ho), rfl⟩⟩

theorem acceptsAll_iff {chain : List Assertion} (h : edgeMalformed crypto edge = none) :
    AcceptsAll crypto keyLineage now edge chain ↔
      Replay.Path (judge crypto keyLineage now edge) .start chain
        (context crypto keyLineage now edge chain) := by
  simp only [AcceptsAll, verifyAssertionChain, h, Replay.path_iff, context, and_true]
  constructor
  · intro hall v hv
    obtain ⟨i, hi, rfl⟩ := List.getElem_of_mem hv
    have ho := hall (outcome i (Replay.verdicts (judge crypto keyLineage now edge) .start chain)[i])
      (List.mem_mapIdx.mpr ⟨i, hi, rfl⟩)
    simpa [outcome] using ho
  · intro hall o ho
    obtain ⟨i, hi, rfl⟩ := List.mem_mapIdx.mp ho
    simp [outcome, hall _ (List.getElem_mem hi)]

/-- The same row under another clock that finds the assertion no further in its future, for a
signer who still holds at least the sides it held. The context left behind is the same. -/
theorem TableRow.transfer {now' : Option Rfc3339} {o w o' w' : Bool} {ctx ctx' : ChainState}
    {a : Assertion} (h : TableRow edge now o w ctx a ctx') (ho : o = true → o' = true)
    (hw : w = true → w' = true)
    (hf : datedInTheFuture now a = false → datedInTheFuture now' a = false) :
    TableRow edge now' o' w' ctx a ctx' := by
  cases h with
  | proposed ha hs h => exact .proposed ha hs (ho h)
  | confirmed ha hs h => exact .confirmed ha hs (hw h)
  | evidenceCloses ha hs h he hp => exact .evidenceCloses ha hs (ho h) he hp
  | evidenceOpensWindow ha hs h he hp => exact .evidenceOpensWindow ha hs (ho h) he hp
  | accepted ha hs h => exact .accepted ha hs (hw h)
  | tacit ha hs _ ht he =>
    cases hw' : w' with
    | true => exact .accepted ha hs rfl
    | false => exact .tacit ha hs rfl ht he
  | disputeClosedHalf ha hs hn hc => exact .disputeClosedHalf ha hs hn hc
  | disputeClosed ha hs hn hc => exact .disputeClosed ha hs hn hc
  | released ha hs h => exact .released ha hs (hw h)
  | disputeExpired ha hs ht he => exact .disputeExpired ha hs ht he
  | expired ha hs hd ht h => exact .expired ha hs hd ht (hf h)
  | disputed ha hs he => exact .disputed ha hs he
  | supersededHalf ha hs hn hc => exact .supersededHalf ha hs hn hc
  | superseded ha hs hn hc => exact .superseded ha hs hn hc
  | contestedClosedHalf ha hs hn hc => exact .contestedClosedHalf ha hs hn hc
  | contestedClosed ha hs hn hc => exact .contestedClosed ha hs hn hc
  | contestedSupersededHalf ha hs hn hc => exact .contestedSupersededHalf ha hs hn hc
  | contestedSuperseded ha hs hn hc => exact .contestedSuperseded ha hs hn hc
  | contestedExpired ha hs ht he h => exact .contestedExpired ha hs ht he (hf h)

theorem unilateralExitFault_transfer {now' : Option Rfc3339} {o w o' w' : Bool} {a : Assertion}
    (h : unilateralExitFault edge a now o w = none) (ho : o = true → o' = true)
    (hw : w = true → w' = true)
    (hf : datedInTheFuture now a = false → datedInTheFuture now' a = false) :
    unilateralExitFault edge a now' o' w' = none := by
  unfold unilateralExitFault at h ⊢
  split at h
  · split_ifs at h with h₁ h₂
    simp [ho (by simpa using h₁), h₂]
  · split_ifs at h with h₁
    simp [hw h₁]
  · split at h
    · cases h
    · split_ifs at h with h₁ h₂
      simp [h₁, hf (by simpa using h₂)]
  · cases h

theorem judge_transfer {keyLineage' : KeyLineage} {now' : Option Rfc3339} {ctx ctx' : ChainState}
    {a : Assertion} (h : judge crypto keyLineage now edge ctx a = .ok ctx')
    (ho : heldBy (keyLineage edge.owner) a.signer a.assertedAt = true →
      heldBy (keyLineage' edge.owner) a.signer a.assertedAt = true)
    (hw : heldBy (keyLineage edge.owedTo) a.signer a.assertedAt = true →
      heldBy (keyLineage' edge.owedTo) a.signer a.assertedAt = true)
    (hf : datedInTheFuture now a = false → datedInTheFuture now' a = false) :
    judge crypto keyLineage' now' edge ctx a = .ok ctx' := by
  obtain ⟨hb, ⟨hid, hsig, hparty, hopen⟩, next, hrow, rfl⟩ := judge_ok_iff.mp h
  refine judge_ok_iff.mpr ⟨hb, ⟨hid, hsig, hparty.imp ho hw, hopen⟩, next, ?_, rfl⟩
  cases hrow with
  | contest hc hfault => exact .contest hc (unilateralExitFault_transfer hfault ho hw hf)
  | table hc hrow => exact .table hc (hrow.transfer ho hw hf)

/-- The clock only filters: what a node accepts with one, a replay accepts without. -/
theorem judge_filters : Replay.Filters (judge crypto keyLineage now edge)
    (judge crypto keyLineage none edge) := fun _ _ _ h ↦ judge_transfer h id id fun _ ↦ rfl

/-- A later clock accepts whatever an earlier one does. -/
theorem judge_filters_later {n m : Rfc3339} (h : Date.parse n ≤ Date.parse m) :
    Replay.Filters (judge crypto keyLineage (some n) edge)
      (judge crypto keyLineage (some m) edge) := by
  refine fun _ a _ hj ↦ judge_transfer hj id id fun hn ↦ ?_
  simp only [datedInTheFuture, Option.any_some, decide_eq_false_iff_not, not_lt] at hn ⊢
  omega

theorem judge_latestBySigner {ctx ctx' : ChainState} {a : Assertion}
    (h : judge crypto keyLineage now edge ctx a = .ok ctx') :
    ctx'.latestBySigner = Function.update ctx.latestBySigner a.signer (some a.assertedAt) := by
  obtain ⟨-, -, next, hrow, rfl⟩ := judge_ok_iff.mp h
  have hsame : next.latestBySigner = ctx.latestBySigner := by
    cases hrow with
    | contest => rfl
    | table _ hrow => cases hrow <;> rfl
  rw [record, hsame]

theorem not_backdated {ctx ctx' : ChainState} {a : Assertion} {d : Rfc3339}
    (h : judge crypto keyLineage now edge ctx a = .ok ctx')
    (hd : ctx.latestBySigner a.signer = some d) : Date.parse d ≤ Date.parse a.assertedAt := by
  obtain ⟨hdated, -⟩ := judge_ok_iff.mp h
  simpa [backdated, hd] using hdated

theorem latestBySigner_mem {chain : List Assertion} {k : PublicKeyHex} {d : Rfc3339}
    (h : (context crypto keyLineage now edge chain).latestBySigner k = some d) :
    ∃ y ∈ chain, y.signer = k ∧ y.assertedAt = d := by
  have hrun : ∀ k d, (context crypto keyLineage now edge chain).latestBySigner k = some d →
      ∃ y ∈ Replay.accepted (judge crypto keyLineage now edge) .start chain,
        y.signer = k ∧ y.assertedAt = d := by
    refine Replay.invariant (I := fun l (ctx : ChainState) ↦ ∀ k d, ctx.latestBySigner k = some d →
      ∃ y ∈ l, y.signer = k ∧ y.assertedAt = d) (fun k d hd ↦ ?_) ?_ chain
    · cases hd
    intro l ctx a ctx' ih hj k d hd
    rw [judge_latestBySigner hj] at hd
    by_cases hk : k = a.signer
    · subst hk
      rw [Function.update_self, Option.some.injEq] at hd
      exact ⟨a, by simp, rfl, hd⟩
    · rw [Function.update_of_ne hk] at hd
      obtain ⟨y, hy, hr⟩ := ih k d hd
      exact ⟨y, List.mem_append_left _ hy, hr⟩
  obtain ⟨y, hy, hr⟩ := hrun k d h
  exact ⟨y, (Replay.accepted_sublist _ _).subset hy, hr⟩

/-- What the members of a context say of each other. -/
structure Coherent (ctx : ChainState) : Prop where
  unexited : ctx.state = .none ∨ ctx.state = .proposed ∨ ctx.state = .opened → ctx.exit = none
  closing : ctx.state = .pendingAcceptance ∨ ctx.state = .disputed →
    ∀ e, ctx.exit = some e → e.state = .closed
  disputed : ctx.state = .disputed → ctx.disputedAt ≠ none
  contested : ctx.state = .contestedClosure → ctx.contestedAt ≠ none

theorem TableRow.coherent {o w : Bool} {ctx ctx' : ChainState} {a : Assertion}
    (h : TableRow edge now o w ctx a ctx') (hc : Coherent ctx) : Coherent ctx' := by
  obtain ⟨h₁, h₂, h₃, h₄⟩ := hc
  cases h with
  | disputed ha hs he =>
    have hs' : ctx.state = .opened ∨ ctx.state = .pendingAcceptance := by
      simpa [disputableFrom] using hs
    refine ⟨by simp, fun _ e hexit ↦ ?_, by simp, by simp⟩
    rcases hs' with hs' | hs'
    · rw [h₁ (.inr (.inr hs'))] at hexit
      cases hexit
    · exact h₂ (.inl hs') e hexit
  | supersededHalf ha hs => exact ⟨h₁, h₂, h₃, h₄⟩
  | disputeClosedHalf | contestedClosedHalf | contestedSupersededHalf => exact ⟨h₁, h₂, h₃, h₄⟩
  | _ => constructor <;> simp_all [resolve]

theorem judge_coherent {ctx ctx' : ChainState} {a : Assertion}
    (h : judge crypto keyLineage now edge ctx a = .ok ctx') (hc : Coherent ctx) :
    Coherent ctx' := by
  obtain ⟨-, -, next, hrow, rfl⟩ := judge_ok_iff.mp h
  have hnext : Coherent next := by
    cases hrow with
    | contest => constructor <;> simp [contest]
    | table _ hrow => exact hrow.coherent hc
  exact ⟨hnext.unexited, hnext.closing, hnext.disputed, hnext.contested⟩

theorem context_coherent (chain : List Assertion) :
    Coherent (context crypto keyLineage now edge chain) := by
  refine Replay.invariant (I := fun _ ctx ↦ Coherent ctx) ?_
    (fun _ _ _ _ h hj ↦ judge_coherent hj h) chain
  constructor <;> simp [ChainState.start]

/-- How far an edge has come: before, at, or past the point where its exits open. -/
def stage : EffectiveState → ℕ
  | .none => 0
  | .proposed => 1
  | .opened => 2
  | _ => 3

theorem judge_stage {ctx ctx' : ChainState} {a : Assertion}
    (h : judge crypto keyLineage now edge ctx a = .ok ctx') : stage ctx.state ≤ stage ctx'.state := by
  obtain ⟨-, -, next, hrow, rfl⟩ := judge_ok_iff.mp h
  cases hrow with
  | contest => cases hs : ctx.state <;> simp [stage, record, contest]
  | table _ hrow =>
    cases hrow with
    | proposed _ hs | confirmed _ hs => simp [stage, record, hs]
    | supersededHalf | disputeClosedHalf | contestedClosedHalf | contestedSupersededHalf => exact le_rfl
    | _ => cases hs : ctx.state <;> simp [stage, record, resolve]

theorem stage_mono {l m : List Assertion} (h : l <+: m) :
    stage (context crypto keyLineage now edge l).state ≤
      stage (context crypto keyLineage now edge m).state := by
  obtain ⟨r, rfl⟩ := h
  induction r using List.reverseRecOn with
  | nil => rw [List.append_nil]
  | append_singleton r a ih =>
    rw [← List.append_assoc]
    cases hj : judge crypto keyLineage now edge
        (context crypto keyLineage now edge (l ++ r)) a with
    | ok ctx => exact ih.trans (by rw [context_snoc_ok hj]; exact judge_stage hj)
    | error reason => rwa [context_snoc_error hj]

end Servanda.Transitions

/-! A promise between two people, signed with real keys, for worked inputs. -/

namespace Servanda.Sample

open Transitions

def ownerKey : PublicKeyHex := 0x6484961533e9f98bc7ca829c9344b5ab604cc749e5512d7c21e11f6ba20681f9

def creditorKey : PublicKeyHex := 0x326144b463963d1771ec54b29e37176c2bbdde6eb59efb7a6010a60eaf62303a

def evidence : Sha256Hex := 0xee8250fb76e094b34b471f13a73dbbe51d1ae142e9df59d7c0d31ec20f0a0a8e

theorem date_parseable {month day hour : ℕ}
    (h : decide ((1 ≤ month ∧ month ≤ 12) ∧ (1 ≤ day ∧ day ≤ 31) ∧ hour ≤ 23) = true) :
    2026 ≤ 9999 ∧ (1 ≤ month ∧ month ≤ 12) ∧ (1 ≤ day ∧ day ≤ 31) ∧
      (hour ≤ 23 ∨ hour = 24 ∧ 0 = 0 ∧ 0 = 0 ∧ ∀ d ∈ ([] : Digits), d = 0) ∧
      0 ≤ 59 ∧ 0 ≤ 59 ∧ Zone.utc.InRange := by
  obtain ⟨hmonth, hday, hhour⟩ := of_decide_eq_true h
  exact ⟨by decide, hmonth, hday, .inl hhour, by decide, by decide, trivial⟩

def date (month day hour : ℕ)
    (h : decide ((1 ≤ month ∧ month ≤ 12) ∧ (1 ≤ day ∧ day ≤ 31) ∧ hour ≤ 23) = true := by
      exact Eq.refl true) : Rfc3339 where
  year := 2026
  month := month
  day := day
  hour := hour
  minute := 0
  second := 0
  fraction := []
  zone := .utc
  parseable := date_parseable h

def edge : Edge where
  edgeId := 0x2341be3a917aeec8af2aad2991b3f560c9592bb3ef55b56583955a538fd2254f
  commitmentHash := 0xe46a00fda750e6db95ffb4813d33171f3c5c8070d8347dca7ad2d87c34c5a064
  owner := ownerKey
  owedTo := creditorKey
  proposedAt := date 3 1 9
  due := none
  closurePolicy := .onAcceptance
  acceptanceWindow := some P5D
  blockedBy := []
  fulfillment := none
  supersedes := none

/-- The digest of this edge's body, and signatures that verify: what the primitives answer on the
objects below. -/
def crypto : Crypto where
  sha256Hex _ := edge.edgeId
  canonicalBytes _ := []
  verifyObject _ _ := true
  signAssertion a _ := a.sig

def act (state : WireAssertionState) (signer : PublicKeyHex) (assertedAt : Rfc3339)
    (evidenceHash : Option Sha256Hex) (sig : SignatureHex) : Assertion :=
  ⟨edge.edgeId, state, assertedAt, signer, evidenceHash, sig⟩

def proposal : Assertion := act .proposed ownerKey (date 3 1 9) none
  0xcbb5f038fc99ca493f3c43ead0bceca66ffa652a67f82b283f18df6226fc11034a50f3715044061b8218ec145bcde5656ff727a5918126fe21cb8af186703f0f

def confirmation : Assertion := act .confirmed creditorKey (date 3 1 10) none
  0x9bfb74085c557039545e09a77c199c4a2638f2ffb9e752f159316fd152c4aee7d5372f6bbc97bd613a3d69b6b846d9dc156cc91e0b0c91a9bfbe57a101a9540e

def closure : Assertion := act .closed ownerKey (date 3 2 10) (some evidence)
  0xdb157d7d619045740d3b6d2ae0d2ccd80665e340cf9b1109b2743f37c50970a37263bdf13e6ab159e7bcb858534f0e3fbf8a9d79d91aee3be546592eb1acd60c

def dispute : Assertion := act .disputed creditorKey (date 3 2 10) (some evidence)
  0x51086f49bfd3aebef09f6105e662f1b1b76c62be34caeec26dd57e640d809c802492b613a9767516aa75ec35ec5acabea6a077fb098bf52ecb2470a52f06c906

def nextKey : PublicKeyHex := 0x08239f134e2590fc6ca33b9f46436bd498de008229288cdb5d322061be8ae6d0

theorem rotate_signed (sig : SignatureHex) :
    some sig ≠ none ∨ (none : Option SignatureHex) ≠ none :=
  .inl (Option.some_ne_none sig)

def rotate (old new : PublicKeyHex) (rotatedAt : Rfc3339) (sig : SignatureHex) : Rotation where
  old := old
  new := new
  rotatedAt := rotatedAt
  sig := some sig
  sigOld := none
  sigNew := none
  signed := rotate_signed sig

def ownerRotation : Rotation := rotate ownerKey nextKey (date 3 3 0)
  0x0628e60d942063581cac54e35e468e1c5a7947a09190dd28d0bab22480dada7506cc794b1bfc4cf61d40dbfc9883d409619b4efdd799d45967ed321c58545502

example : finalState crypto noRotations none edge [proposal, confirmation, closure] =
    .pendingAcceptance := by decide +kernel

end Servanda.Sample
