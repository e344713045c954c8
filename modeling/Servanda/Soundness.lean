import Servanda.Chains

namespace Servanda.Soundness

open Transitions

variable (crypto : Crypto) (now : Option Rfc3339) (edge : Edge)

/-- The assertion stands in the chain right after the prefix, and is accepted there by a verifier
that knows of no rotation. -/
def Accepted (chain before : List Assertion) (a : Assertion) : Prop :=
  AcceptedAt crypto noRotations now edge chain before a

def StateAt (chain : List Assertion) : EffectiveState := finalState crypto noRotations now edge chain

def Asserted (chain : List Assertion) (state : WireAssertionState) (key : PublicKeyHex) : Prop :=
  ∃ before a, Accepted crypto now edge chain before a ∧ a.state = state ∧ a.signer = key

def Both (chain : List Assertion) (state : WireAssertionState) : Prop :=
  Asserted crypto now edge chain state edge.owner ∧ Asserted crypto now edge chain state edge.owedTo

def Confirmed (chain : List Assertion) : Prop :=
  ∃ p x q y, Accepted crypto now edge chain p x ∧ x.state = .proposed ∧ x.signer = edge.owner ∧
    Accepted crypto now edge chain q y ∧ y.state = .confirmed ∧ y.signer = edge.owedTo ∧
    p.length < q.length

def Evidenced (chain : List Assertion) : Prop :=
  ∃ p x q y, Accepted crypto now edge chain p x ∧ x.state = .confirmed ∧ x.signer = edge.owedTo ∧
    Accepted crypto now edge chain q y ∧ y.state = .closed ∧ y.signer = edge.owner ∧
    y.evidenceHash ≠ none ∧ p.length < q.length

/-- The owner's closure that opened the acceptance window, and when. -/
def WindowOpened (chain : List Assertion) (openedAt : Rfc3339) : Prop :=
  ∃ p x, Accepted crypto now edge chain p x ∧ x.state = .closed ∧ x.signer = edge.owner ∧
    x.assertedAt = openedAt ∧ StateAt crypto now edge p = .opened ∧
    StateAt crypto now edge (p ++ [x]) = .pendingAcceptance

def Expired (chain : List Assertion) : Prop :=
  ∃ p x, Accepted crypto now edge chain p x ∧ x.state = .expired ∧
    (x.signer = edge.owner ∨ x.signer = edge.owedTo) ∧
    ((∃ due, edge.due = some due ∧ Date.parse due ≤ Date.parse x.assertedAt) ∨
      ∃ since, (verifyAssertionChain crypto noRotations now edge p).deadlockedSince = some since ∧
        Date.parse since + 30 * Calendar.msPerDay ≤ Date.parse x.assertedAt)

def Visited (chain : List Assertion) (state : EffectiveState) : Prop :=
  ∃ p, p <+: chain ∧ StateAt crypto now edge p = state

/-- What the state a chain ends in says of the signatures behind it. -/
structure TableSound (chain : List Assertion) : Prop where
  proposed : StateAt crypto now edge chain ≠ .none →
    Asserted crypto now edge chain .proposed edge.owner
  confirmed : StateAt crypto now edge chain ≠ .none → StateAt crypto now edge chain ≠ .proposed →
    Confirmed crypto now edge chain
  evidence : (StateAt crypto now edge chain = .pendingAcceptance ∨
      StateAt crypto now edge chain = .closed ∧ ¬Visited crypto now edge chain .disputed ∧
        ¬Visited crypto now edge chain .contestedClosure) →
    Evidenced crypto now edge chain
  closedFromPending : ∀ p x, Accepted crypto now edge chain p x →
    StateAt crypto now edge p = .pendingAcceptance → StateAt crypto now edge (p ++ [x]) = .closed →
    x.state = .closed ∧ (x.signer = edge.owedTo ∨ x.signer = edge.owner ∧
      ∃ openedAt window ends, WindowOpened crypto now edge p openedAt ∧
        edge.acceptanceWindow = some window ∧
        addDuration (Date.parse openedAt) window = some ends ∧ ends ≤ Date.parse x.assertedAt)
  closedFromDeadlock : ∀ p x, Accepted crypto now edge chain p x →
    StateAt crypto now edge p = .disputed ∨ StateAt crypto now edge p = .contestedClosure →
    StateAt crypto now edge (p ++ [x]) = .closed → Both crypto now edge (p ++ [x]) .closed
  superseded : StateAt crypto now edge chain = .superseded → Both crypto now edge chain .superseded
  released : StateAt crypto now edge chain = .released →
    Asserted crypto now edge chain .released edge.owedTo
  expired : StateAt crypto now edge chain = .expired → Expired crypto now edge chain
  disputed : StateAt crypto now edge chain = .disputed →
    ∃ p x, Accepted crypto now edge chain p x ∧ x.state = .disputed ∧ x.evidenceHash ≠ none

/-- Every key of a set is a party's, and its assertion of the state is accepted. -/
def HeldBy (chain : List Assertion) (state : WireAssertionState) (keys : Finset PublicKeyHex) :
    Prop :=
  ∀ k ∈ keys, (k = edge.owner ∨ k = edge.owedTo) ∧ Asserted crypto now edge chain state k

structure Recorded (chain : List Assertion) (ctx : ChainState) : Prop where
  left : ctx.exit ≠ none → Confirmed crypto now edge chain
  evidence : ∀ e, ctx.exit = some e → e.state = .closed → Evidenced crypto now edge chain
  window : ∀ t, ctx.windowOpenedAt = some t → WindowOpened crypto now edge chain t
  supersededBy : HeldBy crypto now edge chain .superseded ctx.supersededBy
  disputeClosedBy : HeldBy crypto now edge chain .closed ctx.disputeClosedBy
  contestClosedBy : HeldBy crypto now edge chain .closed ctx.contestClosedBy
  contestSupersededBy : HeldBy crypto now edge chain .superseded ctx.contestSupersededBy
  disputedAt : ctx.disputedAt ≠ none → Visited crypto now edge chain .disputed
  contestedAt : ctx.contestedAt ≠ none → Visited crypto now edge chain .contestedClosure

/-- What must have been signed for the table to stand in a state. -/
def Reached (chain : List Assertion) (ctx : ChainState) : EffectiveState → Prop
  | .none => True
  | .proposed => Asserted crypto now edge chain .proposed edge.owner
  | .opened => Confirmed crypto now edge chain
  | .pendingAcceptance =>
    Confirmed crypto now edge chain ∧ ∃ e, ctx.exit = some e ∧ e.state = .closed
  | .closed => Confirmed crypto now edge chain ∧
    (ctx.disputedAt = none → ctx.contestedAt = none → ∃ e, ctx.exit = some e ∧ e.state = .closed)
  | .released =>
    Confirmed crypto now edge chain ∧ Asserted crypto now edge chain .released edge.owedTo
  | .expired => Confirmed crypto now edge chain ∧ Expired crypto now edge chain
  | .contestedClosure => Confirmed crypto now edge chain ∧ ctx.contestedAt ≠ none
  | .disputed => Confirmed crypto now edge chain ∧ ctx.disputedAt ≠ none ∧
    ∃ p x, Accepted crypto now edge chain p x ∧ x.state = .disputed ∧ x.evidenceHash ≠ none
  | .superseded => Confirmed crypto now edge chain ∧ Both crypto now edge chain .superseded

structure Invariant (chain : List Assertion) (ctx : ChainState) : Prop where
  recorded : Recorded crypto now edge chain ctx
  reached : Reached crypto now edge chain ctx ctx.state

variable {crypto now edge} {chain : List Assertion} {ctx ctx' : ChainState} {a : Assertion}

theorem stateAt_eq (hedge : edgeMalformed crypto edge = none) (chain : List Assertion) :
    StateAt crypto now edge chain = (context crypto noRotations now edge chain).state :=
  finalState_eq hedge chain

theorem Accepted.mono {p : List Assertion} {x : Assertion} (h : Accepted crypto now edge chain p x)
    (a : Assertion) : Accepted crypto now edge (chain ++ [a]) p x :=
  AcceptedAt.mono h (List.prefix_append _ _)

theorem Accepted.length_lt {p : List Assertion} {x : Assertion} (h : Accepted crypto now edge chain p x) :
    p.length < chain.length := by
  have hl := h.1.length_le
  simp only [List.length_append, List.length_singleton] at hl
  omega

theorem Asserted.mono {state : WireAssertionState} {key : PublicKeyHex}
    (h : Asserted crypto now edge chain state key) (a : Assertion) :
    Asserted crypto now edge (chain ++ [a]) state key := by
  obtain ⟨p, x, hx, hs⟩ := h
  exact ⟨p, x, hx.mono a, hs⟩

theorem Both.mono {state : WireAssertionState} (h : Both crypto now edge chain state)
    (a : Assertion) : Both crypto now edge (chain ++ [a]) state := ⟨h.1.mono a, h.2.mono a⟩

theorem Confirmed.mono (h : Confirmed crypto now edge chain) (a : Assertion) :
    Confirmed crypto now edge (chain ++ [a]) := by
  obtain ⟨p, x, q, y, hx, hxs, hxo, hy, hr⟩ := h
  exact ⟨p, x, q, y, hx.mono a, hxs, hxo, hy.mono a, hr⟩

theorem Evidenced.mono (h : Evidenced crypto now edge chain) (a : Assertion) :
    Evidenced crypto now edge (chain ++ [a]) := by
  obtain ⟨p, x, q, y, hx, hxs, hxo, hy, hr⟩ := h
  exact ⟨p, x, q, y, hx.mono a, hxs, hxo, hy.mono a, hr⟩

theorem WindowOpened.mono {t : Rfc3339} (h : WindowOpened crypto now edge chain t)
    (a : Assertion) : WindowOpened crypto now edge (chain ++ [a]) t := by
  obtain ⟨p, x, hx, hr⟩ := h
  exact ⟨p, x, hx.mono a, hr⟩

theorem HeldBy.mono {state : WireAssertionState} {keys : Finset PublicKeyHex}
    (h : HeldBy crypto now edge chain state keys) (a : Assertion) :
    HeldBy crypto now edge (chain ++ [a]) state keys :=
  fun k hk ↦ ⟨(h k hk).1, (h k hk).2.mono a⟩

theorem Visited.mono {state : EffectiveState} (h : Visited crypto now edge chain state)
    (a : Assertion) : Visited crypto now edge (chain ++ [a]) state := by
  obtain ⟨p, hp, hs⟩ := h
  exact ⟨p, hp.trans (List.prefix_append _ _), hs⟩

theorem Recorded.mono (h : Recorded crypto now edge chain ctx) (a : Assertion) :
    Recorded crypto now edge (chain ++ [a]) ctx where
  left he := (h.left he).mono a
  evidence e he hc := (h.evidence e he hc).mono a
  window t ht := (h.window t ht).mono a
  supersededBy := h.supersededBy.mono a
  disputeClosedBy := h.disputeClosedBy.mono a
  contestClosedBy := h.contestClosedBy.mono a
  contestSupersededBy := h.contestSupersededBy.mono a
  disputedAt hd := (h.disputedAt hd).mono a
  contestedAt hc := (h.contestedAt hc).mono a

theorem Reached.mono {state : EffectiveState} (h : Reached crypto now edge chain ctx state)
    (a : Assertion) : Reached crypto now edge (chain ++ [a]) ctx state := by
  cases state with
  | none => trivial
  | proposed => exact Asserted.mono h a
  | opened => exact Confirmed.mono h a
  | pendingAcceptance => exact ⟨h.1.mono a, h.2⟩
  | closed => exact ⟨h.1.mono a, h.2⟩
  | released => exact ⟨h.1.mono a, h.2.mono a⟩
  | expired =>
    obtain ⟨hc, p, x, hx, hr⟩ := h
    exact ⟨hc.mono a, p, x, hx.mono a, hr⟩
  | contestedClosure => exact ⟨h.1.mono a, h.2⟩
  | disputed =>
    obtain ⟨hc, hd, p, x, hx, hr⟩ := h
    exact ⟨hc.mono a, hd, p, x, hx.mono a, hr⟩
  | superseded => exact ⟨h.1.mono a, h.2.mono a⟩

theorem Reached.confirmed {state : EffectiveState} (h : Reached crypto now edge chain ctx state)
    (h₁ : state ≠ .none) (h₂ : state ≠ .proposed) : Confirmed crypto now edge chain := by
  cases state with
  | none => exact absurd rfl h₁
  | proposed => exact absurd rfl h₂
  | opened => exact h
  | pendingAcceptance | closed | released | expired | contestedClosure | disputed | superseded =>
    exact h.1

theorem HeldBy.both {state : WireAssertionState} {keys : Finset PublicKeyHex}
    (h : HeldBy crypto now edge chain state keys) (hc : keys.card = 2) :
    Both crypto now edge chain state := by
  have hsub : keys ⊆ {edge.owner, edge.owedTo} := fun k hk ↦ by
    simpa using (h k hk).1
  have heq : keys = {edge.owner, edge.owedTo} :=
    Finset.eq_of_subset_of_card_le hsub ((Finset.card_le_two).trans hc.ge)
  constructor
  · exact (h edge.owner (by simp [heq])).2
  · exact (h edge.owedTo (by simp [heq])).2

theorem HeldBy.insert {state : WireAssertionState} {keys : Finset PublicKeyHex}
    (h : HeldBy crypto now edge (chain ++ [a]) state keys)
    (ha : Accepted crypto now edge (chain ++ [a]) chain a) (hs : a.state = state)
    (hparty : a.signer = edge.owner ∨ a.signer = edge.owedTo) :
    HeldBy crypto now edge (chain ++ [a]) state (insert a.signer keys) := by
  intro k hk
  rcases Finset.mem_insert.mp hk with rfl | hk
  · exact ⟨hparty, chain, a, ha, hs, rfl⟩
  · exact h k hk

theorem Evidenced.of_acc (hc : Confirmed crypto now edge chain)
    (ha : Accepted crypto now edge (chain ++ [a]) chain a) (hs : a.state = .closed)
    (hk : a.signer = edge.owner) (he : a.evidenceHash ≠ none) :
    Evidenced crypto now edge (chain ++ [a]) := by
  obtain ⟨p, x, q, y, -, -, -, hy, hys, hyk, -⟩ := hc
  exact ⟨q, y, chain, a, hy.mono a, hys, hyk, ha, hs, hk, he, hy.length_lt⟩

theorem windowElapsed_iff {openedAt assertedAt : Rfc3339} :
    windowElapsed edge openedAt assertedAt = true ↔
      ∃ window ends, edge.acceptanceWindow = some window ∧
        addDuration (Date.parse openedAt) window = some ends ∧ ends ≤ Date.parse assertedAt := by
  simp [windowElapsed, reaches, Option.any_eq_true]

theorem disputeWindowRunning_eq_false {since : Rfc3339} :
    disputeWindowRunning since a = false ↔
      Date.parse since + 30 * Calendar.msPerDay ≤ Date.parse a.assertedAt := by
  simp [disputeWindowRunning, disputeWindow, addDuration_P30D (Date.parse_bound since), precedes]

section Step

variable {next : ChainState} {o w : Bool}

/-- The context's records stay true through an accepted row. -/
theorem Recorded.row (h : Recorded crypto now edge chain ctx)
    (hs : Reached crypto now edge chain ctx ctx.state)
    (ha : Accepted crypto now edge (chain ++ [a]) chain a)
    (hbefore : StateAt crypto now edge chain = ctx.state)
    (hafter : StateAt crypto now edge (chain ++ [a]) = next.state)
    (ho : o = true → a.signer = edge.owner)
    (hparty : a.signer = edge.owner ∨ a.signer = edge.owedTo)
    (hrow : TableRow edge now o w ctx a next) :
    Recorded crypto now edge (chain ++ [a]) next := by
  have hm := h.mono a
  cases hrow with
  | proposed | confirmed | accepted | tacit | disputeExpired | contestedExpired =>
    exact { hm with }
  | evidenceCloses hst hopen how he =>
    rw [hopen] at hs
    exact { hm with
      left := fun _ ↦ Confirmed.mono hs a
      evidence := fun _ _ _ ↦ .of_acc hs ha hst (ho how) he }
  | evidenceOpensWindow hst hopen how he =>
    rw [hopen] at hs
    refine { hm with
      left := fun _ ↦ Confirmed.mono hs a
      evidence := fun _ _ _ ↦ .of_acc hs ha hst (ho how) he
      window := fun t ht ↦ ?_ }
    cases ht
    exact ⟨chain, a, ha, hst, ho how, rfl, hbefore.trans hopen, hafter⟩
  | released hst hopen =>
    rw [hopen] at hs
    refine { hm with left := fun _ ↦ Confirmed.mono hs a, evidence := fun e he hc ↦ ?_ }
    cases he
    cases hc
  | expired hst hopen =>
    rw [hopen] at hs
    refine { hm with left := fun _ ↦ Confirmed.mono hs a, evidence := fun e he hc ↦ ?_ }
    cases he
    cases hc
  | disputed =>
    exact { hm with disputedAt := fun _ ↦ ⟨chain ++ [a], List.prefix_rfl, hafter⟩ }
  | disputeClosedHalf hst | disputeClosed hst =>
    exact { hm with disputeClosedBy := hm.disputeClosedBy.insert ha hst hparty }
  | supersededHalf hst | superseded hst =>
    exact { hm with supersededBy := hm.supersededBy.insert ha hst hparty }
  | contestedClosedHalf hst | contestedClosed hst =>
    exact { hm with contestClosedBy := hm.contestClosedBy.insert ha hst hparty }
  | contestedSupersededHalf hst | contestedSuperseded hst =>
    exact { hm with contestSupersededBy := hm.contestSupersededBy.insert ha hst hparty }

/-- Each row reaches its state with the signatures that state asks for. -/
theorem Reached.row (hs : Reached crypto now edge chain ctx ctx.state)
    (hn : Recorded crypto now edge (chain ++ [a]) next)
    (ha : Accepted crypto now edge (chain ++ [a]) chain a)
    (hsince : (verifyAssertionChain crypto noRotations now edge chain).deadlockedSince =
      deadlockedSince ctx)
    (ho : o = true → a.signer = edge.owner) (hw : w = true → a.signer = edge.owedTo)
    (hparty : a.signer = edge.owner ∨ a.signer = edge.owedTo)
    (hrow : TableRow edge now o w ctx a next) :
    Reached crypto now edge (chain ++ [a]) next next.state := by
  have hm := hs.mono a
  cases hrow with
  | proposed hst _ how => exact ⟨chain, a, ha, hst, ho how⟩
  | confirmed hst hprop how =>
    rw [hprop] at hs
    obtain ⟨p, x, hx, hxs, hxo⟩ := hs
    exact ⟨p, x, chain, a, hx.mono a, hxs, hxo, ha, hst, hw how, hx.length_lt⟩
  | evidenceCloses _ hopen =>
    rw [hopen] at hm
    exact ⟨hm, fun _ _ ↦ ⟨_, rfl, rfl⟩⟩
  | evidenceOpensWindow _ hopen =>
    rw [hopen] at hm
    exact ⟨hm, _, rfl, rfl⟩
  | accepted _ hpend | tacit _ hpend =>
    rw [hpend] at hm
    exact ⟨hm.1, fun _ _ ↦ hm.2⟩
  | disputeClosedHalf _ hdisp =>
    dsimp only
    rw [hdisp] at hm ⊢
    exact ⟨hm.1, hm.2⟩
  | disputeClosed _ hdisp =>
    rw [hdisp] at hm
    exact ⟨hm.1, fun hnone ↦ absurd hnone hm.2.1⟩
  | released hst hopen how =>
    rw [hopen] at hm
    exact ⟨hm, chain, a, ha, hst, hw how⟩
  | @disputeExpired since hst hdisp hat hran =>
    rw [hdisp] at hm
    refine ⟨hm.1, chain, a, ha, hst, hparty, .inr ⟨since, ?_, disputeWindowRunning_eq_false.mp hran⟩⟩
    simp [hsince, deadlockedSince, hdisp, hat]
  | expired hst hopen hdue hlate =>
    rw [hopen] at hm
    exact ⟨hm, chain, a, ha, hst, hparty, .inl ⟨_, hdue, hlate⟩⟩
  | disputed hst hfrom he =>
    have hfrom' : ctx.state = .opened ∨ ctx.state = .pendingAcceptance := by
      simpa [disputableFrom] using hfrom
    have hc : Confirmed crypto now edge (chain ++ [a]) := by
      rcases hfrom' with h | h <;> exact hm.confirmed (by simp [h]) (by simp [h])
    exact ⟨hc, Option.some_ne_none _, chain, a, ha, hst, he⟩
  | supersededHalf _ hfrom =>
    dsimp only
    rcases hfrom with hfrom | hfrom
    · rw [hfrom] at hm ⊢
      exact hm
    · rw [hfrom] at hm ⊢
      exact ⟨hm.1, hm.2⟩
  | superseded _ hfrom _ hcard =>
    have hc : Confirmed crypto now edge (chain ++ [a]) := by
      rcases hfrom with h | h <;> exact hm.confirmed (by simp [h]) (by simp [h])
    exact ⟨hc, hn.supersededBy.both hcard⟩
  | contestedClosedHalf _ hcont | contestedSupersededHalf _ hcont =>
    dsimp only
    rw [hcont] at hm ⊢
    exact ⟨hm.1, hm.2⟩
  | contestedClosed _ hcont =>
    rw [hcont] at hm
    exact ⟨hm.1, fun _ hnone ↦ absurd hnone hm.2⟩
  | contestedSuperseded _ hcont _ hcard =>
    rw [hcont] at hm
    exact ⟨hm.1, hn.contestSupersededBy.both hcard⟩
  | @contestedExpired since hst hcont hat hran =>
    rw [hcont] at hm
    refine ⟨hm.1, chain, a, ha, hst, hparty, .inr ⟨since, ?_, disputeWindowRunning_eq_false.mp hran⟩⟩
    simp [hsince, deadlockedSince, hcont, hat]

end Step

theorem Invariant.record (h : Recorded crypto now edge chain ctx)
    (hr : Reached crypto now edge chain ctx ctx.state) (a : Assertion) :
    Invariant crypto now edge chain (record ctx a) := by
  refine ⟨{ h with }, ?_⟩
  show Reached crypto now edge chain (Transitions.record ctx a) ctx.state
  cases hs : ctx.state <;> rw [hs] at hr <;> exact hr

/-- What one accepted assertion preserves. -/
theorem Invariant.step (hedge : edgeMalformed crypto edge = none)
    (h : Invariant crypto now edge chain (context crypto noRotations now edge chain))
    (hj : judge crypto noRotations now edge (context crypto noRotations now edge chain) a =
      .ok ctx') : Invariant crypto now edge (chain ++ [a]) ctx' := by
  have ha : Accepted crypto now edge (chain ++ [a]) chain a :=
    acceptedAt_iff.mpr ⟨hedge, List.prefix_rfl, ctx', hj⟩
  have hafter : StateAt crypto now edge (chain ++ [a]) = ctx'.state := by
    rw [stateAt_eq hedge, context_snoc_ok hj]
  obtain ⟨-, ⟨-, -, hparty, -⟩, next, hrow, rfl⟩ := judge_ok_iff.mp hj
  have hparty' : a.signer = edge.owner ∨ a.signer = edge.owedTo :=
    hparty.imp heldBy_noRotations.mp heldBy_noRotations.mp
  cases hrow with
  | contest hc hf =>
    have hm := h.recorded.mono a
    have hexit : (context crypto noRotations now edge chain).exit ≠ none := by
      intro hnone
      simp [contests, hnone] at hc
    have hn : Recorded crypto now edge (chain ++ [a])
        (contest (context crypto noRotations now edge chain) a) :=
      { hm with contestedAt := fun _ ↦ ⟨chain ++ [a], List.prefix_rfl, hafter⟩ }
    exact .record hn ⟨hm.left hexit, Option.some_ne_none _⟩ a
  | table hc hrow =>
    have hn : Recorded crypto now edge (chain ++ [a]) next :=
      h.recorded.row h.reached ha (stateAt_eq hedge chain) hafter heldBy_noRotations.mp
        hparty' hrow
    exact .record hn (h.reached.row hn ha (deadlockedSince_eq hedge chain)
      heldBy_noRotations.mp heldBy_noRotations.mp hparty' hrow) a

theorem Invariant.run (hedge : edgeMalformed crypto edge = none) (chain : List Assertion) :
    Invariant crypto now edge chain (context crypto noRotations now edge chain) := by
  induction chain using List.reverseRecOn with
  | nil =>
    refine ⟨⟨fun h ↦ absurd rfl h, fun e he ↦ ?_, fun t ht ↦ ?_, ?_, ?_, ?_, ?_,
      fun h ↦ absurd rfl h, fun h ↦ absurd rfl h⟩, trivial⟩
    · cases he
    · cases ht
    all_goals exact fun k hk ↦ absurd hk (Finset.notMem_empty k)
  | append_singleton chain a ih =>
    cases hj : judge crypto noRotations now edge (context crypto noRotations now edge chain) a with
    | ok ctx' =>
      rw [context_snoc_ok hj]
      exact ih.step hedge hj
    | error reason =>
      rw [context_snoc_error hj]
      exact ⟨ih.recorded.mono a, ih.reached.mono a⟩

theorem closed_from_pending {p : List Assertion} {x : Assertion} (h : Accepted crypto now edge chain p x)
    (hp : StateAt crypto now edge p = .pendingAcceptance)
    (hx : StateAt crypto now edge (p ++ [x]) = .closed) :
    x.state = .closed ∧ (x.signer = edge.owedTo ∨ x.signer = edge.owner ∧
      ∃ openedAt window ends, WindowOpened crypto now edge p openedAt ∧
        edge.acceptanceWindow = some window ∧
        addDuration (Date.parse openedAt) window = some ends ∧ ends ≤ Date.parse x.assertedAt) := by
  obtain ⟨hedge, -, ctx', hj⟩ := acceptedAt_iff.mp h
  rw [stateAt_eq hedge] at hp hx
  rw [context_snoc_ok hj] at hx
  obtain ⟨-, ⟨-, -, hparty, -⟩, next, hrow, rfl⟩ := judge_ok_iff.mp hj
  cases hrow with
  | contest => cases hx
  | table hc hrow =>
    cases hrow with
    | accepted ha _ hw => exact ⟨ha, .inl (heldBy_noRotations.mp hw)⟩
    | @tacit openedAt ha _ hw ht he =>
      have hsigner : x.signer = edge.owner := by
        rcases hparty with ho | hw'
        · exact heldBy_noRotations.mp ho
        · exact absurd hw' (by simp [hw])
      obtain ⟨window, ends, hwin, hends, hle⟩ := windowElapsed_iff.mp he
      exact ⟨ha, .inr ⟨hsigner, openedAt, window, ends,
        (Invariant.run hedge p).recorded.window openedAt ht, hwin, hends, hle⟩⟩
    | evidenceCloses _ hs | disputeClosed _ hs | contestedClosed _ hs =>
      rw [hs] at hp
      cases hp
    | disputeClosedHalf _ hs | contestedClosedHalf _ hs | contestedSupersededHalf _ hs =>
      rw [hs] at hp
      cases hp
    | supersededHalf _ hs => rcases hs with hs | hs <;> rw [hs] at hp <;> cases hp
    | _ => cases hx

theorem closed_from_deadlock {p : List Assertion} {x : Assertion}
    (h : Accepted crypto now edge chain p x)
    (hp : StateAt crypto now edge p = .disputed ∨ StateAt crypto now edge p = .contestedClosure)
    (hx : StateAt crypto now edge (p ++ [x]) = .closed) : Both crypto now edge (p ++ [x]) .closed := by
  obtain ⟨hedge, -, ctx', hj⟩ := acceptedAt_iff.mp h
  have hinv : Recorded crypto now edge (p ++ [x]) _ := (Invariant.run hedge (p ++ [x])).recorded
  simp only [stateAt_eq hedge] at hp hx
  rw [context_snoc_ok hj] at hx hinv
  obtain ⟨-, -, next, hrow, rfl⟩ := judge_ok_iff.mp hj
  cases hrow with
  | contest => cases hx
  | table hc hrow =>
    cases hrow with
    | disputeClosed _ _ _ hcard => exact hinv.disputeClosedBy.both hcard
    | contestedClosed _ _ _ hcard => exact hinv.contestClosedBy.both hcard
    | evidenceCloses _ hs | accepted _ hs | tacit _ hs => simp [hs] at hp
    | disputeClosedHalf _ hs | contestedClosedHalf _ hs | contestedSupersededHalf _ hs =>
      exact absurd (hs.symm.trans hx) (by decide)
    | supersededHalf _ hs =>
      rcases hs with hs | hs <;> exact absurd (hs.symm.trans hx) (by decide)
    | _ => cases hx

theorem Reached.proposed {state : EffectiveState} (h : Reached crypto now edge chain ctx state)
    (hs : state ≠ .none) : Asserted crypto now edge chain .proposed edge.owner := by
  by_cases hp : state = .proposed
  · rw [hp] at h
    exact h
  · obtain ⟨p, x, -, -, hx, hxs, hxo, -⟩ := h.confirmed hs hp
    exact ⟨p, x, hx, hxs, hxo⟩

/-- Without a deadlock behind it, a closure pending or done rests on the owner's evidence. -/
theorem Invariant.evidence (h : Invariant crypto now edge chain ctx)
    (hs : ctx.state = .pendingAcceptance ∨ ctx.state = .closed ∧ ctx.disputedAt = none ∧
      ctx.contestedAt = none) : Evidenced crypto now edge chain := by
  have hr := h.reached
  rcases hs with hs | ⟨hs, hd, hc⟩ <;> rw [hs] at hr
  · obtain ⟨-, e, he, hclosed⟩ := hr
    exact h.recorded.evidence e he hclosed
  · obtain ⟨e, he, hclosed⟩ := hr.2 hd hc
    exact h.recorded.evidence e he hclosed

theorem table_sound (crypto : Crypto) (now : Option Rfc3339) (edge : Edge)
    (chain : List Assertion) : TableSound crypto now edge chain := by
  cases hedge : edgeMalformed crypto edge with
  | some reason =>
    have hnone : StateAt crypto now edge chain = .none := finalState_malformed hedge chain
    have hacc : ∀ p x, ¬Accepted crypto now edge chain p x := fun p x hx ↦ by
      simp [acceptedAt_iff.mp hx |>.1] at hedge
    constructor <;> simp_all
  | none =>
    have hinv : Invariant crypto now edge chain _ := Invariant.run hedge chain
    have hstate : StateAt crypto now edge chain =
        (context crypto noRotations now edge chain).state := stateAt_eq hedge chain
    have hr := hinv.reached
    rw [← hstate] at hr
    refine ⟨hr.proposed, hr.confirmed, fun h ↦ ?_, fun p x ↦ closed_from_pending,
      fun p x ↦ closed_from_deadlock, fun h ↦ ?_, fun h ↦ ?_, fun h ↦ ?_, fun h ↦ ?_⟩
    · refine hinv.evidence (h.imp hstate.symm.trans fun ⟨hs, hd, hc⟩ ↦ ⟨hstate.symm.trans hs, ?_, ?_⟩)
      · exact not_not.mp fun hne ↦ hd (hinv.recorded.disputedAt hne)
      · exact not_not.mp fun hne ↦ hc (hinv.recorded.contestedAt hne)
    all_goals rw [h] at hr
    · exact hr.2
    · exact hr.2
    · exact hr.2
    · exact hr.2.2

end Servanda.Soundness
