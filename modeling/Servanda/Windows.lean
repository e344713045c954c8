import Servanda.Soundness

namespace Servanda.Windows

open Transitions Soundness

variable {crypto : Crypto} {edge : Edge}

section Escape

/-- The deadlock has stood for its window, and no exit behind a dispute is the other party's and
dated so late that an expiry would contest it. -/
def EscapeOpen (ctx : ChainState) (x : Assertion) : Prop :=
  (∀ since, deadlockedSince ctx = some since →
    Date.parse since + 30 * Calendar.msPerDay ≤ Date.parse x.assertedAt) ∧
  (ctx.state = .disputed → ∀ e, ctx.exit = some e → e.signer ≠ x.signer →
    Date.parse e.instant < Date.parse x.assertedAt)

variable {clock : Rfc3339} {t : ℤ} {chain : List Assertion} {x : Assertion} {ctx : ChainState}

theorem contests_expired (hx : x.state = .expired) (hs : ctx.state = .disputed)
    (hc : ∀ e, ctx.exit = some e → e.state = .closed) : contests ctx x = false ↔
      ∀ e, ctx.exit = some e → e.signer ≠ x.signer →
        Date.parse e.instant < Date.parse x.assertedAt := by
  cases he : ctx.exit with
  | none => simp [contests, he]
  | some e =>
    have hclosed := hc e he
    by_cases hsigner : e.signer = x.signer
    · simp [contests, he, hsigner]
    · simp [contests, he, hx, hs, hclosed, unilateralExits, hsigner, Ne.symm hsigner]

theorem judge_expired_iff (hcoh : Coherent ctx) (hstand : Standing crypto noRotations edge x)
    (hx : x.state = .expired) (hb : backdated ctx x = false)
    (hdead : ctx.state = .disputed ∨ ctx.state = .contestedClosure) :
    (∃ ctx', judge crypto noRotations (some x.assertedAt) edge ctx x = .ok ctx' ∧
      ctx'.state = .expired) ↔ EscapeOpen ctx x := by
  have hnow : datedInTheFuture (some x.assertedAt) x = false := by
    simp [datedInTheFuture, expirySkewMs]
  constructor
  · intro h
    obtain ⟨ctx', hj, hexp⟩ := h
    obtain ⟨-, -, next, hrow, rfl⟩ := judge_ok_iff.mp hj
    cases hrow with
    | contest => cases hexp
    | table hc hrow =>
      cases hrow with
      | disputeExpired _ hs hat hran =>
        refine ⟨fun since hsince ↦ ?_, fun _ ↦ (contests_expired hx hs (hcoh.closing (.inr hs))).mp hc⟩
        simp only [deadlockedSince, hs, hat, if_true, Option.some.injEq] at hsince
        subst hsince
        exact disputeWindowRunning_eq_false.mp hran
      | contestedExpired _ hs hat hran =>
        refine ⟨fun since hsince ↦ ?_, fun hd ↦ absurd (hs.symm.trans hd) (by decide)⟩
        simp only [deadlockedSince, hs, hat, reduceCtorEq, if_false, if_true,
          Option.some.injEq] at hsince
        subst hsince
        exact disputeWindowRunning_eq_false.mp hran
      | expired _ hs => rcases hdead with hd | hd <;> rw [hs] at hd <;> cases hd
      | proposed ha | confirmed ha | evidenceCloses ha | evidenceOpensWindow ha | accepted ha
      | tacit ha | disputeClosedHalf ha | disputeClosed ha | released ha | disputed ha
      | supersededHalf ha | superseded ha | contestedClosedHalf ha | contestedClosed ha
      | contestedSupersededHalf ha | contestedSuperseded ha =>
        rw [hx] at ha
        cases ha
  · intro h
    obtain ⟨hwindow, hexit⟩ := h
    rcases hdead with hs | hs
    · obtain ⟨since, hat⟩ := Option.ne_none_iff_exists'.mp (hcoh.disputed hs)
      have hran := hwindow since (by simp [deadlockedSince, hs, hat])
      have hc := (contests_expired hx hs (hcoh.closing (.inr hs))).mpr (hexit hs)
      exact ⟨_, judge_ok_iff.mpr ⟨hb, hstand, _, .table hc
        (.disputeExpired hx hs hat (disputeWindowRunning_eq_false.mpr hran)), rfl⟩, rfl⟩
    · obtain ⟨since, hat⟩ := Option.ne_none_iff_exists'.mp (hcoh.contested hs)
      have hran := hwindow since (by simp [deadlockedSince, hs, hat])
      have hc : contests ctx x = false := by
        cases he : ctx.exit <;> simp [contests, he, hs]
      exact ⟨_, judge_ok_iff.mpr ⟨hb, hstand, _, .table hc
        (.contestedExpired hx hs hat (disputeWindowRunning_eq_false.mpr hran) hnow), rfl⟩, rfl⟩

/-- An expiry dated after the window ends a deadlock exactly where the escape is open. -/
theorem deadlock_escape_iff (hclock : Date.parse clock ≤ t)
    (hall : AcceptsAll crypto noRotations (some clock) edge chain)
    (hdead : StateAt crypto (some clock) edge chain = .disputed ∨
      StateAt crypto (some clock) edge chain = .contestedClosure)
    (hstand : Standing crypto noRotations edge x) (hx : x.state = .expired)
    (hlate : t + 30 * Calendar.msPerDay + expirySkewMs ≤ Date.parse x.assertedAt)
    (hprev : ∀ y ∈ chain, y.signer = x.signer →
      Date.parse y.assertedAt ≤ Date.parse x.assertedAt) :
    (AcceptsLast crypto noRotations (some x.assertedAt) edge chain x ∧
      StateAt crypto (some x.assertedAt) edge (chain ++ [x]) = .expired) ↔
    EscapeOpen (context crypto noRotations (some clock) edge chain) x := by
  have hedge : edgeMalformed crypto edge = none := by
    have hne : StateAt crypto (some clock) edge chain ≠ .none := by
      rcases hdead with h | h <;> rw [h] <;> decide
    exact edgeMalformed_of_finalState hne
  have hle : Date.parse clock ≤ Date.parse x.assertedAt := by
    unfold Calendar.msPerDay expirySkewMs at hlate
    omega
  have hctx : context crypto noRotations (some x.assertedAt) edge chain =
      context crypto noRotations (some clock) edge chain :=
    ((judge_filters_later hle).path ((acceptsAll_iff hedge).mp hall)).final_eq
  have hb : backdated (context crypto noRotations (some clock) edge chain) x = false := by
    rw [backdated, Option.any_eq_false]
    intro d hd
    obtain ⟨y, hy, hs, rfl⟩ := latestBySigner_mem hd
    simpa using hprev y hy hs
  rw [stateAt_eq hedge] at hdead
  rw [← judge_expired_iff (context_coherent chain) hstand hx hb hdead, acceptsLast_iff, hctx,
    stateAt_eq hedge]
  constructor
  · intro h
    obtain ⟨⟨_, ctx', hj⟩, hexp⟩ := h
    rw [context_snoc_ok (hctx ▸ hj)] at hexp
    exact ⟨ctx', hj, hexp⟩
  · intro h
    obtain ⟨ctx', hj, hexp⟩ := h
    refine ⟨⟨hedge, ctx', hj⟩, ?_⟩
    rwa [context_snoc_ok (hctx ▸ hj)]

open Sample in
def futureDispute : Assertion := act .disputed creditorKey (date 12 2 10) (some evidence)
  0x3e47f06089086332e11778f2be1f5b3cc3a6548abcb4d1acb64a9305bdc61f79ad1567126551d1ac7f1d21301a19f6d477bb431d88791e6de6db1dadfb85260e

open Sample in
def expiry : Assertion := act .expired ownerKey (date 4 2 10) none
  0x2b898adfa1ff3f69d418a1415978d75cbcdc7dfed6fb570ea0ddb1287a5189e88b0694093e1a27131b01f2f5f9f346cdd4519a2a2ebdaf3171be075e38d6c101

theorem expiry_standing : Standing Sample.crypto noRotations Sample.edge expiry :=
  ⟨by decide +kernel, rfl, .inl (by decide +kernel), by decide⟩

open Sample in
theorem dispute_escapes :
    (AcceptsLast Sample.crypto noRotations (some expiry.assertedAt) Sample.edge
        [proposal, confirmation, dispute] expiry ∧
      StateAt Sample.crypto (some expiry.assertedAt) Sample.edge
        [proposal, confirmation, dispute, expiry] = .expired) ↔
    EscapeOpen (context Sample.crypto noRotations (some (date 3 2 10)) Sample.edge
      [proposal, confirmation, dispute]) expiry :=
  deadlock_escape_iff (t := Date.parse (date 3 2 10)) le_rfl (by decide +kernel)
    (.inl (by decide +kernel)) expiry_standing rfl (by decide +kernel)
    (by decide +kernel)

/-- An expiry dated the window and the skew past the node's clock ends every deadlock. -/
def DeadlockEscapes (crypto : Crypto) (edge : Edge) : Prop :=
  ∀ clock t chain x, Date.parse clock ≤ t → AcceptsAll crypto noRotations (some clock) edge chain →
    StateAt crypto (some clock) edge chain = .disputed ∨
      StateAt crypto (some clock) edge chain = .contestedClosure →
    Standing crypto noRotations edge x → x.state = .expired →
    t + 30 * Calendar.msPerDay + expirySkewMs ≤ Date.parse x.assertedAt →
    (∀ y ∈ chain, y.signer = x.signer → Date.parse y.assertedAt ≤ Date.parse x.assertedAt) →
    AcceptsLast crypto noRotations (some x.assertedAt) edge chain x ∧
      StateAt crypto (some x.assertedAt) edge (chain ++ [x]) = .expired

open Sample in
/-- A dispute dated nine months ahead holds the owner's expiry off when the window has passed. -/
theorem future_dispute_freezes : ¬DeadlockEscapes Sample.crypto Sample.edge := by
  intro h
  have hescape := h (date 3 2 10) _ [proposal, confirmation, futureDispute] expiry le_rfl
    (by decide +kernel) (.inl (by decide +kernel)) expiry_standing rfl
    (by decide +kernel) (by decide +kernel)
  exact absurd hescape.1 (by decide +kernel)

end Escape

section Tacit

/-- An assertion and the reading of the node's clock when it came in. -/
structure Arrival where
  clock : Rfc3339
  assertion : Assertion
  deriving DecidableEq

def chainOf (stored : List Arrival) : List Assertion := stored.map Arrival.assertion

variable (crypto : Crypto) (edge : Edge)

def receive (stored : List Arrival) (x : Arrival) : List Arrival :=
  if AcceptsLast crypto noRotations (some x.clock) edge (chainOf stored) x.assertion then
    stored ++ [x]
  else stored

def receiveAll (arrivals : List Arrival) : List Arrival := arrivals.foldl (receive crypto edge) []

/-- The owner's first closure, that opened the window, and the one that closed the edge for want
of an answer. -/
structure TacitlyClosed (stored p q : List Arrival) (first second : Arrival) : Prop where
  firstStored : p ++ [first] <+: stored
  secondStored : q ++ [second] <+: stored
  opened : StateAt crypto none edge (chainOf p) = .opened
  pending : StateAt crypto none edge (chainOf (p ++ [first])) = .pendingAcceptance
  awaited : StateAt crypto none edge (chainOf q) = .pendingAcceptance
  closed : StateAt crypto none edge (chainOf (q ++ [second])) = .closed
  byOwner : second.assertion.signer = edge.owner
  twoParties : edge.owner ≠ edge.owedTo

/-- On the node's clock the acceptance window, less the skew, lies between the two closures. -/
def WindowGranted (stored : List Arrival) : Prop :=
  ∀ p q first second, TacitlyClosed crypto edge stored p q first second →
    ∀ window ends, edge.acceptanceWindow = some window →
      addDuration (Date.parse first.clock) window = some ends →
      ends - expirySkewMs ≤ Date.parse second.clock

/-- By its dates the second closure stands no further past the window than by the clock, up to
the skew. -/
def KeepsPace (first second : Arrival) : Prop :=
  ∀ window ends dated, edge.acceptanceWindow = some window →
    addDuration (Date.parse first.clock) window = some ends →
    addDuration (Date.parse first.assertion.assertedAt) window = some dated →
    Date.parse second.assertion.assertedAt - dated ≤ Date.parse second.clock - (ends - expirySkewMs)

def PacedStep (stored : List Arrival) (x : Arrival) : Prop :=
  x.assertion.state = .closed → x.assertion.signer = edge.owner →
    ∀ first ∈ stored, first.assertion.state = .closed → first.assertion.signer = edge.owner →
      KeepsPace edge first x

variable {crypto edge} {arrivals stored p q : List Arrival} {x first second : Arrival}

theorem receiveAll_snoc (arrivals : List Arrival) (x : Arrival) :
    receiveAll crypto edge (arrivals ++ [x]) = receive crypto edge (receiveAll crypto edge arrivals) x :=
  List.foldl_append

theorem stored_of_prefix (h : q ++ [x] <+: receiveAll crypto edge arrivals) :
    ∃ l r, arrivals = l ++ x :: r ∧ receiveAll crypto edge l = q ∧
      AcceptsLast crypto noRotations (some x.clock) edge (chainOf q) x.assertion := by
  induction arrivals using List.reverseRecOn with
  | nil => exact absurd h.length_le (by simp [receiveAll])
  | append_singleton arrivals y ih =>
    rw [receiveAll_snoc, receive] at h
    split_ifs at h with hacc
    · rcases List.prefix_concat_iff.mp h with heq | hpre
      · obtain ⟨hq, hx⟩ := List.append_inj' heq rfl
        cases hx
        subst hq
        exact ⟨arrivals, [], rfl, rfl, hacc⟩
      · obtain ⟨l, r, rfl, hl⟩ := ih hpre
        exact ⟨l, r ++ [y], by simp, hl⟩
    · obtain ⟨l, r, rfl, hl⟩ := ih h
      exact ⟨l, r ++ [y], by simp, hl⟩

theorem stored_path {n : Rfc3339}
    (hclock : arrivals.Pairwise fun x y ↦ Date.parse x.clock ≤ Date.parse y.clock)
    (hn : ∀ x ∈ arrivals, Date.parse x.clock ≤ Date.parse n) :
    Replay.Path (judge crypto noRotations (some n) edge) .start
      (chainOf (receiveAll crypto edge arrivals))
      (context crypto noRotations none edge (chainOf (receiveAll crypto edge arrivals))) := by
  induction arrivals using List.reverseRecOn generalizing n with
  | nil => exact .nil _
  | append_singleton arrivals y ih =>
    obtain ⟨hpair, -, hlast⟩ := List.pairwise_append.mp hclock
    have hprev : ∀ x ∈ arrivals, Date.parse x.clock ≤ Date.parse y.clock :=
      fun x hx ↦ hlast x hx y List.mem_cons_self
    have hy : Date.parse y.clock ≤ Date.parse n := hn y (by simp)
    have hpath := ih hpair fun x hx ↦ (hprev x hx).trans hy
    rw [receiveAll_snoc, receive]
    split_ifs with hacc
    · obtain ⟨-, ctx, hj⟩ := acceptsLast_iff.mp hacc
      have hctx : context crypto noRotations (some y.clock) edge
          (chainOf (receiveAll crypto edge arrivals)) = context crypto noRotations none edge
          (chainOf (receiveAll crypto edge arrivals)) := (ih hpair hprev).final_eq
      rw [hctx] at hj
      rw [chainOf, List.map_append, List.map_singleton, ← chainOf,
        context_snoc_ok (judge_filters _ _ _ hj)]
      exact hpath.snoc (judge_filters_later hy _ _ _ hj)
    · exact hpath

theorem opening_unique {c l m : List Assertion} {a b : Assertion}
    (hedge : edgeMalformed crypto edge = none) (hl : l ++ [a] <+: c) (hm : m ++ [b] <+: c)
    (hla : StateAt crypto none edge (l ++ [a]) = .pendingAcceptance)
    (hmo : StateAt crypto none edge m = .opened) : m.length ≤ l.length := by
  by_contra hlt
  have hpre : l ++ [a] <+: m := List.prefix_of_prefix_length_le hl
    ((List.prefix_append m [b]).trans hm) (by simpa using Nat.succ_le_of_lt (not_le.mp hlt))
  have hstage : stage (context crypto noRotations none edge (l ++ [a])).state ≤
      stage (context crypto noRotations none edge m).state := stage_mono hpre
  rw [← stateAt_eq hedge, ← stateAt_eq hedge, hla, hmo] at hstage
  exact absurd hstage (by decide)

theorem keepsPace_of_current (hfirst : first.assertion.assertedAt = first.clock)
    (hsecond : Date.parse second.assertion.assertedAt ≤ Date.parse second.clock + expirySkewMs) :
    KeepsPace edge first second := by
  intro window ends dated _ hends hdated
  rw [hfirst, hends] at hdated
  cases hdated
  omega

/-- While the owner's closures keep pace with the clock, no window is cut short. -/
theorem tacit_window (hclock : arrivals.Pairwise fun x y ↦ Date.parse x.clock ≤ Date.parse y.clock)
    (hpaced : ∀ l x r, arrivals = l ++ x :: r → PacedStep edge (receiveAll crypto edge l) x) :
    WindowGranted crypto edge (receiveAll crypto edge arrivals) := by
  intro p q first second h window ends hwindow hends
  obtain ⟨l, r, rfl, hq, hacc⟩ := stored_of_prefix h.secondStored
  have hedge := (acceptsLast_iff.mp hacc).1
  obtain ⟨hpair, -, hlast⟩ := List.pairwise_append.mp hclock
  have hpath : Replay.Path _ _ (chainOf (receiveAll crypto edge l)) _ :=
    stored_path hpair fun x hx ↦ hlast x hx second List.mem_cons_self
  rw [hq] at hpath
  obtain ⟨-, ctx, hj⟩ := acceptsLast_iff.mp hacc
  have hctx : context crypto noRotations (some second.clock) edge (chainOf q) =
      context crypto noRotations none edge (chainOf q) := hpath.final_eq
  rw [hctx] at hj
  have hsecond : Accepted crypto none edge (chainOf q ++ [second.assertion]) (chainOf q)
      second.assertion := acceptedAt_iff.mpr ⟨hedge, List.prefix_rfl, ctx, judge_filters _ _ _ hj⟩
  have hclosed := h.closed
  rw [chainOf, List.map_append, List.map_singleton, ← chainOf] at hclosed
  obtain ⟨hstate, hsigner⟩ := closed_from_pending hsecond h.awaited hclosed
  rcases hsigner with hother | ⟨-, openedAt, window', dated, hopened, hwindow', hdated, hlate⟩
  · exact absurd (h.byOwner.symm.trans hother) h.twoParties
  obtain ⟨m, y, hy, hys, hyo, rfl, hmo, hmp⟩ := hopened
  have hmq : m ++ [y] <+: chainOf q := (acceptedAt_iff.mp hy).2.1
  have hms : m ++ [y] <+: chainOf (receiveAll crypto edge (l ++ second :: r)) :=
    hmq.trans (((List.prefix_append q [second]).trans h.secondStored).map _)
  have hps : chainOf p ++ [first.assertion] <+:
      chainOf (receiveAll crypto edge (l ++ second :: r)) := by
    simpa [chainOf] using h.firstStored.map Arrival.assertion
  have hfp : StateAt crypto none edge (chainOf p ++ [first.assertion]) = .pendingAcceptance := by
    simpa [chainOf] using h.pending
  have hlen : (chainOf p).length = m.length :=
    le_antisymm (opening_unique hedge hms hps hmp h.opened) (opening_unique hedge hps hms hfp hmo)
  have heq : chainOf p ++ [first.assertion] = m ++ [y] :=
    (List.prefix_of_prefix_length_le hps hms (by simp [hlen])).eq_of_length (by simp [hlen])
  obtain ⟨-, hfirst⟩ := List.append_inj' heq rfl
  obtain rfl : first.assertion = y := List.singleton_inj.mp hfirst
  have hpq : p ++ [first] <+: q := by
    refine List.prefix_of_prefix_length_le h.firstStored
      ((List.prefix_append q [second]).trans h.secondStored) ?_
    have hle := hmq.length_le
    simp only [chainOf, List.length_append, List.length_map, List.length_singleton] at hle hlen ⊢
    omega
  have hmem : first ∈ q := hpq.subset (by simp)
  have hpace := hpaced l second r rfl hstate h.byOwner first (hq ▸ hmem) hys hyo window ends dated
    hwindow hends (by rwa [Option.some.inj (hwindow.symm.trans hwindow')])
  omega

section Forged

open Sample

def secondClosure : Assertion := act .closed ownerKey (date 3 7 10) none
  0x69cc47994d75b3cc98a4d3fb128b813f35b16fd68c47284a22d7ef4b9835500f7f2d94e60d9f3ba92d9be458bf6233eaf1134f78b8bada9e1a40da2bb4a12b09

def closedAgain (clock : Rfc3339) : List Arrival :=
  [⟨date 3 1 9, proposal⟩, ⟨date 3 1 10, confirmation⟩, ⟨date 3 2 10, closure⟩,
    ⟨clock, secondClosure⟩]

theorem closed_in_time : WindowGranted Sample.crypto Sample.edge
    (receiveAll Sample.crypto Sample.edge (closedAgain (date 3 7 10))) := by
  apply tacit_window (by decide +kernel)
  intro l x r h hstate _ first hfirst hfs _
  have hstored : receiveAll Sample.crypto Sample.edge ((closedAgain (date 3 7 10)).take 3) =
      (closedAgain (date 3 7 10)).take 3 := by decide +kernel
  rcases l with _ | ⟨a, _ | ⟨b, _ | ⟨c, _ | ⟨d, l⟩⟩⟩⟩ <;>
    simp only [closedAgain, List.nil_append, List.cons_append, List.cons.injEq,
      List.nil_eq, List.append_eq_nil_iff, reduceCtorEq, and_false] at h
  · obtain ⟨rfl, -⟩ := h
    cases hstate
  · obtain ⟨-, rfl, -⟩ := h
    cases hstate
  · obtain ⟨rfl, rfl, rfl, -⟩ := h
    have hnone : ∀ first ∈ receiveAll Sample.crypto Sample.edge
        ((closedAgain (date 3 7 10)).take 2), first.assertion.state ≠ .closed := by decide +kernel
    exact absurd hfs (hnone first hfirst)
  · obtain ⟨rfl, rfl, rfl, rfl, -⟩ := h
    have hfirst' := hstored ▸ hfirst
    simp only [closedAgain, List.take_succ_cons, List.take_zero, List.mem_cons, List.not_mem_nil,
      or_false] at hfirst'
    rcases hfirst' with rfl | rfl | rfl
    · cases hfs
    · cases hfs
    · exact keepsPace_of_current rfl (by decide +kernel)

/-- The owner dates the second closure five days ahead, and it is accepted within the hour. -/
theorem closed_within_the_hour : ¬WindowGranted Sample.crypto Sample.edge
    (receiveAll Sample.crypto Sample.edge (closedAgain (date 3 2 11))) := by
  intro h
  have hclosed : TacitlyClosed Sample.crypto Sample.edge
      (receiveAll Sample.crypto Sample.edge (closedAgain (date 3 2 11)))
      ((closedAgain (date 3 2 11)).take 2) ((closedAgain (date 3 2 11)).take 3)
      ⟨date 3 2 10, closure⟩ ⟨date 3 2 11, secondClosure⟩ := by
    constructor <;> decide +kernel
  have hgranted := h _ _ _ _ hclosed _ (Date.parse (date 3 7 10)) rfl (by decide +kernel)
  exact absurd hgranted (by decide +kernel)

end Forged

end Tacit

end Servanda.Windows
