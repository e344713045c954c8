import Servanda.Commuting
import Servanda.Recon
import Servanda.Settlement

namespace Servanda.Convergence

open Transitions Serve Recon

abbrev Nodes := Side → Subtree

section Model

variable (crypto : Crypto) (edge : Edge)

def chain (nodes : Nodes) (side : Side) : List Assertion := (nodes side).getAssertions edge.edgeId

/-- A node applies the other's whole stored chain as a response. -/
def exchange (nodes : Nodes) (side : Side) (now : Rfc3339) : Subtree × ReconApplyResult :=
  applyReconResponse crypto (nodes side) (side.party edge) (side.other.party edge) now
    ⟨[⟨edge.edgeId, chain edge nodes side.other⟩]⟩

/-- A node appends an assertion at some time, or applies what the other has stored. -/
inductive Move
  | append (side : Side) (now : Rfc3339) (a : Assertion)
  | exchange (side : Side) (now : Rfc3339)

def Move.perform (nodes : Nodes) : Move → Nodes
  | .append side _ a => Function.update nodes side ((nodes side).appendAssertion a)
  | .exchange side now =>
    Function.update nodes side (Convergence.exchange crypto edge nodes side now).1

/-- The clock is past every stored date. -/
def Past (nodes : Nodes) (now : Rfc3339) : Prop :=
  ∀ side, ∀ a ∈ chain edge nodes side, Date.parse a.assertedAt ≤ Date.parse now

instance (nodes : Nodes) (now : Rfc3339) : Decidable (Past edge nodes now) :=
  inferInstanceAs (Decidable (∀ _, ∀ a ∈ _, _))

/-- An honest node's move: what it appends its own persona signed, and the verifier accepts it last
in the chain the node has stored. -/
def Move.Honest (nodes : Nodes) : Move → Prop
  | .append side now a => Past edge nodes now ∧ Date.parse a.assertedAt ≤ Date.parse now ∧
      a.signer = side.party edge ∧ AcceptsLast crypto (partyLineage crypto (nodes side)) (some now)
        edge (chain edge nodes side) a
  | .exchange _ now => Past edge nodes now

instance (nodes : Nodes) : (move : Move) → Decidable (move.Honest crypto edge nodes)
  | .append .. => inferInstanceAs (Decidable (_ ∧ _))
  | .exchange .. => inferInstanceAs (Decidable (Past ..))

/-- The nodes hold the same edge and the same chain, and know of no rotation. -/
structure Shared (nodes : Nodes) : Prop where
  wellFormed : edgeMalformed crypto edge = none
  held : ∀ side, (nodes side).getEdge edge.edgeId = some edge
  unrotated : ∀ side, (nodes side).listRotations = []
  same : chain edge nodes .owner = chain edge nodes .owedTo

/-- The nodes after some run of honest moves, each of which meets a condition. -/
inductive Reached (C : Nodes → Move → Prop) (first : Nodes) : Nodes → Prop
  | start : Reached C first first
  | move {nodes : Nodes} {move : Move} : Reached C first nodes → move.Honest crypto edge nodes →
      C nodes move → Reached C first (move.perform crypto edge nodes)

/-- A further exchange in either direction accepts nothing. -/
def Quiet (nodes : Nodes) : Prop :=
  ∀ side, ∃ now, Past edge nodes now ∧ (exchange crypto edge nodes side now).2.accepted = []

def stateAt (nodes : Nodes) (side : Side) : EffectiveState :=
  finalState crypto (partyLineage crypto (nodes side)) none edge (chain edge nodes side)

/-- What the other node has stored and this one has not, in wire order. -/
def unseen (nodes : Nodes) (side : Side) : List Assertion :=
  incoming (chain edge nodes side) (chain edge nodes side.other)

/-- An assertion that no act the signing node has not seen can be at odds with: its signature is
new, it finds room, and the table takes it wherever among those acts it is put. -/
structure Harmless (nodes : Nodes) (side : Side) (a : Assertion) : Prop where
  fresh : ∀ s, a.sig ∉ (chain edge nodes s).map (·.sig)
  room : ∀ s, (chain edge nodes s).length + (unseen edge nodes s).length < 10000
  others : ∀ b ∈ unseen edge nodes side, b.signer ≠ a.signer
  taken : ∀ p q, unseen edge nodes side = p ++ q →
    Replay.accepted (judge crypto noRotations none edge)
      (context crypto noRotations none edge (chain edge nodes side)) (p ++ a :: q) = p ++ a :: q
  clear : ∀ p b q, unseen edge nodes side = p ++ b :: q →
    ¬Clashes (context crypto noRotations none edge (chain edge nodes side ++ p)) a b

def HarmlessMove (nodes : Nodes) : Move → Prop
  | .append side _ a => Harmless crypto edge nodes side a
  | .exchange _ _ => True

end Model

variable {crypto : Crypto} {edge : Edge} {nodes : Nodes} {side : Side} {now : Rfc3339}
  {a : Assertion}

theorem chain_update (s : Subtree) :
    chain edge (Function.update nodes side s) side = s.getAssertions edge.edgeId := by
  rw [chain, Function.update_self]

theorem chain_update_other (s : Subtree) :
    chain edge (Function.update nodes side s) side.other = chain edge nodes side.other := by
  rw [chain, Function.update_of_ne side.other_ne, chain]

theorem unseen_other : unseen edge nodes side.other =
    incoming (chain edge nodes side.other) (chain edge nodes side) := by
  rw [unseen, Side.other_other]

theorem context_clock (h : Past edge nodes now) (side : Side) :
    context crypto noRotations (some now) edge (chain edge nodes side) =
      context crypto noRotations none edge (chain edge nodes side) :=
  Replay.final_congr (fun _ a ha ↦ judge_clock (h side a ha)) _

theorem harmless_of_seen (hseen : unseen edge nodes side = [])
    (hfresh : ∀ s, a.sig ∉ (chain edge nodes s).map (·.sig))
    (hroom : ∀ s, (chain edge nodes s).length + (unseen edge nodes s).length < 10000)
    (htaken : Replay.accepted (judge crypto noRotations none edge)
      (context crypto noRotations none edge (chain edge nodes side)) [a] = [a]) :
    Harmless crypto edge nodes side a where
  fresh := hfresh
  room := hroom
  others b hb := by simp [hseen] at hb
  taken p q hpq := by
    obtain ⟨rfl, rfl⟩ := List.append_eq_nil_iff.mp (hpq.symm.trans hseen)
    exact htaken
  clear p b q hpq := by simp [hseen] at hpq

/-- Both replicas of the edge, the side's own on the left. -/
def pairAt (crypto : Crypto) (edge : Edge) (nodes : Nodes) (side : Side) :
    Replicas.Pair ChainState Assertion where
  left := context crypto noRotations none edge (chain edge nodes side)
  toLeft := unseen edge nodes side
  right := context crypto noRotations none edge (chain edge nodes side.other)
  toRight := unseen edge nodes side.other

/-- Whatever either node has not seen it would take, and both would then be at one. -/
structure Synced (crypto : Crypto) (edge : Edge) (nodes : Nodes) : Prop where
  held : ∀ side, (nodes side).getEdge edge.edgeId = some edge
  unrotated : ∀ side, (nodes side).listRotations = []
  room : ∀ side, unseen edge nodes side = [] ∨
    (chain edge nodes side).length + (unseen edge nodes side).length ≤ 10000
  signed : ∀ side, ∀ a ∈ unseen edge nodes side, a.signer = side.other.party edge
  agree : ∀ side, Replicas.Agree (judge crypto noRotations none edge) (Alike edge side)
    (pairAt crypto edge nodes side)

theorem pairAt_swap :
    (pairAt crypto edge nodes side).swap = pairAt crypto edge nodes side.other := by
  simp only [pairAt, Replicas.Pair.swap, Side.other_other]

theorem agree_other (h : Replicas.Agree (judge crypto noRotations none edge) (Alike edge side)
    (pairAt crypto edge nodes side)) :
    Replicas.Agree (judge crypto noRotations none edge) (Alike edge side.other)
      (pairAt crypto edge nodes side.other) := by
  rw [← pairAt_swap]
  exact h.swap.mono fun _ _ halike ↦ halike.symm

theorem Shared.synced (h : Shared crypto edge nodes) : Synced crypto edge nodes := by
  have hsame (side : Side) : chain edge nodes side.other = chain edge nodes side := by
    cases side with
    | owner => exact h.same.symm
    | owedTo => exact h.same
  have hunseen (side : Side) : unseen edge nodes side = [] :=
    incoming_eq_nil.mpr fun a ha ↦ List.mem_map_of_mem (hsame side ▸ ha)
  refine ⟨h.held, h.unrotated, fun side ↦ .inl (hunseen side), fun side a ha ↦ ?_, fun side ↦ ?_⟩
  · rw [hunseen] at ha
    cases ha
  · rw [pairAt, hunseen, hunseen, hsame]
    exact ⟨_, _, .nil _, .nil _, .refl _⟩

namespace Synced

variable (h : Synced crypto edge nodes)

theorem lineage (h : Synced crypto edge nodes) (side : Side) :
    partyLineage crypto (nodes side) = noRotations :=
  partyLineage_eq_noRotations (h.unrotated side)

theorem held_update (h : Synced crypto edge nodes) (s : Subtree)
    (hs : s.getEdge edge.edgeId = some edge) (t : Side) :
    (Function.update nodes side s t).getEdge edge.edgeId = some edge :=
  (Function.forall_update_iff nodes (p := fun _ u ↦ u.getEdge edge.edgeId = some edge)).mpr
    ⟨hs, fun u _ ↦ h.held u⟩ t

theorem unrotated_update (h : Synced crypto edge nodes) (s : Subtree)
    (hs : s.listRotations = []) (t : Side) : (Function.update nodes side s t).listRotations = [] :=
  (Function.forall_update_iff nodes (p := fun _ u ↦ u.listRotations = [])).mpr
    ⟨hs, fun u _ ↦ h.unrotated u⟩ t

theorem exchange (h : Synced crypto edge nodes) (hedge : edgeMalformed crypto edge = none)
    (hpast : Past edge nodes now) (side : Side) :
    (exchange crypto edge nodes side now).1 = appendAll (nodes side) (unseen edge nodes side) ∧
      (exchange crypto edge nodes side now).2.accepted = unseen edge nodes side := by
  have hparty (s : Side) : isPartyOrSuccessor edge (s.party edge) noRotations = true := by
    refine isPartyOrSuccessor_of_isParty (isParty_iff.mpr ?_) _
    cases s with
    | owner => exact .inl rfl
    | owedTo => exact .inr rfl
  have hkept : keptOf (judged crypto noRotations now edge (chain edge nodes side)
      (unseen edge nodes side)) = unseen edge nodes side := by
    rw [keptOf_judged hedge, context_clock hpast]
    refine (Replay.accepted_congr (fun _ a ha ↦ ?_) _).trans (h.agree side).taken
    exact judge_clock (hpast side.other a (mem_incoming.mp ha).1)
  unfold Convergence.exchange applyReconResponse
  rw [List.foldl_cons, List.foldl_nil, h.lineage]
  simp only [applyReconEntry, h.held, hparty, Bool.not_true, Bool.or_self, Bool.false_eq_true,
    if_false, List.nil_append]
  exact ⟨congrArg _ hkept, hkept⟩

theorem judge_of_honest (h : Synced crypto edge nodes)
    (hhonest : (Move.append side now a).Honest crypto edge nodes) :
    ∃ ctx, judge crypto noRotations none edge
      (context crypto noRotations none edge (chain edge nodes side)) a = .ok ctx := by
  obtain ⟨hpast, hdated, -, haccepted⟩ := hhonest
  rw [h.lineage] at haccepted
  obtain ⟨-, ctx, hj⟩ := acceptsLast_iff.mp haccepted
  rw [context_clock hpast, judge_clock hdated] at hj
  exact ⟨ctx, hj⟩

/-- A harmless assertion leaves what is under way as it is, with itself at the end. -/
theorem agree_append (h : Synced crypto edge nodes)
    (hhonest : (Move.append side now a).Honest crypto edge nodes)
    (hharmless : Harmless crypto edge nodes side a) {ctx : ChainState}
    (hj : judge crypto noRotations none edge
      (context crypto noRotations none edge (chain edge nodes side)) a = .ok ctx) :
    Replicas.Agree (judge crypto noRotations none edge) (Alike edge side)
      ⟨ctx, unseen edge nodes side,
        context crypto noRotations none edge (chain edge nodes side.other),
        unseen edge nodes side.other ++ [a]⟩ := by
  have hown : a.signer = side.party edge := hhonest.2.2.1
  refine (h.agree side).append judge_congruence judge_follows hown hj ?_ ?_
  · intro p q hpq
    have htaken := hharmless.taken p q hpq
    rw [← htaken]
    exact ⟨_, Replay.path_accepted _ _⟩
  · intro p b q v hpq hv
    have hb : b ∈ unseen edge nodes side := by
      rw [show unseen edge nodes side = p ++ b :: q from hpq]
      simp
    have hv : context crypto noRotations none edge (chain edge nodes side ++ p) = v := by
      rw [context_append]
      exact hv.final_eq
    exact judge_swaps hown (h.signed side b hb) (hharmless.others b hb).symm
      (hv ▸ hharmless.clear p b q hpq)

theorem append (h : Synced crypto edge nodes)
    (hhonest : (Move.append side now a).Honest crypto edge nodes)
    (hharmless : Harmless crypto edge nodes side a) :
    Synced crypto edge ((Move.append side now a).perform crypto edge nodes) := by
  obtain ⟨ctx, hj⟩ := h.judge_of_honest hhonest
  have hagree := h.agree_append hhonest hharmless hj
  have habout : a.edgeId = edge.edgeId := (judge_ok_iff.mp hj).2.1.aboutEdge
  have hroom := hharmless.room side
  have hroom' := hharmless.room side.other
  have hdated : ∀ b ∈ unseen edge nodes side.other,
      Date.parse b.assertedAt ≤ Date.parse a.assertedAt := by
    obtain ⟨-, v, -, hv, -⟩ := hagree
    obtain ⟨t, ht, hlast⟩ := hv.split
    cases hlast with
    | cons hlast _ =>
      intro b hb
      apply asserted_in_order ht hlast b hb
      rw [h.signed side.other b hb, Side.other_other, hhonest.2.2.1]
  rw [Move.perform]
  generalize hnodes : Function.update nodes side ((nodes side).appendAssertion a) = after
  have hself : chain edge after side = chain edge nodes side ++ [a] := by
    rw [← hnodes, chain_update]
    apply getAssertions_appendAll (l := [a]) (by simpa using habout)
    change (chain edge nodes side).length + 1 ≤ 10000
    omega
  have hother : chain edge after side.other = chain edge nodes side.other := by
    rw [← hnodes, chain_update_other]
  have hunseen : unseen edge after side = unseen edge nodes side := by
    rw [unseen, hself, hother, incoming_held_snoc (hharmless.fresh _), unseen]
  have hwaiting : unseen edge after side.other = unseen edge nodes side.other ++ [a] := by
    rw [unseen_other] at hdated ⊢
    rw [hself, hother, incoming_snoc (hharmless.fresh _) hdated, unseen_other]
  have hagree' : Replicas.Agree (judge crypto noRotations none edge) (Alike edge side)
      (pairAt crypto edge after side) := by
    rw [pairAt, hself, hother, hunseen, hwaiting, context_snoc_ok hj]
    exact hagree
  refine ⟨?_, ?_, side.forall ?_ ?_, side.forall ?_ ?_, side.forall hagree' (agree_other hagree')⟩
  · rw [← hnodes]
    exact h.held_update _ (h.held side)
  · rw [← hnodes]
    exact h.unrotated_update _ (h.unrotated side)
  · rw [hself, hunseen, List.length_append, List.length_singleton]
    omega
  · rw [hother, hwaiting, List.length_append, List.length_singleton]
    omega
  · rw [hunseen]
    exact h.signed side
  · rw [hwaiting]
    intro b hb
    rcases List.mem_append.mp hb with hb | hb
    · exact h.signed side.other b hb
    · rw [List.mem_singleton.mp hb, Side.other_other]
      exact hhonest.2.2.1

theorem aboutEdge (h : Synced crypto edge nodes) (ha : a ∈ unseen edge nodes side) :
    a.edgeId = edge.edgeId := by
  have htaken : Replay.accepted (judge crypto noRotations none edge)
      (context crypto noRotations none edge (chain edge nodes side)) (unseen edge nodes side) =
      unseen edge nodes side := (h.agree side).taken
  exact edgeId_of_accepted (htaken.symm ▸ ha)

theorem receive (h : Synced crypto edge nodes) (hedge : edgeMalformed crypto edge = none)
    (hpast : Past edge nodes now) (side : Side) :
    Synced crypto edge ((Move.exchange side now).perform crypto edge nodes) := by
  rw [Move.perform, (h.exchange hedge hpast side).1]
  cases hempty : unseen edge nodes side with
  | nil =>
    rw [appendAll, List.foldl_nil, Function.update_eq_self]
    exact h
  | cons b l =>
    rw [← hempty]
    have hroom := (h.room side).resolve_left (by simp [hempty])
    generalize hnodes : Function.update nodes side
      (appendAll (nodes side) (unseen edge nodes side)) = after
    have hself : chain edge after side = chain edge nodes side ++ unseen edge nodes side := by
      rw [← hnodes, chain_update]
      exact getAssertions_appendAll (fun a ↦ h.aboutEdge) hroom
    have hother : chain edge after side.other = chain edge nodes side.other := by
      rw [← hnodes, chain_update_other]
    have hunseen : unseen edge after side = [] := by
      rw [unseen, hself, hother]
      exact incoming_taken _
    have hwaiting : unseen edge after side.other = unseen edge nodes side.other := by
      rw [unseen_other, hself, hother, unseen_other]
      exact incoming_returned _
    have hagree : Replicas.Agree (judge crypto noRotations none edge) (Alike edge side)
        (pairAt crypto edge after side) := by
      rw [pairAt, hself, hother, hunseen, hwaiting, context_append]
      exact (h.agree side).receive
    refine ⟨?_, ?_, side.forall (.inl hunseen) ?_, side.forall ?_ ?_,
      side.forall hagree (agree_other hagree)⟩
    · rw [← hnodes]
      exact h.held_update _ (by rw [Subtree.getEdge, edges_appendAll]; exact h.held side)
    · rw [← hnodes]
      exact h.unrotated_update _ (by
        rw [appendAll_spec fun a ↦ h.aboutEdge]
        exact h.unrotated side)
    · rw [hother, hwaiting]
      exact h.room side.other
    · rw [hunseen]
      exact fun b hb ↦ absurd hb List.not_mem_nil
    · rw [hwaiting]
      exact h.signed side.other

end Synced

theorem Reached.synced {first : Nodes} (hshared : Shared crypto edge first)
    (h : Reached crypto edge (HarmlessMove crypto edge) first nodes) :
    Synced crypto edge nodes := by
  induction h with
  | start => exact hshared.synced
  | @move nodes move _ hhonest hharmless ih =>
    cases move with
    | append side now a => exact ih.append hhonest hharmless
    | exchange side now => exact ih.receive hshared.wellFormed hhonest side

/-- After a run whose every assertion was harmless, once an exchange brings neither node anything
new, both compute the same state. -/
theorem states_meet {first : Nodes} (hshared : Shared crypto edge first)
    (hrun : Reached crypto edge (HarmlessMove crypto edge) first nodes)
    (hquiet : Quiet crypto edge nodes) :
    stateAt crypto edge nodes .owner = stateAt crypto edge nodes .owedTo := by
  have hsynced := hrun.synced hshared
  have hnothing (side : Side) : unseen edge nodes side = [] := by
    obtain ⟨now, hpast, hnone⟩ := hquiet side
    exact (hsynced.exchange hshared.wellFormed hpast side).2.symm.trans hnone
  have halike : Alike edge .owner (context crypto noRotations none edge (chain edge nodes .owner))
      (context crypto noRotations none edge (chain edge nodes .owedTo)) := by
    refine (hsynced.agree .owner).settled ?_ ?_
    · rw [pairAt, hnothing]
      rfl
    · rw [pairAt, hnothing, hnothing]
      rfl
  rw [stateAt, stateAt, hsynced.lineage, hsynced.lineage, finalState_eq hshared.wellFormed,
    finalState_eq hshared.wellFormed]
  exact halike.state

section TwoNodes

open Sample

def confirmed : Nodes := fun _ ↦
  { Subtree.empty with
    edges := Directory.empty.put Sample.edge
    files := fun id ↦ if id = Sample.edge.edgeId then [proposal, confirmation] else [] }

theorem confirmed_shared : Shared Sample.crypto Sample.edge confirmed :=
  ⟨by decide, fun _ ↦ rfl, fun _ ↦ rfl, rfl⟩

def perform (moves : List Move) : Nodes :=
  moves.foldl (fun nodes move ↦ move.perform Sample.crypto Sample.edge nodes) confirmed

theorem reached_perform {C : Nodes → Move → Prop} {moves : List Move}
    (h : ∀ i : Fin moves.length, (moves[i]).Honest Sample.crypto Sample.edge
      (perform (moves.take i)) ∧ C (perform (moves.take i)) moves[i]) :
    Reached Sample.crypto Sample.edge C confirmed (perform moves) := by
  have hprefix {before : List Move} {move : Move} (hpre : before ++ [move] <+: moves) :
      move.Honest Sample.crypto Sample.edge (perform before) ∧ C (perform before) move :=
    Replay.forall_prefix (Q := fun l m ↦ m.Honest Sample.crypto Sample.edge (perform l) ∧
      C (perform l) m) h hpre
  clear h
  induction moves using List.reverseRecOn with
  | nil => exact .start
  | append_singleton moves move ih =>
    have hmoves := ih fun hpre ↦ hprefix (hpre.trans (List.prefix_append _ _))
    obtain ⟨hhonest, hC⟩ := hprefix List.prefix_rfl
    rw [perform, List.foldl_append]
    exact hmoves.move hhonest hC

def clock : Rfc3339 := date 3 5 0

/-- The owner closes and the creditor releases at one instant, and each tells the other. -/
def exits : List Move :=
  [.append .owner clock closure, .append .owedTo clock Settlement.lateRelease,
    .exchange .owner clock, .exchange .owedTo clock]

theorem exits_honest : ∀ i : Fin 4,
    (exits[i]).Honest Sample.crypto Sample.edge (perform (exits.take i)) := by
  decide +kernel

theorem exits_harmless : ∀ i : Fin 4,
    HarmlessMove Sample.crypto Sample.edge (perform (exits.take i)) exits[i]
  | 0 => by
    have hseen : unseen Sample.edge confirmed .owner = [] := by decide +kernel
    exact harmless_of_seen hseen (by decide +kernel) (by decide +kernel) (by decide +kernel)
  | 1 => by
    have hunseen : unseen Sample.edge (perform (exits.take 1)) .owedTo = [closure] := by
      decide +kernel
    refine ⟨by decide +kernel, by decide +kernel, by decide +kernel, fun p q hpq ↦ ?_,
      fun p b q hpq ↦ ?_⟩
    · rcases List.append_eq_singleton_iff.mp (hpq.symm.trans hunseen) with
        ⟨rfl, rfl⟩ | ⟨rfl, rfl⟩ <;> decide +kernel
    · obtain ⟨rfl, hb⟩ | ⟨-, hb⟩ := List.append_eq_singleton_iff.mp (hpq.symm.trans hunseen)
      · cases hb
        decide +kernel
      · cases hb
  | 2 => trivial
  | 3 => trivial

theorem exits_at_one_instant_meet :
    stateAt Sample.crypto Sample.edge (perform exits) .owner =
      stateAt Sample.crypto Sample.edge (perform exits) .owedTo := by
  have hrun : Reached Sample.crypto Sample.edge (HarmlessMove Sample.crypto Sample.edge) confirmed
      (perform exits) := reached_perform fun i ↦ ⟨exits_honest i, exits_harmless i⟩
  refine states_meet confirmed_shared hrun fun side ↦ ⟨clock, ?_⟩
  cases side <;> decide +kernel

def lateAcceptance : Assertion := act .closed creditorKey (date 3 3 10) none
  0x3110bae08f95291fc026203dba42813111cc00740358bcc38001e8084abea3292c15194a84c41d753860ded870ac88c10856c72fe8b778034b9b67297633c305

/-- The owner closes, and the creditor, who has not seen it, disputes and then closes too. -/
def closings : List Move :=
  [.append .owner clock closure, .append .owedTo clock dispute,
    .append .owedTo clock lateAcceptance, .exchange .owner clock, .exchange .owedTo clock]

/-- Both nodes store the same assertions: to the owner's the edge is disputed, and to the
creditor's it is closed. -/
theorem closing_against_dispute_parts : ¬∀ first nodes : Nodes,
    Shared Sample.crypto Sample.edge first →
    Reached Sample.crypto Sample.edge (fun _ _ ↦ True) first nodes →
    Quiet Sample.crypto Sample.edge nodes →
    stateAt Sample.crypto Sample.edge nodes .owner =
      stateAt Sample.crypto Sample.edge nodes .owedTo := by
  intro h
  have hhonest : ∀ i : Fin 5,
      (closings[i]).Honest Sample.crypto Sample.edge (perform (closings.take i)) := by
    decide +kernel
  have hrun : Reached Sample.crypto Sample.edge (fun _ _ ↦ True) confirmed (perform closings) :=
    reached_perform fun i ↦ ⟨hhonest i, trivial⟩
  have hquiet : Quiet Sample.crypto Sample.edge (perform closings) := by
    intro side
    refine ⟨clock, ?_⟩
    cases side <;> decide +kernel
  have hmeet := h confirmed (perform closings) confirmed_shared hrun hquiet
  revert hmeet
  decide +kernel

end TwoNodes

end Servanda.Convergence
