import Servanda.Chains
import Servanda.Replicas

namespace Servanda.Transitions

inductive Side
  | owner | owedTo
  deriving DecidableEq, Repr

def Side.other : Side → Side
  | owner => owedTo
  | owedTo => owner

def Side.party (edge : Edge) : Side → PublicKeyHex
  | owner => edge.owner
  | owedTo => edge.owedTo

@[simp] theorem Side.other_other (side : Side) : side.other.other = side := by cases side <;> rfl

theorem Side.other_ne (side : Side) : side.other ≠ side := by cases side <;> decide

theorem Side.forall {P : Side → Prop} (side : Side) (h : P side) (h' : P side.other) (s : Side) :
    P s := by
  cases side <;> cases s <;> assumption

instance {P : Side → Prop} [DecidablePred P] : Decidable (∀ side, P side) :=
  decidable_of_iff (P .owner ∧ P .owedTo)
    ⟨fun h side ↦ Side.forall .owner h.1 h.2 side, fun h ↦ ⟨h _, h _⟩⟩

/-- The states that take nothing but what ends a contest, or contests an exit. -/
def pastExits : List EffectiveState := .contestedClosure :: terminalStates

/-- Each side's exit, at its own node. -/
structure Crossed (edge : Edge) (side : Side) (exit exit' : Option Exit) : Prop where
  distinct : side.party edge ≠ side.other.party edge
  mine : ∃ e, exit = some e ∧ e.signer = side.party edge
  theirs : ∃ e, exit' = some e ∧ e.signer = side.other.party edge

/-- Contexts at a side's node and at the other side's that neither side's own acts tell apart. -/
structure Alike (edge : Edge) (side : Side) (ctx ctx' : ChainState) : Prop where
  state : ctx.state = ctx'.state
  supersededBy : ctx.supersededBy = ctx'.supersededBy
  disputeClosedBy : ctx.disputeClosedBy = ctx'.disputeClosedBy
  contestClosedBy : ctx.contestClosedBy = ctx'.contestClosedBy
  contestSupersededBy : ctx.contestSupersededBy = ctx'.contestSupersededBy
  disputedAt : ctx.disputedAt = ctx'.disputedAt
  contestedAt : ctx.contestedAt.map Date.parse = ctx'.contestedAt.map Date.parse
  latestBySigner : ctx.latestBySigner = ctx'.latestBySigner
  exits : ctx.exit = ctx'.exit ∧ ctx.windowOpenedAt = ctx'.windowOpenedAt ∨
    Crossed edge side ctx.exit ctx'.exit ∧ ctx.state ∈ pastExits

variable {crypto : Crypto} {now : Option Rfc3339} {edge : Edge} {side : Side}
  {ctx ctx' ctx'' next next' : ChainState} {a b : Assertion} {o w : Bool}

theorem Crossed.symm {exit exit' : Option Exit} (h : Crossed edge side exit exit') :
    Crossed edge side.other exit' exit where
  distinct := by rw [Side.other_other]; exact h.distinct.symm
  mine := h.theirs
  theirs := by rw [Side.other_other]; exact h.mine

namespace Alike

theorem refl (ctx : ChainState) : Alike edge side ctx ctx :=
  ⟨rfl, rfl, rfl, rfl, rfl, rfl, rfl, rfl, .inl ⟨rfl, rfl⟩⟩

theorem symm (h : Alike edge side ctx ctx') : Alike edge side.other ctx' ctx where
  state := h.state.symm
  supersededBy := h.supersededBy.symm
  disputeClosedBy := h.disputeClosedBy.symm
  contestClosedBy := h.contestClosedBy.symm
  contestSupersededBy := h.contestSupersededBy.symm
  disputedAt := h.disputedAt.symm
  contestedAt := h.contestedAt.symm
  latestBySigner := h.latestBySigner.symm
  exits := h.exits.imp (fun ⟨he, hw⟩ ↦ ⟨he.symm, hw.symm⟩) fun ⟨hc, hs⟩ ↦ ⟨hc.symm, h.state ▸ hs⟩

theorem trans (h : Alike edge side ctx ctx') (h' : Alike edge side ctx' ctx'') :
    Alike edge side ctx ctx'' where
  state := h.state.trans h'.state
  supersededBy := h.supersededBy.trans h'.supersededBy
  disputeClosedBy := h.disputeClosedBy.trans h'.disputeClosedBy
  contestClosedBy := h.contestClosedBy.trans h'.contestClosedBy
  contestSupersededBy := h.contestSupersededBy.trans h'.contestSupersededBy
  disputedAt := h.disputedAt.trans h'.disputedAt
  contestedAt := h.contestedAt.trans h'.contestedAt
  latestBySigner := h.latestBySigner.trans h'.latestBySigner
  exits := by
    rcases h.exits with ⟨he, hw⟩ | ⟨hc, hs⟩ <;> rcases h'.exits with ⟨he', hw'⟩ | ⟨hc', hs'⟩
    · exact .inl ⟨he.trans he', hw.trans hw'⟩
    · exact .inr ⟨he ▸ hc', h.state ▸ hs'⟩
    · exact .inr ⟨he' ▸ hc, hs⟩
    · -- the exit in the middle cannot be both sides' own
      obtain ⟨e, he, hmine⟩ := hc'.mine
      obtain ⟨e', he', htheirs⟩ := hc.theirs
      obtain rfl : e = e' := Option.some.inj (he.symm.trans he')
      exact absurd (hmine.symm.trans htheirs) hc.distinct

/-- Where an exit is still to come, or its window is open, both nodes recorded the same one. -/
theorem same (h : Alike edge side ctx ctx') (hs : ctx.state ∉ pastExits) :
    ctx.exit = ctx'.exit ∧ ctx.windowOpenedAt = ctx'.windowOpenedAt :=
  h.exits.resolve_right fun hc ↦ hs hc.2

theorem record (h : Alike edge side ctx ctx') (a : Assertion) :
    Alike edge side (record ctx a) (record ctx' a) :=
  { h with latestBySigner := by simp only [Transitions.record, h.latestBySigner] }

theorem resolve (h : Alike edge side ctx ctx') {state : EffectiveState} (hs : state ∈ pastExits)
    (a : Assertion) : Alike edge side (resolve ctx a state) (resolve ctx' a state) :=
  { h with state := rfl, exits := h.exits.imp id fun ⟨hc, _⟩ ↦ ⟨hc, hs⟩ }

end Alike

theorem disputeWindowRunning_congr {t t' : Rfc3339} (h : Date.parse t = Date.parse t')
    (a : Assertion) : disputeWindowRunning t a = disputeWindowRunning t' a := by
  rw [disputeWindowRunning, disputeWindowRunning, h]

/-- The ends that both parties have to sign. -/
inductive Consent
  | supersession | closure | contestClosure | contestSupersession
  deriving DecidableEq

namespace Consent

/-- The end an act signs for in a state. -/
def of : EffectiveState → WireAssertionState → Option Consent
  | .opened, .superseded | .disputed, .superseded => some supersession
  | .disputed, .closed => some closure
  | .contestedClosure, .closed => some contestClosure
  | .contestedClosure, .superseded => some contestSupersession
  | _, _ => none

def signedBy (ctx : ChainState) : Consent → Finset PublicKeyHex
  | supersession => ctx.supersededBy
  | closure => ctx.disputeClosedBy
  | contestClosure => ctx.contestClosedBy
  | contestSupersession => ctx.contestSupersededBy

def add (ctx : ChainState) (signer : PublicKeyHex) : Consent → ChainState
  | supersession => { ctx with supersededBy := insert signer ctx.supersededBy }
  | closure => { ctx with disputeClosedBy := insert signer ctx.disputeClosedBy }
  | contestClosure => { ctx with contestClosedBy := insert signer ctx.contestClosedBy }
  | contestSupersession =>
    { ctx with contestSupersededBy := insert signer ctx.contestSupersededBy }

def result : Consent → EffectiveState
  | supersession | contestSupersession => .superseded
  | closure | contestClosure => .closed

def join (ctx : ChainState) (a : Assertion) (f : Consent) : ChainState :=
  if (insert a.signer (f.signedBy ctx)).card = 2 then resolve (f.add ctx a.signer) a f.result
  else f.add ctx a.signer

variable {f g : Consent} {signer signer' : PublicKeyHex}

theorem state_add : (f.add ctx signer).state = ctx.state := by cases f <;> rfl

theorem exit_add : (f.add ctx signer).exit = ctx.exit := by cases f <;> rfl

theorem result_mem : f.result ∈ terminalStates := by cases f <;> decide

theorem signedBy_add_self : f.signedBy (f.add ctx signer) = insert signer (f.signedBy ctx) := by
  cases f <;> rfl

theorem signedBy_add_of_ne (h : f ≠ g) : f.signedBy (g.add ctx signer) = f.signedBy ctx := by
  cases f <;> cases g <;> first | rfl | exact absurd rfl h

theorem add_comm : g.add (f.add ctx signer) signer' = f.add (g.add ctx signer') signer := by
  cases f <;> cases g <;> first | rfl | simp only [add, Finset.insert_comm]

theorem signedBy_alike (h : Alike edge side ctx ctx') : f.signedBy ctx = f.signedBy ctx' := by
  cases f
  · exact h.supersededBy
  · exact h.disputeClosedBy
  · exact h.contestClosedBy
  · exact h.contestSupersededBy

theorem add_alike (h : Alike edge side ctx ctx') (signer : PublicKeyHex) :
    Alike edge side (f.add ctx signer) (f.add ctx' signer) := by
  cases f
  · exact { h with supersededBy := by simp only [add, h.supersededBy] }
  · exact { h with disputeClosedBy := by simp only [add, h.disputeClosedBy] }
  · exact { h with contestClosedBy := by simp only [add, h.contestClosedBy] }
  · exact { h with contestSupersededBy := by simp only [add, h.contestSupersededBy] }

theorem join_alike (h : Alike edge side ctx ctx') (a : Assertion) :
    Alike edge side (f.join ctx a) (f.join ctx' a) := by
  rw [join, join, signedBy_alike h]
  split
  · exact (add_alike h a.signer).resolve (List.mem_cons_of_mem _ result_mem) a
  · exact add_alike h a.signer

theorem of_eq_some {state : EffectiveState} {act : WireAssertionState}
    (h : of state act = some f) :
    f = supersession ∧ (state = .opened ∨ state = .disputed) ∧ act = .superseded ∨
      f = closure ∧ state = .disputed ∧ act = .closed ∨
      f = contestClosure ∧ state = .contestedClosure ∧ act = .closed ∨
      f = contestSupersession ∧ state = .contestedClosure ∧ act = .superseded := by
  unfold of at h
  split at h <;> simp_all [eq_comm]

end Consent

theorem TableRow.joins {f : Consent} (h : TableRow edge now o w ctx a next)
    (hf : Consent.of ctx.state a.state = some f) :
    a.signer ∉ f.signedBy ctx ∧ next = f.join ctx a := by
  cases h with
  | disputeClosedHalf ha hs hn hc | contestedClosedHalf ha hs hn hc
  | contestedSupersededHalf ha hs hn hc =>
    rw [ha, hs] at hf
    cases hf
    exact ⟨hn, (if_neg hc).symm⟩
  | disputeClosed ha hs hn hc | contestedClosed ha hs hn hc | contestedSuperseded ha hs hn hc =>
    rw [ha, hs] at hf
    cases hf
    exact ⟨hn, (if_pos hc).symm⟩
  | supersededHalf ha hs hn hc =>
    rcases hs with hs | hs <;> rw [ha, hs] at hf <;> cases hf <;> exact ⟨hn, (if_neg hc).symm⟩
  | superseded ha hs hn hc =>
    rcases hs with hs | hs <;> rw [ha, hs] at hf <;> cases hf <;> exact ⟨hn, (if_pos hc).symm⟩
  | disputed ha hs he =>
    rw [ha] at hf
    cases hs' : ctx.state <;> rw [hs'] at hf <;> cases hf
  | proposed ha hs | confirmed ha hs | evidenceCloses ha hs | evidenceOpensWindow ha hs
  | accepted ha hs | tacit ha hs | released ha hs | disputeExpired ha hs | expired ha hs
  | contestedExpired ha hs =>
    rw [ha, hs] at hf
    cases hf

theorem TableRow.join {f : Consent} (hf : Consent.of ctx.state a.state = some f)
    (hn : a.signer ∉ f.signedBy ctx) : TableRow edge now o w ctx a (f.join ctx a) := by
  unfold Consent.join
  rcases Consent.of_eq_some hf with ⟨rfl, hs, ha⟩ | ⟨rfl, hs, ha⟩ | ⟨rfl, hs, ha⟩ | ⟨rfl, hs, ha⟩
  · split
    next hc => exact .superseded ha hs hn hc
    next hc => exact .supersededHalf ha hs hn hc
  · split
    next hc => exact .disputeClosed ha hs hn hc
    next hc => exact .disputeClosedHalf ha hs hn hc
  · split
    next hc => exact .contestedClosed ha hs hn hc
    next hc => exact .contestedClosedHalf ha hs hn hc
  · split
    next hc => exact .contestedSuperseded ha hs hn hc
    next hc => exact .contestedSupersededHalf ha hs hn hc

theorem TableRow.alike (h : TableRow edge now o w ctx a next) (hc : Alike edge side ctx ctx') :
    ∃ next', TableRow edge now o w ctx' a next' ∧ Alike edge side next next' := by
  cases hf : Consent.of ctx.state a.state with
  | some f =>
    obtain ⟨hn, rfl⟩ := h.joins hf
    rw [Consent.signedBy_alike hc] at hn
    exact ⟨_, .join (hc.state ▸ hf) hn, Consent.join_alike hc a⟩
  | none =>
    cases h with
    | proposed ha hs ho =>
      have hsame := hc.same (by rw [hs]; decide)
      exact ⟨_, .proposed ha (hc.state ▸ hs) ho, { hc with state := rfl, exits := .inl hsame }⟩
    | confirmed ha hs hw =>
      have hsame := hc.same (by rw [hs]; decide)
      exact ⟨_, .confirmed ha (hc.state ▸ hs) hw, { hc with state := rfl, exits := .inl hsame }⟩
    | evidenceCloses ha hs ho he hp =>
      have hsame := hc.same (by rw [hs]; decide)
      exact ⟨_, .evidenceCloses ha (hc.state ▸ hs) ho he hp,
        { hc with state := rfl, exits := .inl ⟨rfl, hsame.2⟩ }⟩
    | evidenceOpensWindow ha hs ho he hp =>
      exact ⟨_, .evidenceOpensWindow ha (hc.state ▸ hs) ho he hp,
        { hc with state := rfl, exits := .inl ⟨rfl, rfl⟩ }⟩
    | accepted ha hs hw =>
      exact ⟨_, .accepted ha (hc.state ▸ hs) hw, hc.resolve (by decide) a⟩
    | tacit ha hs hw ht he =>
      have hsame := hc.same (by rw [hs]; decide)
      exact ⟨_, .tacit ha (hc.state ▸ hs) hw (hsame.2 ▸ ht) he, hc.resolve (by decide) a⟩
    | released ha hs hw =>
      have hsame := hc.same (by rw [hs]; decide)
      exact ⟨_, .released ha (hc.state ▸ hs) hw,
        { hc with state := rfl, exits := .inl ⟨rfl, hsame.2⟩ }⟩
    | disputeExpired ha hs ht he =>
      exact ⟨_, .disputeExpired ha (hc.state ▸ hs) (hc.disputedAt ▸ ht) he,
        hc.resolve (by decide) a⟩
    | expired ha hs hd ht hf =>
      have hsame := hc.same (by rw [hs]; decide)
      exact ⟨_, .expired ha (hc.state ▸ hs) hd ht hf,
        { hc with state := rfl, exits := .inl ⟨rfl, hsame.2⟩ }⟩
    | disputed ha hs he =>
      have hsame := hc.same fun hp ↦ by
        have hnot : ∀ s ∈ disputableFrom, s ∉ pastExits := by decide
        exact hnot _ hs hp
      exact ⟨_, .disputed ha (hc.state ▸ hs) he,
        { hc with state := rfl, disputedAt := rfl, exits := .inl hsame }⟩
    | contestedExpired ha hs ht he hf =>
      have hmap := hc.contestedAt
      rw [ht, Option.map_some] at hmap
      obtain ⟨t', ht', hdate⟩ := Option.map_eq_some_iff.mp hmap.symm
      refine ⟨_, .contestedExpired ha (hc.state ▸ hs) ht' ?_ hf, hc.resolve (by decide) a⟩
      rwa [disputeWindowRunning_congr hdate]
    | disputeClosedHalf ha hs | disputeClosed ha hs | contestedClosedHalf ha hs
    | contestedClosed ha hs | contestedSupersededHalf ha hs | contestedSuperseded ha hs =>
      simp [Consent.of, ha, hs] at hf
    | supersededHalf ha hs | superseded ha hs =>
      rcases hs with hs | hs <;> simp [Consent.of, ha, hs] at hf

theorem TableRow.unique (h : TableRow edge now o w ctx a next)
    (h' : TableRow edge now o w ctx a next') : next = next' :=
  Except.ok.inj (h.run.2.symm.trans h'.run.2)

theorem contests_signer (h : contests ctx a = true) {e : Exit} (he : ctx.exit = some e) :
    a.signer ≠ e.signer := by
  simp only [contests, he, Option.any_some, Bool.and_eq_true, bne_iff_ne] at h
  exact h.1.1.1.1

theorem contests_congr (hexit : ctx.exit = ctx'.exit) (hs : ctx.state = ctx'.state) :
    contests ctx a = contests ctx' a := by
  rw [contests, contests, hexit, hs]

theorem contests_contested (hs : ctx.state = .contestedClosure) : contests ctx a = false := by
  cases he : ctx.exit <;> simp [contests, he, hs]

theorem Alike.contests_eq (h : Alike edge side ctx ctx')
    (hlive : terminalStates.contains ctx.state = false) : contests ctx a = contests ctx' a := by
  rcases h.exits with ⟨hexit, -⟩ | ⟨-, hs⟩
  · exact contests_congr hexit h.state
  · have hs : ctx.state = .contestedClosure := by
      rcases List.mem_cons.mp hs with hs | hs
      · exact hs
      · simp [hs] at hlive
    rw [contests_contested hs, contests_contested (h.state ▸ hs)]

theorem Alike.contest (h : Alike edge side ctx ctx') (hexit : ctx.exit = ctx'.exit ∧
    ctx.windowOpenedAt = ctx'.windowOpenedAt) (a : Assertion) :
    Alike edge side (contest ctx a) (contest ctx' a) :=
  { h with state := rfl, contestedAt := rfl, exits := .inl hexit }

theorem Alike.row (h : Alike edge side ctx ctx') (hown : a.signer = side.party edge)
    (hrow : Row noRotations now edge ctx a next) : ∃ next', Row noRotations now edge ctx' a next' := by
  cases hrow with
  | contest hcontests hfault =>
    rcases h.exits with ⟨hexit, -⟩ | ⟨hcrossed, -⟩
    · exact ⟨_, .contest (contests_congr hexit h.state ▸ hcontests) hfault⟩
    · obtain ⟨e, he, hsigner⟩ := hcrossed.mine
      exact absurd (hown.trans hsigner.symm) (contests_signer hcontests he)
  | table hcontests hrow =>
    obtain ⟨next', hrow', -⟩ := hrow.alike h
    exact ⟨next', .table (h.contests_eq hrow.run.1 ▸ hcontests) hrow'⟩

theorem Alike.rows (h : Alike edge side ctx ctx')
    (hparty : a.signer = side.party edge ∨ a.signer = side.other.party edge)
    (hrow : Row noRotations now edge ctx a next)
    (hrow' : Row noRotations now edge ctx' a next') : Alike edge side next next' := by
  cases hrow with
  | contest hcontests hfault =>
    cases hrow' with
    | contest hcontests' hfault' =>
      rcases h.exits with hsame | ⟨hcrossed, -⟩
      · exact h.contest hsame a
      · obtain ⟨e, he, hmine⟩ := hcrossed.mine
        obtain ⟨e', he', htheirs⟩ := hcrossed.theirs
        rcases hparty with hparty | hparty
        · exact absurd (hparty.trans hmine.symm) (contests_signer hcontests he)
        · exact absurd (hparty.trans htheirs.symm) (contests_signer hcontests' he')
    | table hcontests' hrow' =>
      rw [h.contests_eq (by rw [h.state]; exact hrow'.run.1), hcontests'] at hcontests
      cases hcontests
  | table hcontests hrow =>
    cases hrow' with
    | contest hcontests' hfault' =>
      rw [← h.contests_eq hrow.run.1, hcontests] at hcontests'
      cases hcontests'
    | table hcontests' hrow' =>
      obtain ⟨next'', hrow'', halike⟩ := hrow.alike h
      rwa [hrow'.unique hrow'']

theorem party_of_standing (h : Standing crypto noRotations edge a) :
    a.signer = side.party edge ∨ a.signer = side.other.party edge := by
  have hparty : a.signer = edge.owner ∨ a.signer = edge.owedTo :=
    h.party.imp heldBy_noRotations.mp heldBy_noRotations.mp
  cases side with
  | owner => exact hparty
  | owedTo => exact hparty.symm

theorem judge_follows : Replicas.Follows (judge crypto noRotations now edge) (Alike edge side)
    (·.signer = side.party edge) := by
  intro ctx ctx' next a hown h hj
  obtain ⟨hdated, hstanding, next, hrow, rfl⟩ := judge_ok_iff.mp hj
  obtain ⟨next', hrow'⟩ := h.row hown hrow
  have hdated' : backdated ctx' a = false := by rwa [backdated, ← h.latestBySigner]
  exact ⟨_, judge_ok_iff.mpr ⟨hdated', hstanding, next', hrow', rfl⟩⟩

theorem judge_congruence :
    Replicas.Congruence (judge crypto noRotations now edge) (Alike edge side) where
  refl := .refl
  trans := .trans
  congr h hj hj' := by
    obtain ⟨-, hstanding, next, hrow, rfl⟩ := judge_ok_iff.mp hj
    obtain ⟨-, -, next', hrow', rfl⟩ := judge_ok_iff.mp hj'
    exact (h.rows (party_of_standing hstanding) hrow hrow').record _

/-- Could the act contest the recorded exit, if nobody had contested it yet? -/
def answersExit (ctx : ChainState) (a : Assertion) : Bool := contests { ctx with state := .opened } a

/-- Two acts the table reads otherwise in the other order: one of them answers an exit that both
came after, or one closes the open edge that the other disputes. -/
def Clashes (ctx : ChainState) (a b : Assertion) : Prop :=
  answersExit ctx a = true ∨ answersExit ctx b = true ∨ ctx.state = .opened ∧
    (a.state = .closed ∧ b.state = .disputed ∨ a.state = .disputed ∧ b.state = .closed)

instance (ctx : ChainState) (a b : Assertion) : Decidable (Clashes ctx a b) :=
  inferInstanceAs (Decidable (_ ∨ _))

/-- What a row does to an edge that it does not end: take one of its exits, bring it to them,
dispute it, or put one of two signatures under an end. -/
inductive Turn (o : Bool) (ctx : ChainState) (a : Assertion) : ChainState → Prop
  | exits {act : WireAssertionState} {state : EffectiveState} {window resolved : Option Rfc3339}
      (ha : a.state = act) (hs : ctx.state = .opened) (hact : act ∈ unilateralExits)
      (ho : act = .closed → o = true)
      (hstate : state ∈ terminalStates ∨ state = .pendingAcceptance ∧ act = .closed) :
      Turn o ctx a
        { ctx with
          state := state
          exit := some ⟨act, a.signer, a.assertedAt⟩
          windowOpenedAt := window
          resolvedAt := resolved }
  | opens {state : EffectiveState} (h : a.state = .proposed ∧ ctx.state = .none ∧ state = .proposed ∨
      a.state = .confirmed ∧ ctx.state = .proposed ∧ state = .opened) :
      Turn o ctx a { ctx with state := state }
  | disputes (ha : a.state = .disputed) (hs : ctx.state ∈ disputableFrom) :
      Turn o ctx a { ctx with state := .disputed, disputedAt := some a.assertedAt }
  | signs {f : Consent} (hf : Consent.of ctx.state a.state = some f)
      (hc : (insert a.signer (f.signedBy ctx)).card ≠ 2) : Turn o ctx a (f.add ctx a.signer)

theorem TableRow.turn (h : TableRow edge now o w ctx a next) :
    Turn o ctx a next ∨ next.state ∈ terminalStates ∧ next.exit = ctx.exit := by
  cases hf : Consent.of ctx.state a.state with
  | some f =>
    obtain ⟨-, rfl⟩ := h.joins hf
    unfold Consent.join
    split
    · exact .inr ⟨f.result_mem, f.exit_add⟩
    next hc => exact .inl (.signs hf hc)
  | none =>
    cases h with
    | proposed ha hs => exact .inl (.opens (.inl ⟨ha, hs, rfl⟩))
    | confirmed ha hs => exact .inl (.opens (.inr ⟨ha, hs, rfl⟩))
    | evidenceCloses ha hs ho =>
      exact .inl (.exits ha hs (by decide) (fun _ ↦ ho) (.inl (by decide)))
    | evidenceOpensWindow ha hs ho =>
      exact .inl (.exits ha hs (by decide) (fun _ ↦ ho) (.inr ⟨rfl, rfl⟩))
    | released ha hs => exact .inl (.exits ha hs (by decide) nofun (.inl (by decide)))
    | expired ha hs => exact .inl (.exits ha hs (by decide) nofun (.inl (by decide)))
    | accepted | tacit | disputeExpired | contestedExpired =>
      exact .inr ⟨by simp [resolve, terminalStates], rfl⟩
    | disputed ha hs => exact .inl (.disputes ha hs)
    | disputeClosedHalf ha hs | disputeClosed ha hs | contestedClosedHalf ha hs
    | contestedClosed ha hs | contestedSupersededHalf ha hs | contestedSuperseded ha hs =>
      simp [Consent.of, ha, hs] at hf
    | supersededHalf ha hs | superseded ha hs =>
      rcases hs with hs | hs <;> simp [Consent.of, ha, hs] at hf

theorem answersExit_of_contests (h : contests ctx' a = true) (hexit : ctx'.exit = ctx.exit) :
    answersExit ctx a = true := by
  rw [answersExit, contests]
  rw [contests, hexit] at h
  cases he : ctx.exit with
  | none => simp [he] at h
  | some e =>
    simp only [he, Option.any_some, Bool.and_eq_true] at h ⊢
    exact ⟨⟨h.1.1, by decide⟩, h.2⟩

/-- Where no exit but the recorded one can be meant, an act that does not answer it takes a row. -/
theorem Row.table_of_answersExit (h : Row noRotations now edge ctx' a next)
    (hexit : ctx'.exit = ctx.exit) (ha : ¬answersExit ctx a = true) :
    TableRow edge now (heldBy (noRotations edge.owner) a.signer a.assertedAt)
      (heldBy (noRotations edge.owedTo) a.signer a.assertedAt) ctx' a next := by
  cases h with
  | contest hc => exact absurd (answersExit_of_contests hc hexit) ha
  | table _ h => exact h

theorem TableRow.live (h : TableRow edge now o w ctx a next) : ctx.state ∉ terminalStates := by
  simpa using h.run.1

theorem Row.after_exit (h : Row noRotations now edge ctx' b next)
    (hstate : ctx'.state ∈ terminalStates ∨ ctx'.state = .pendingAcceptance ∧ a.state = .closed) :
    contests ctx' b = true ∧ next = Transitions.contest ctx' b ∨
      a.state = .closed ∧ (b.state = .closed ∨ b.state = .disputed) := by
  cases h with
  | contest hc => exact .inl ⟨hc, rfl⟩
  | table _ h =>
    obtain ⟨hs', ha⟩ := hstate.resolve_left h.live
    cases h with
    | accepted hb | tacit hb => exact .inr ⟨ha, .inl hb⟩
    | disputed hb => exact .inr ⟨ha, .inr hb⟩
    | supersededHalf hb hs | superseded hb hs => simp [hs'] at hs
    | proposed hb hs | confirmed hb hs | evidenceCloses hb hs | evidenceOpensWindow hb hs
    | disputeClosedHalf hb hs | disputeClosed hb hs | released hb hs | disputeExpired hb hs
    | expired hb hs | contestedClosedHalf hb hs | contestedClosed hb hs
    | contestedSupersededHalf hb hs | contestedSuperseded hb hs | contestedExpired hb hs =>
      rw [hs'] at hs
      cases hs

theorem TableRow.disputes (h : TableRow edge now o w ctx a next) (ha : a.state = .disputed) :
    ctx.state ∈ disputableFrom ∧
      next = { ctx with state := .disputed, disputedAt := some a.assertedAt } := by
  cases h with
  | disputed _ hs => exact ⟨hs, rfl⟩
  | proposed hb | confirmed hb | evidenceCloses hb | evidenceOpensWindow hb | accepted hb
  | tacit hb | disputeClosedHalf hb | disputeClosed hb | released hb | disputeExpired hb
  | expired hb | supersededHalf hb | superseded hb | contestedClosedHalf hb | contestedClosed hb
  | contestedSupersededHalf hb | contestedSuperseded hb | contestedExpired hb =>
    rw [ha] at hb
    cases hb

theorem contests_spec (h : contests ctx a = true) : a.state ∈ unilateralExits ∧
    ∀ e, ctx.exit = some e → a.state ≠ e.state ∧ Date.parse a.assertedAt ≤ Date.parse e.instant := by
  cases he : ctx.exit with
  | none => simp [contests, he] at h
  | some e =>
    simp only [contests, he, Option.any_some, Bool.and_eq_true, bne_iff_ne, decide_eq_true_eq] at h
    refine ⟨by simpa using h.1.1.1.2, fun e' he' ↦ ?_⟩
    obtain rfl := Option.some.inj he'
    exact ⟨h.1.1.2, h.2⟩

theorem record_comm (h : a.signer ≠ b.signer) (ctx : ChainState) :
    record (record ctx a) b = record (record ctx b) a := by
  simp only [record, Function.update_comm h]

namespace Consent

variable {f g : Consent}

theorem add_record (signer : PublicKeyHex) :
    f.add (record ctx a) signer = record (f.add ctx signer) a := by cases f <;> rfl

theorem signedBy_record : f.signedBy (record ctx a) = f.signedBy ctx := by cases f <;> rfl

theorem join_record : f.join (record ctx a) b = record (f.join ctx b) a := by
  rw [join, join, signedBy_record, add_record]
  split <;> rfl

theorem join_of_card (h : (insert a.signer (f.signedBy ctx)).card ≠ 2) :
    f.join ctx a = f.add ctx a.signer := if_neg h

/-- Two signatures under ends, neither of which is the second on its own. -/
theorem join_comm (ha : (insert a.signer (f.signedBy ctx)).card ≠ 2)
    (hb : (insert b.signer (g.signedBy ctx)).card ≠ 2) :
    Alike edge side (g.join (f.add ctx a.signer) b) (f.join (g.add ctx b.signer) a) := by
  by_cases hfg : f = g
  · subst hfg
    rw [join, join, signedBy_add_self, signedBy_add_self, Finset.insert_comm, add_comm]
    split
    · exact ⟨rfl, rfl, rfl, rfl, rfl, rfl, rfl, rfl, .inl ⟨rfl, rfl⟩⟩
    · exact .refl _
  · rw [join_of_card (by rwa [signedBy_add_of_ne (Ne.symm hfg)]),
      join_of_card (by rwa [signedBy_add_of_ne hfg]), add_comm]
    exact .refl _

end Consent

theorem Clashes.symm (h : Clashes ctx a b) : Clashes ctx b a := by
  rcases h with h | h | ⟨hs, ⟨ha, hb⟩ | ⟨ha, hb⟩⟩
  · exact .inr (.inl h)
  · exact .inl h
  · exact .inr (.inr ⟨hs, .inr ⟨hb, ha⟩⟩)
  · exact .inr (.inr ⟨hs, .inl ⟨hb, ha⟩⟩)

/-- What a first act did to an edge that took a second one after it. -/
theorem TableRow.turn_of_followed (h : TableRow edge now o w ctx a next)
    (hrow : Row noRotations now edge (record next a) b next') (hb : ¬answersExit ctx b = true) :
    Turn o ctx a next := by
  rcases h.turn with hturn | ⟨hstate, hexit⟩
  · exact hturn
  · exact absurd hstate (hrow.table_of_answersExit hexit hb).live

theorem TableRow.opens_once {state : EffectiveState}
    (h : a.state = .proposed ∧ ctx.state = .none ∧ state = .proposed ∨
      a.state = .confirmed ∧ ctx.state = .proposed ∧ state = .opened)
    (hb : TableRow edge now o w ctx b next) (hs : ctx'.state = state)
    (hb' : TableRow edge now o w ctx' b next') : False := by
  obtain ⟨hproposed, hconfirmed⟩ := hb.source
  obtain ⟨hproposed', hconfirmed'⟩ := hb'.source
  rcases h with ⟨-, hctx, rfl⟩ | ⟨-, hctx, rfl⟩
  · rw [hproposed'.mp (hproposed.mpr hctx)] at hs
    cases hs
  · rw [hconfirmed'.mp (hconfirmed.mpr hctx)] at hs
    cases hs

theorem Turn.leaves (h : Turn o ctx a next) (hs : ctx.state = .opened)
    (ha : a.state ∈ unilateralExits) : (a.state = .closed → o = true) ∧
      ∃ state window resolved, (state ∈ terminalStates ∨ state = .pendingAcceptance ∧
        a.state = .closed) ∧ next =
          { ctx with
            state := state
            exit := some ⟨a.state, a.signer, a.assertedAt⟩
            windowOpenedAt := window
            resolvedAt := resolved } := by
  cases h with
  | exits hact _ _ ho hstate =>
    subst hact
    exact ⟨ho, _, _, _, hstate, rfl⟩
  | opens h =>
    rcases h with ⟨ha', -⟩ | ⟨ha', -⟩ <;> simp [ha', unilateralExits] at ha
  | disputes ha' => simp [ha', unilateralExits] at ha
  | signs hf =>
    rcases Consent.of_eq_some hf with ⟨-, -, ha'⟩ | ⟨-, hs', -⟩ | ⟨-, hs', -⟩ | ⟨-, hs', -⟩
    · simp [ha', unilateralExits] at ha
    all_goals simp [hs] at hs'

theorem Turn.meets_exit (h : Turn o ctx a next) (hs : ctx.state = .opened)
    (ha : a.state ∈ unilateralExits) (hrow : Row noRotations now edge (record next a) b next')
    (hclash : ¬Clashes ctx a b) : b.state ∈ unilateralExits := by
  obtain ⟨-, state, window, resolved, hstate, rfl⟩ := h.leaves hs ha
  rcases hrow.after_exit hstate with ⟨hc, -⟩ | ⟨hclosed, hb | hb⟩
  · exact (contests_spec hc).1
  · rw [hb]
    decide
  · exact absurd (.inr (.inr ⟨hs, .inl ⟨hclosed, hb⟩⟩)) hclash

theorem Turn.exit_contested (h : Turn o ctx a next) (hs : ctx.state = .opened)
    (ha : a.state ∈ unilateralExits) (hrow : Row noRotations now edge (record next a) b next')
    (hb : b.state ∈ unilateralExits) (hclosed : a.state = .closed → b.state ≠ .closed) :
    ∃ state window resolved, Date.parse b.assertedAt ≤ Date.parse a.assertedAt ∧
      next' = contest (record
        { ctx with
          state := state
          exit := some ⟨a.state, a.signer, a.assertedAt⟩
          windowOpenedAt := window
          resolvedAt := resolved } a) b := by
  obtain ⟨-, state, window, resolved, hstate, rfl⟩ := h.leaves hs ha
  rcases hrow.after_exit hstate with ⟨hc, hnext⟩ | ⟨hac, hbc | hbc⟩
  · exact ⟨state, window, resolved, ((contests_spec hc).2 _ rfl).2, hnext⟩
  · exact absurd hbc (hclosed hac)
  · simp [hbc, unilateralExits] at hb

section Swaps

variable {na nab nb nba : ChainState}

theorem Turn.swap_exits {oa ob : Bool} (ha : a.signer = side.party edge)
    (hb : b.signer = side.other.party edge) (hsigners : a.signer ≠ b.signer)
    (hA : Turn oa ctx a na) (hAB : Row noRotations now edge (record na a) b nab)
    (hB : Turn ob ctx b nb) (hBA : Row noRotations now edge (record nb b) a nba)
    (hs : ctx.state = .opened) (haexit : a.state ∈ unilateralExits)
    (hbexit : b.state ∈ unilateralExits)
    (hclosed : a.state = .closed → b.state ≠ .closed) :
    Alike edge side (record nab b) (record nba a) := by
  obtain ⟨_, _, _, hle, rfl⟩ := hA.exit_contested hs haexit hAB hbexit hclosed
  obtain ⟨_, _, _, hge, rfl⟩ :=
    hB.exit_contested hs hbexit hBA haexit fun hbc hac ↦ hclosed hac hbc
  have hlatest := congrArg ChainState.latestBySigner (record_comm hsigners ctx)
  refine ⟨rfl, rfl, rfl, rfl, rfl, rfl, ?_, hlatest, .inr ⟨⟨?_, ?_, ?_⟩, List.mem_cons_self⟩⟩
  · simp only [record, contest, Option.map_some, le_antisymm hle hge]
  · rwa [← ha, ← hb]
  · exact ⟨_, rfl, ha⟩
  · exact ⟨_, rfl, hb⟩

theorem swap_dispute {f : Consent} (hsigners : a.signer ≠ b.signer) (hclash : ¬Clashes ctx a b)
    (ha : a.state = .disputed) (hs : ctx.state ∈ disputableFrom)
    (hf : Consent.of ctx.state b.state = some f)
    (hc : (insert b.signer (f.signedBy ctx)).card ≠ 2)
    (hAB : Row noRotations now edge
      (record { ctx with state := .disputed, disputedAt := some a.assertedAt } a) b nab)
    (hBA : Row noRotations now edge (record (f.add ctx b.signer) b) a nba) :
    Alike edge side (record nab b) (record nba a) := by
  have hs' : ctx.state = .opened ∨ ctx.state = .pendingAcceptance := by
    simpa [disputableFrom] using hs
  obtain ⟨rfl, hb⟩ : f = .supersession ∧ b.state = .superseded := by
    rcases Consent.of_eq_some hf with ⟨hf, -, hb⟩ | ⟨-, h, -⟩ | ⟨-, h, -⟩ | ⟨-, h, -⟩
    · exact ⟨hf, hb⟩
    all_goals simp [h] at hs'
  have hAB := hAB.table_of_answersExit rfl fun h ↦ hclash (.inr (.inl h))
  have hBA := hBA.table_of_answersExit Consent.exit_add fun h ↦ hclash (.inl h)
  obtain ⟨-, rfl⟩ := hAB.joins (f := .supersession) (by rw [hb]; rfl)
  obtain ⟨-, rfl⟩ := hBA.disputes ha
  rw [Consent.join_of_card (by exact hc)]
  have hlatest := congrArg ChainState.latestBySigner (record_comm hsigners ctx)
  exact ⟨rfl, rfl, rfl, rfl, rfl, rfl, rfl, hlatest, .inl ⟨rfl, rfl⟩⟩

/-- Two acts of the two sides that an edge takes in either order, and reads alike in both. -/
theorem Row.swap (ha : a.signer = side.party edge) (hb : b.signer = side.other.party edge)
    (hsigners : a.signer ≠ b.signer) (hclash : ¬Clashes ctx a b)
    (hA : Row noRotations now edge ctx a na) (hAB : Row noRotations now edge (record na a) b nab)
    (hB : Row noRotations now edge ctx b nb) (hBA : Row noRotations now edge (record nb b) a nba) :
    Alike edge side (record nab b) (record nba a) := by
  have hnoa : ¬answersExit ctx a = true := fun h ↦ hclash (.inl h)
  have hnob : ¬answersExit ctx b = true := fun h ↦ hclash (.inr (.inl h))
  have hrowA := hA.table_of_answersExit rfl hnoa
  have hrowB := hB.table_of_answersExit rfl hnob
  have hA := hrowA.turn_of_followed hAB hnob
  have hB := hrowB.turn_of_followed hBA hnoa
  by_cases hexits : ctx.state = .opened ∧ (a.state ∈ unilateralExits ∨ b.state ∈ unilateralExits)
  · obtain ⟨hs, hexit⟩ := hexits
    have hboth : a.state ∈ unilateralExits ∧ b.state ∈ unilateralExits := by
      rcases hexit with hexit | hexit
      · exact ⟨hexit, hA.meets_exit hs hexit hAB hclash⟩
      · exact ⟨hB.meets_exit hs hexit hBA fun h ↦ hclash h.symm, hexit⟩
    refine hA.swap_exits ha hb hsigners hAB hB hBA hs hboth.1 hboth.2 fun hac hbc ↦ hsigners ?_
    -- only the owner closes an open edge
    exact (heldBy_noRotations.mp ((hA.leaves hs hboth.1).1 hac)).trans
      (heldBy_noRotations.mp ((hB.leaves hs hboth.2).1 hbc)).symm
  cases hA with
  | exits hact hs hexit => exact absurd ⟨hs, .inl (hact ▸ hexit)⟩ hexits
  | opens h => exact (hrowB.opens_once h rfl (hAB.table_of_answersExit rfl hnob)).elim
  | disputes had hs =>
    cases hB with
    | exits hact hs hexit => exact absurd ⟨hs, .inr (hact ▸ hexit)⟩ hexits
    | opens h => exact (hrowA.opens_once h rfl (hBA.table_of_answersExit rfl hnoa)).elim
    | disputes hbd =>
      have hdisputed := ((hAB.table_of_answersExit rfl hnob).disputes hbd).1
      simp [record, disputableFrom] at hdisputed
    | signs hf hc => exact swap_dispute hsigners hclash had hs hf hc hAB hBA
  | @signs f hf hc =>
    cases hB with
    | exits hact hs hexit => exact absurd ⟨hs, .inr (hact ▸ hexit)⟩ hexits
    | opens h => exact (hrowA.opens_once h rfl (hBA.table_of_answersExit rfl hnoa)).elim
    | disputes hbd hs =>
      have hswap : Alike edge side.other (record nba a) (record nab b) :=
        swap_dispute hsigners.symm (fun h ↦ hclash h.symm) hbd hs hf hc hBA hAB
      have hback := hswap.symm
      rwa [Side.other_other] at hback
    | @signs g hg hd =>
      obtain ⟨-, rfl⟩ := (hAB.table_of_answersExit f.exit_add hnob).joins
        (hg ▸ congrArg (Consent.of · b.state) f.state_add)
      obtain ⟨-, rfl⟩ := (hBA.table_of_answersExit g.exit_add hnoa).joins
        (hf ▸ congrArg (Consent.of · a.state) g.state_add)
      rw [← Consent.join_record, ← Consent.join_record, ← Consent.add_record, ← Consent.add_record,
        ← Consent.add_record, ← Consent.add_record, record_comm hsigners]
      exact Consent.join_comm (by rwa [Consent.signedBy_record, Consent.signedBy_record])
        (by rwa [Consent.signedBy_record, Consent.signedBy_record])

theorem judge_swaps (ha : a.signer = side.party edge) (hb : b.signer = side.other.party edge)
    (hsigners : a.signer ≠ b.signer) (hclash : ¬Clashes ctx a b) :
    Replicas.Swaps (judge crypto noRotations now edge) (Alike edge side) ctx a b := by
  intro ca cab cb cba hja hjab hjb hjba
  obtain ⟨-, -, na, hA, rfl⟩ := judge_ok_iff.mp hja
  obtain ⟨-, -, nab, hAB, rfl⟩ := judge_ok_iff.mp hjab
  obtain ⟨-, -, nb, hB, rfl⟩ := judge_ok_iff.mp hjb
  obtain ⟨-, -, nba, hBA, rfl⟩ := judge_ok_iff.mp hjba
  exact Row.swap ha hb hsigners hclash hA hAB hB hBA

end Swaps

theorem judge_clock {keyLineage : KeyLineage} {clock : Rfc3339}
    (h : Date.parse a.assertedAt ≤ Date.parse clock) :
    judge crypto keyLineage (some clock) edge ctx a = judge crypto keyLineage none edge ctx a := by
  have hclock : datedInTheFuture (some clock) a = datedInTheFuture none a := by
    simp only [datedInTheFuture, Option.any_some, Option.any_none, decide_eq_false_iff_not, not_lt]
    unfold expirySkewMs
    omega
  simp only [judge, step, unilateralExitFault, contestedStep, tableStep, expiredStep, hclock]

/-- A signer's assertions are accepted in the order of their dates. -/
theorem asserted_in_order {keyLineage : KeyLineage} {l : List Assertion}
    (h : Replay.Path (judge crypto keyLineage now edge) ctx l ctx')
    (ha : judge crypto keyLineage now edge ctx' a = .ok next) :
    ∀ b ∈ l, b.signer = a.signer → Date.parse b.assertedAt ≤ Date.parse a.assertedAt := by
  have hrun : ∀ b ∈ Replay.accepted (judge crypto keyLineage now edge) ctx l, ∃ d,
      (Replay.final (judge crypto keyLineage now edge) ctx l).latestBySigner b.signer = some d ∧
        Date.parse b.assertedAt ≤ Date.parse d := by
    refine Replay.invariant (I := fun l (ctx : ChainState) ↦ ∀ b ∈ l, ∃ d,
      ctx.latestBySigner b.signer = some d ∧ Date.parse b.assertedAt ≤ Date.parse d) (by simp) ?_ l
    intro l ctx c ctx' ih hj b hb
    rw [judge_latestBySigner hj]
    by_cases hbc : b.signer = c.signer
    · refine ⟨_, by rw [hbc, Function.update_self], ?_⟩
      rcases List.mem_append.mp hb with hb | hb
      · obtain ⟨d, hd, hle⟩ := ih b hb
        exact hle.trans (not_backdated hj (hbc ▸ hd))
      · rw [List.mem_singleton.mp hb]
    · rw [Function.update_of_ne hbc]
      rcases List.mem_append.mp hb with hb | hb
      · exact ih b hb
      · exact absurd (congrArg Assertion.signer (List.mem_singleton.mp hb)) hbc
  rw [h.accepted_eq, h.final_eq] at hrun
  intro b hb hsigner
  obtain ⟨d, hd, hle⟩ := hrun b hb
  exact hle.trans (not_backdated ha (hsigner ▸ hd))

end Servanda.Transitions
