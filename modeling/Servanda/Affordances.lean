import Servanda.ReadTools
import Servanda.Windows

namespace Servanda.Affordances

open Transitions Serve StoreInvariant ServandaNode

section Statement

variable (crypto : Crypto) (now : Rfc3339) (node : ServandaNode) (persona : PublicKeyHex)
  (s : Subtree) (edge : Edge)

/-- A read tool advertises the act for an edge in a persona's register. -/
inductive Advertised (action : ItemAction) : Prop
  | openLoops {view : OpenLoopsView} {item : OpenLoopItem}
      (hitem : item ∈ node.itemsFor crypto now persona view now) (hkind : item.kind = .edge)
      (hid : item.id = edge.edgeId) (haction : action ∈ item.actions) : Advertised action
  | brief {briefSlots : ℕ} {name : Option PersonaName} {out : BriefOutput} {slot : BriefSlot}
      (hout : node.brief crypto now briefSlots name = some out) (hslot : slot ∈ out.slots)
      (hpersona : slot.persona = persona) (hid : slot.itemId = edge.edgeId)
      (haction : slot.primaryAction = some action) : Advertised action

/-- The tool takes the arguments, with evidence for `done` and for nothing else. -/
def Succeeds : ActionArgs → Prop
  | .none => False
  | .confirm id decision => ∃ out, (node.confirm crypto now ⟨id, decision, none⟩).2 = .ok out
  | .act id act => ∀ evidenceHash : Option Sha256Hex, (evidenceHash ≠ none ↔ act = .done) →
      ∃ state, (node.act crypto now ⟨id, act, evidenceHash⟩).2 = .ok (.accepted state)

/-- The tools find the edge in this persona's part of the vault. -/
def Located : Prop :=
  ∃ kind, node.locate edge.edgeId = some (persona, kind) ∧ kind ≠ .pending

/-- The chain reads with the clock as it reads without. -/
structure SameReading : Prop where
  state : finalState crypto (partyLineage crypto s) (some now) edge (s.getAssertions edge.edgeId) =
    finalState crypto (partyLineage crypto s) none edge (s.getAssertions edge.edgeId)
  since : (verifyAssertionChain crypto (partyLineage crypto s) (some now) edge
      (s.getAssertions edge.edgeId)).deadlockedSince =
    (verifyAssertionChain crypto (partyLineage crypto s) none edge
      (s.getAssertions edge.edgeId)).deadlockedSince

def contextNow : ChainState :=
  context crypto (partyLineage crypto s) (some now) edge (s.getAssertions edge.edgeId)

/-- What the table asks of the persona, beyond what is asked before an act is advertised: the side
the act belongs to, at this instant, the window the table counts from, and no exit of the other's
that the act would contest. -/
def MaySign : Act → Prop
  | .confirm | .release => heldBy (partyLineage crypto s edge.owedTo) persona now = true
  | .done =>
    if (contextNow crypto now s edge).state = .pendingAcceptance then
      heldBy (partyLineage crypto s edge.owedTo) persona now = true ∨
        heldBy (partyLineage crypto s edge.owner) persona now = true ∧
          (contextNow crypto now s edge).windowOpenedAt.any (windowElapsed edge · now) = true
    else heldBy (partyLineage crypto s edge.owner) persona now = true
  | .expire =>
    (heldBy (partyLineage crypto s edge.owner) persona now = true ∨
      heldBy (partyLineage crypto s edge.owedTo) persona now = true) ∧
    ((contextNow crypto now s edge).state = .disputed → dueElapsed edge now = true ∨
      ∀ e, (contextNow crypto now s edge).exit = some e → e.signer ≠ persona →
        Date.parse e.instant < Date.parse now)
  | _ => True

end Statement

variable {crypto : Crypto} {now asOf clock : Rfc3339} {node : ServandaNode} {persona : PublicKeyHex}
  {s : Subtree} {edge : Edge} {action : ItemAction}

section Offers

/-- The acts with a tool that are offered in each state, and what is asked for each. -/
inductive Offered (role : ViewerRole) (edgeId : Sha256Hex) (windowElapsed disputeWindowElapsed
    dueElapsed : Bool) : EffectiveState → ItemAction → Prop
  | confirm (hrole : role = .owedTo) : Offered role edgeId windowElapsed disputeWindowElapsed
      dueElapsed .proposed (.bound .confirm (.confirm edgeId .confirm))
  | dismiss : Offered role edgeId windowElapsed disputeWindowElapsed dueElapsed .proposed
      (.bound .dismiss (.confirm edgeId .dismiss))
  | done (hrole : role = .owner) : Offered role edgeId windowElapsed disputeWindowElapsed
      dueElapsed .opened (.bound .done (.act edgeId .done))
  | release (hrole : role = .owedTo) : Offered role edgeId windowElapsed disputeWindowElapsed
      dueElapsed .opened (.bound .release (.act edgeId .release))
  | overdue (hdue : dueElapsed = true) : Offered role edgeId windowElapsed disputeWindowElapsed
      dueElapsed .opened (.bound .expire (.act edgeId .expire))
  | tacit (hrole : role = .owner) (hwindow : windowElapsed = true) : Offered role edgeId
      windowElapsed disputeWindowElapsed dueElapsed .pendingAcceptance
      (.bound .done (.act edgeId .done))
  | escape {state : EffectiveState} (hstate : state = .disputed ∨ state = .contestedClosure)
      (hwindow : disputeWindowElapsed = true) : Offered role edgeId windowElapsed
      disputeWindowElapsed dueElapsed state (.bound .expire (.act edgeId .expire))

theorem actionsFor_offered {state : EffectiveState} {role : ViewerRole} {edgeId : Sha256Hex}
    {window dispute due : Bool} (h : action ∈ actionsFor state role edgeId window dispute due)
    (htool : action.tool.isSome = true) :
    Offered role edgeId window dispute due state action := by
  unfold actionsFor at h
  by_cases hparty : role = .nonParty
  · rw [if_pos hparty] at h
    exact absurd h List.not_mem_nil
  rw [if_neg hparty] at h
  have howedTo (howner : role ≠ .owner) : role = .owedTo := by
    cases role with
    | owner => exact absurd rfl howner
    | owedTo => rfl
    | nonParty => exact absurd rfl hparty
  split at h
  · split_ifs at h with hrole <;> simp only [List.mem_cons, List.not_mem_nil, or_false] at h
    · subst h
      cases htool
    · rcases h with rfl | rfl
      · exact .confirm (howedTo hrole)
      · exact .dismiss
  · have hexpire (h : action ∈ if due = true then [ItemAction.bound .expire (.act edgeId .expire)]
        else []) : Offered role edgeId window dispute due .opened action := by
      split_ifs at h with hdue
      · obtain rfl := List.mem_singleton.mp h
        exact .overdue hdue
      · exact absurd h List.not_mem_nil
    dsimp only at h
    generalize (if due = true then [ItemAction.bound .expire (.act edgeId .expire)] else []) =
      expire at h hexpire
    split_ifs at h with hrole <;>
      simp only [List.mem_append, List.mem_cons, List.not_mem_nil, or_false] at h
    · rcases h with (rfl | h) | rfl | rfl
      · exact .done hrole
      · exact hexpire h
      · cases htool
      · cases htool
    · rcases h with (rfl | h) | rfl | rfl
      · exact .release (howedTo hrole)
      · exact hexpire h
      · cases htool
      · cases htool
  · split_ifs at h with hrole hwindow <;>
      simp only [List.mem_cons, List.not_mem_nil, or_false] at h
    · subst h
      cases htool
    · have howner : role = .owner := by
        cases role with
        | owner => rfl
        | owedTo => exact absurd rfl hrole
        | nonParty => exact absurd rfl hparty
      rcases h with rfl | rfl | rfl
      · exact .tacit howner hwindow
      · cases htool
      · cases htool
    · rcases h with rfl | rfl <;> cases htool
  · split_ifs at h with hwindow <;> simp only [List.mem_cons, List.not_mem_nil, or_false] at h
    · rcases h with rfl | rfl
      · exact .escape (.inl rfl) hwindow
      · cases htool
    · subst h
      cases htool
  · split_ifs at h with hwindow <;> simp only [List.mem_cons, List.not_mem_nil, or_false] at h
    · rcases h with rfl | rfl
      · exact .escape (.inr rfl) hwindow
      · cases htool
    · subst h
      cases htool
  · exact absurd h List.not_mem_nil

/-- The acts a read tool shows of an edge are those that its chain offers. -/
theorem Advertised.mem_edgeActions (h : Advertised crypto now node persona edge action)
    (htool : action.tool.isSome = true) (hedge : edge ∈ (node.vault persona).edges.values) :
    action ∈ node.edgeActions crypto persona edge now := by
  have hget : (node.vault persona).getEdge edge.edgeId = some edge :=
    Directory.get?_eq_some_iff.mpr ⟨hedge, rfl⟩
  cases h with
  | openLoops hitem hkind hid haction =>
    obtain ⟨other, hother, h⟩ | ⟨c, -, h⟩ | ⟨-, p, -, rfl⟩ | ⟨e, -, h⟩ := mem_itemsFor.mp hitem
    · obtain ⟨-, -, -, hid', hactions⟩ := edgeItem_spec h
      have hsame : (node.vault persona).getEdge edge.edgeId = some other :=
        Directory.get?_eq_some_iff.mpr ⟨hother, hid'.symm.trans hid⟩
      obtain rfl : edge = other := Option.some.inj (hget.symm.trans hsame)
      rwa [hactions] at haction
    · rw [(commitmentItem_spec h).2.1] at hkind
      cases hkind
    · cases hkind
    · rw [(expectationItem_spec h).1] at hkind
      cases hkind
  | @brief briefSlots name out slot hout hslot hpersona hid haction =>
    obtain ⟨keys, -, rfl⟩ := Option.map_eq_some_iff.mp hout
    obtain ⟨key, -, hkey⟩ := List.mem_filterMap.mp hslot
    unfold slotFor at hkey
    split at hkey
    · obtain ⟨other, hother, rfl⟩ := Option.map_eq_some_iff.mp hkey
      obtain rfl : key.persona = persona := hpersona
      obtain rfl : edge = other := by
        rw [show key.id = edge.edgeId from hid, hget] at hother
        exact Option.some.inj hother
      exact List.mem_of_find?_eq_some haction
    · obtain ⟨c, -, rfl⟩ := Option.map_eq_some_iff.mp hkey
      cases haction
      cases htool
    · obtain ⟨e, -, rfl⟩ := Option.map_eq_some_iff.mp hkey
      cases haction
      cases htool

end Offers

section Signing

variable {keyLineage : KeyLineage} {ctx : ChainState} {a : Assertion}

theorem ownVerdict_accepted_iff : (node.ownVerdict crypto now persona edge a).accepted = true ↔
    AcceptsLast crypto (partyLineage crypto (node.vault persona)) (some now) edge
      ((node.vault persona).getAssertions edge.edgeId) a := by
  obtain ⟨verdict, hverdict⟩ := @outcomes_last crypto (partyLineage crypto (node.vault persona))
    (some now) edge ((node.vault persona).getAssertions edge.edgeId) a
  simp [ownVerdict, AcceptsLast, AcceptedAt, hverdict]

theorem acceptsOwn_iff (hsigns : Signs crypto) (hedge : edgeMalformed crypto edge = none)
    (hdates : ∀ a ∈ s.getAssertions edge.edgeId, a.signer = persona →
      Date.parse a.assertedAt ≤ Date.parse now) {state : WireAssertionState}
    (hstate : state ≠ .opened) {evidenceHash : Option Sha256Hex}
    (ha : a = signAssertion crypto persona edge.edgeId state now evidenceHash) :
    AcceptsLast crypto (partyLineage crypto s) (some now) edge (s.getAssertions edge.edgeId) a ↔
      (heldBy (partyLineage crypto s edge.owner) persona now = true ∨
        heldBy (partyLineage crypto s edge.owedTo) persona now = true) ∧
      ∃ next, Row (partyLineage crypto s) (some now) edge (contextNow crypto now s edge) a next := by
  subst ha
  have hb : backdated (contextNow crypto now s edge)
      (signAssertion crypto persona edge.edgeId state now evidenceHash) = false := by
    rw [backdated, Option.any_eq_false]
    intro d hd
    obtain ⟨y, hy, hsigner, rfl⟩ := latestBySigner_mem hd
    exact decide_eq_false (not_lt.mpr (hdates y hy hsigner))
  rw [acceptsLast_iff]
  constructor
  · intro h
    obtain ⟨_, ctx, hj⟩ := h
    obtain ⟨-, hstand, next, hrow, -⟩ := judge_ok_iff.mp hj
    exact ⟨hstand.party, next, hrow⟩
  · intro h
    obtain ⟨hparty, next, hrow⟩ := h
    have hstand : Standing crypto (partyLineage crypto s) edge
        (signAssertion crypto persona edge.edgeId state now evidenceHash) :=
      ⟨rfl, hsigns ⟨edge.edgeId, state, now, persona, evidenceHash, 0⟩, hparty, hstate⟩
    exact ⟨hedge, _, judge_ok_iff.mpr ⟨hb, hstand, next, hrow, rfl⟩⟩

theorem row_iff_of_contests (hc : contests ctx a = true) :
    (∃ next, Row keyLineage (some now) edge ctx a next) ↔
      unilateralExitFault edge a (some now) (heldBy (keyLineage edge.owner) a.signer a.assertedAt)
        (heldBy (keyLineage edge.owedTo) a.signer a.assertedAt) = none := by
  constructor
  · intro ⟨next, hrow⟩
    cases hrow with
    | contest _ hf => exact hf
    | table hc' => exact absurd (hc.symm.trans hc') (by decide)
  · intro hf
    exact ⟨_, .contest hc hf⟩

theorem row_iff_of_uncontested (hc : contests ctx a = false) :
    (∃ next, Row keyLineage (some now) edge ctx a next) ↔
      ∃ next, (if ctx.state = .contestedClosure then contestedStep ctx a (some now)
        else tableStep edge ctx a (some now)
          (heldBy (keyLineage edge.owner) a.signer a.assertedAt)
          (heldBy (keyLineage edge.owedTo) a.signer a.assertedAt)) = .ok next := by
  constructor
  · intro ⟨next, hrow⟩
    cases hrow with
    | contest hc' => exact absurd (hc.symm.trans hc') (by decide)
    | table _ hrow => exact ⟨next, hrow.run.2⟩
  · intro ⟨next, hrun⟩
    refine ⟨next, .table hc ?_⟩
    split_ifs at hrun with hs
    · exact contestedStep_row hs hrun
    · exact tableStep_row hrun

theorem uncontested_of_unexited (h : ctx.exit = none) : contests ctx a = false := by
  simp [contests, h]

theorem row_confirmed_iff (hcoh : Coherent ctx) (hs : ctx.state = .proposed)
    (ha : a.state = .confirmed) : (∃ next, Row keyLineage (some now) edge ctx a next) ↔
      heldBy (keyLineage edge.owedTo) a.signer a.assertedAt = true := by
  rw [row_iff_of_uncontested (uncontested_of_unexited (hcoh.unexited (.inr (.inl hs))))]
  cases heldBy (keyLineage edge.owedTo) a.signer a.assertedAt <;> simp [hs, ha, tableStep]

theorem row_released_iff (hcoh : Coherent ctx) (hs : ctx.state = .opened)
    (ha : a.state = .released) : (∃ next, Row keyLineage (some now) edge ctx a next) ↔
      heldBy (keyLineage edge.owedTo) a.signer a.assertedAt = true := by
  rw [row_iff_of_uncontested (uncontested_of_unexited (hcoh.unexited (.inr (.inr hs))))]
  cases heldBy (keyLineage edge.owedTo) a.signer a.assertedAt <;> simp [hs, ha, tableStep]

theorem row_closed_iff (hcoh : Coherent ctx) (hs : ctx.state = .opened) (ha : a.state = .closed)
    (hevidence : a.evidenceHash ≠ none) : (∃ next, Row keyLineage (some now) edge ctx a next) ↔
      heldBy (keyLineage edge.owner) a.signer a.assertedAt = true := by
  rw [row_iff_of_uncontested (uncontested_of_unexited (hcoh.unexited (.inr (.inr hs))))]
  cases heldBy (keyLineage edge.owner) a.signer a.assertedAt with
  | false => simp [hs, ha, tableStep, closedStep]
  | true =>
    by_cases hpolicy : edge.closurePolicy = .onEvidence <;>
      simp [hs, ha, tableStep, closedStep, hevidence, hpolicy]

theorem row_overdue_iff (hcoh : Coherent ctx) (hs : ctx.state = .opened) (ha : a.state = .expired)
    (hat : a.assertedAt = now) (hdue : dueElapsed edge now = true) :
    ∃ next, Row keyLineage (some now) edge ctx a next := by
  rw [row_iff_of_uncontested (uncontested_of_unexited (hcoh.unexited (.inr (.inr hs))))]
  obtain ⟨due, hdue, hle⟩ := (Option.any_eq_true _ _).mp hdue
  have hle' : ¬Date.parse now < Date.parse due := by simpa using hle
  simp [hs, ha, hat, tableStep, expiredStep, hdue, hle', datedInTheFuture, expirySkewMs]

theorem row_tacit_iff (hcoh : Coherent ctx) (hs : ctx.state = .pendingAcceptance)
    (ha : a.state = .closed) : (∃ next, Row keyLineage (some now) edge ctx a next) ↔
      heldBy (keyLineage edge.owedTo) a.signer a.assertedAt = true ∨
        ctx.windowOpenedAt.any (windowElapsed edge · a.assertedAt) = true := by
  have hc : contests ctx a = false := by
    cases he : ctx.exit with
    | none => exact uncontested_of_unexited he
    | some e => simp [contests, he, ha, hcoh.closing (.inl hs) e he]
  rw [row_iff_of_uncontested hc]
  cases heldBy (keyLineage edge.owedTo) a.signer a.assertedAt with
  | true => simp [hs, ha, tableStep, closedStep]
  | false =>
    cases hopened : ctx.windowOpenedAt with
    | none => simp [hs, ha, tableStep, closedStep, hopened]
    | some openedAt =>
      cases hran : windowElapsed edge openedAt a.assertedAt <;>
        simp [hs, ha, tableStep, closedStep, hopened, hran]

theorem not_running_of_elapsed {since : Rfc3339} (hat : a.assertedAt = now)
    (h : reaches (Date.parse now) (addDuration (Date.parse since) disputeWindow) = true) :
    disputeWindowRunning since a = false := by
  obtain ⟨ends, hends, hle⟩ := (Option.any_eq_true _ _).mp h
  rw [decide_eq_true_eq] at hle
  rw [disputeWindowRunning, hends, hat]
  simpa [precedes] using hle

/-- Once the window of a deadlock has run, only an exit of the other's that an expiry now would
contest keeps it off, where the edge is not due either. -/
theorem row_escape_iff (hcoh : Coherent ctx)
    (hs : ctx.state = .disputed ∨ ctx.state = .contestedClosure) (ha : a.state = .expired)
    (hat : a.assertedAt = now) (hran : (deadlockedSince ctx).any (fun since ↦
      reaches (Date.parse now) (addDuration (Date.parse since) disputeWindow)) = true) :
    (∃ next, Row keyLineage (some now) edge ctx a next) ↔ (ctx.state = .disputed →
      dueElapsed edge now = true ∨ ∀ e, ctx.exit = some e → e.signer ≠ a.signer →
        Date.parse e.instant < Date.parse now) := by
  obtain ⟨since, hsince, hran⟩ := (Option.any_eq_true _ _).mp hran
  have hdone : disputeWindowRunning since a = false := not_running_of_elapsed hat hran
  have hfuture : datedInTheFuture (some now) a = false := by
    simp [datedInTheFuture, hat, expirySkewMs]
  rcases hs with hs | hs
  · have hat' : ctx.disputedAt = some since := by simpa [deadlockedSince, hs] using hsince
    have hcontest := Windows.contests_expired ha hs (hcoh.closing (.inr hs))
    rw [hat] at hcontest
    cases hc : contests ctx a with
    | true =>
      rw [row_iff_of_contests hc]
      have hlate : ¬∀ e, ctx.exit = some e → e.signer ≠ a.signer →
          Date.parse e.instant < Date.parse now := by
        rw [← hcontest, hc]
        decide
      simp only [hs, forall_true_left, or_iff_left hlate]
      cases hdue : edge.due with
      | none => simp [unilateralExitFault, ha, hdue, dueElapsed]
      | some due => simp [unilateralExitFault, ha, hat, hdue, dueElapsed, hfuture]
    | false =>
      rw [row_iff_of_uncontested hc]
      refine iff_of_true ?_ fun _ ↦ .inr (hcontest.mp hc)
      simp [hs, ha, tableStep, expiredStep, hat', hdone]
  · have hat' : ctx.contestedAt = some since := by simpa [deadlockedSince, hs] using hsince
    have hc : contests ctx a = false := by simp [contests, hs]
    rw [row_iff_of_uncontested hc]
    refine iff_of_true ?_ fun hd ↦ absurd (hs.symm.trans hd) (by decide)
    simp [hs, ha, contestedStep, hat', hdone, hfuture]

end Signing

section Calls

variable {kind : OrderingKind}

theorem confirm_succeeds_iff (hlocate : node.locate edge.edgeId = some (persona, kind))
    (hkind : kind ≠ .pending) (hget : (node.vault persona).getEdge edge.edgeId = some edge)
    (howner : edge.owner ≠ persona) (howedTo : edge.owedTo = persona) :
    Succeeds crypto now node (.confirm edge.edgeId .confirm) ↔
      AcceptsLast crypto (partyLineage crypto (node.vault persona)) (some now) edge
        ((node.vault persona).getAssertions edge.edgeId)
        (signAssertion crypto persona edge.edgeId .confirmed now none) := by
  have hconfirm : node.confirm crypto now ⟨edge.edgeId, .confirm, none⟩ =
      node.confirmEdge crypto now persona ⟨edge.edgeId, .confirm, none⟩ := by
    cases kind with
    | pending => exact absurd rfl hkind
    | commitment | edge | expectation => simp only [ServandaNode.confirm, hlocate]
  rw [← ownVerdict_accepted_iff, Succeeds, hconfirm]
  cases hverdict : (node.ownVerdict crypto now persona edge
      (signAssertion crypto persona edge.edgeId .confirmed now none)).accepted <;>
    simp [confirmEdge, hget, howner, howedTo, hverdict]

theorem dismiss_succeeds (hlocate : node.locate edge.edgeId = some (persona, kind))
    (hkind : kind ≠ .pending) (hget : (node.vault persona).getEdge edge.edgeId = some edge) :
    Succeeds crypto now node (.confirm edge.edgeId .dismiss) := by
  refine ⟨.dismissed, ?_⟩
  cases kind with
  | pending => exact absurd rfl hkind
  | commitment | edge | expectation => simp [ServandaNode.confirm, hlocate, confirmEdge, hget]

theorem act_succeeds_iff {act : Act} {P : Prop}
    (hlocate : node.locate edge.edgeId = some (persona, kind))
    (hget : (node.vault persona).getEdge edge.edgeId = some edge)
    (hrefusal : ∀ evidenceHash, (evidenceHash ≠ none ↔ act = .done) →
      node.actRefusal crypto persona edge ⟨edge.edgeId, act, evidenceHash⟩ = none)
    (hP : ∀ evidenceHash, (evidenceHash ≠ none ↔ act = .done) →
      (AcceptsLast crypto (partyLineage crypto (node.vault persona)) (some now) edge
        ((node.vault persona).getAssertions edge.edgeId)
        (signAssertion crypto persona edge.edgeId (asserts act) now evidenceHash) ↔ P)) :
    Succeeds crypto now node (.act edge.edgeId act) ↔ P := by
  have hcall (evidenceHash : Option Sha256Hex) (he : evidenceHash ≠ none ↔ act = .done) :
      (∃ state, (node.act crypto now ⟨edge.edgeId, act, evidenceHash⟩).2 =
        .ok (.accepted state)) ↔ P := by
    rw [← hP evidenceHash he, ← ownVerdict_accepted_iff]
    have hrefused := hrefusal evidenceHash he
    cases hverdict : (node.ownVerdict crypto now persona edge
        (signAssertion crypto persona edge.edgeId (asserts act) now evidenceHash)).accepted <;>
      simp [ServandaNode.act, hlocate, hget, hrefused, hverdict]
  constructor
  · intro h
    by_cases hdone : act = .done
    · have he : some edge.edgeId ≠ none ↔ act = .done := by simp [hdone]
      exact (hcall _ he).mp (h _ he)
    · have he : (none : Option Sha256Hex) ≠ none ↔ act = .done := by simp [hdone]
      exact (hcall _ he).mp (h _ he)
  · intro h evidenceHash he
    exact (hcall evidenceHash he).mpr h

/-- An act offered for an edge goes through exactly when the table asks nothing more of the persona
than it has. -/
theorem succeeds_iff (hsigns : Signs crypto) (hedge : edge ∈ (node.vault persona).edges.values)
    (hparty : isParty edge persona = true)
    (hdates : ∀ a ∈ (node.vault persona).getAssertions edge.edgeId, a.signer = persona →
      Date.parse a.assertedAt ≤ Date.parse now) (hlocated : Located node persona edge)
    (hsame : SameReading crypto now (node.vault persona) edge)
    (h : action ∈ node.edgeActions crypto persona edge now) (htool : action.tool.isSome = true) :
    Succeeds crypto now node action.args ↔
      MaySign crypto now persona (node.vault persona) edge action.act := by
  obtain ⟨kind, hlocate, hkind⟩ := hlocated
  have hget : (node.vault persona).getEdge edge.edgeId = some edge :=
    Directory.get?_eq_some_iff.mpr ⟨hedge, rfl⟩
  have hoffered := actionsFor_offered h htool
  have hstate : (node.edgeState crypto persona edge).finalState =
      finalState crypto (partyLineage crypto (node.vault persona)) (some now) edge
        ((node.vault persona).getAssertions edge.edgeId) := hsame.state.symm
  have hsince : (node.edgeState crypto persona edge).deadlockedSince =
      (verifyAssertionChain crypto (partyLineage crypto (node.vault persona)) (some now) edge
        ((node.vault persona).getAssertions edge.edgeId)).deadlockedSince := hsame.since.symm
  have hlive : (node.edgeState crypto persona edge).finalState ≠ .none := by
    intro hnone
    rw [hnone] at hoffered
    cases hoffered with
    | escape hstate => simp at hstate
  have hwf : edgeMalformed crypto edge = none := edgeMalformed_of_finalState (hstate ▸ hlive)
  rw [finalState_eq hwf] at hstate
  rw [deadlockedSince_eq hwf] at hsince
  have hcoh : Coherent (contextNow crypto now (node.vault persona) edge) := context_coherent _
  have hrefusal {act : Act} (htool : act.tool = some .act)
      (hrole : act = .expire ∨ persona = if act = .done then edge.owner else edge.owedTo)
      (hopen : act = .done → (node.edgeState crypto persona edge).finalState ≠ .disputed ∧
        (node.edgeState crypto persona edge).finalState ≠ .contestedClosure)
      (evidenceHash : Option Sha256Hex) (he : evidenceHash ≠ none ↔ act = .done) :
      node.actRefusal crypto persona edge ⟨edge.edgeId, act, evidenceHash⟩ = none := by
    have hstranger : ¬(edge.owner ≠ persona ∧ edge.owedTo ≠ persona) := by
      rcases isParty_iff.mp hparty with hside | hside <;> simp [hside]
    have hevidence (hact : act ≠ .done) : evidenceHash = none :=
      not_not.mp fun hne ↦ hact (he.mp hne)
    have hwrong : ¬(act ≠ .expire ∧ persona ≠ if act = .done then edge.owner else edge.owedTo) :=
      fun hwrong ↦ hrole.elim hwrong.1 hwrong.2
    have hexpire : ¬(act = .expire ∧ evidenceHash ≠ none) :=
      fun hexpire ↦ hexpire.2 (hevidence (by rw [hexpire.1]; decide))
    have hrelease : ¬(act = .release ∧ evidenceHash ≠ none) :=
      fun hrelease ↦ hrelease.2 (hevidence (by rw [hrelease.1]; decide))
    have hdone : ¬(act = .done ∧ ((node.edgeState crypto persona edge).finalState = .disputed ∨
        (node.edgeState crypto persona edge).finalState = .contestedClosure)) :=
      fun hdone ↦ hdone.2.elim (hopen hdone.1).1 (hopen hdone.1).2
    dsimp only [actRefusal]
    rw [if_neg hstranger, if_neg (not_not.mpr htool), if_neg hwrong, if_neg hexpire,
      if_neg hrelease, if_neg hdone]
  have howner (hrole : (if edge.owner = persona then ViewerRole.owner else .owedTo) = .owner) :
      edge.owner = persona := by
    by_contra hne
    simp [hne] at hrole
  have howedTo (hrole : (if edge.owner = persona then ViewerRole.owner else .owedTo) = .owedTo) :
      edge.owner ≠ persona ∧ edge.owedTo = persona := by
    have hne : edge.owner ≠ persona := by
      intro heq
      simp [heq] at hrole
    exact ⟨hne, (isParty_iff.mp hparty).resolve_left hne⟩
  generalize hs : (node.edgeState crypto persona edge).finalState = state at hoffered hstate hrefusal
  cases hoffered with
  | confirm hrole =>
    obtain ⟨hne, hpersona⟩ := howedTo hrole
    refine (confirm_succeeds_iff hlocate hkind hget hne hpersona).trans ?_
    rw [acceptsOwn_iff hsigns hwf hdates (by decide) rfl, row_confirmed_iff hcoh hstate.symm rfl]
    exact and_iff_right_of_imp .inr
  | dismiss => exact iff_of_true (dismiss_succeeds hlocate hkind hget) trivial
  | done hrole =>
    refine act_succeeds_iff hlocate hget
      (hrefusal rfl (.inr (howner hrole).symm) fun _ ↦ ⟨by decide, by decide⟩) fun e he ↦ ?_
    rw [acceptsOwn_iff hsigns hwf hdates (by decide) rfl,
      row_closed_iff hcoh hstate.symm rfl (he.mpr rfl)]
    simp only [ItemAction.bound, MaySign, contextNow, ← hstate, reduceCtorEq, if_false]
    exact and_iff_right_of_imp .inl
  | release hrole =>
    refine act_succeeds_iff hlocate hget
      (hrefusal rfl (.inr (howedTo hrole).2.symm) nofun) fun e he ↦ ?_
    rw [acceptsOwn_iff hsigns hwf hdates (by decide) rfl, row_released_iff hcoh hstate.symm rfl]
    exact and_iff_right_of_imp .inr
  | overdue hdue =>
    apply act_succeeds_iff hlocate hget (hrefusal rfl (.inl rfl) nofun)
    intro e he
    rw [acceptsOwn_iff hsigns hwf hdates (by decide) rfl]
    have hrow := @row_overdue_iff now edge (partyLineage crypto (node.vault persona)) _
      (signAssertion crypto persona edge.edgeId .expired now e) hcoh hstate.symm rfl rfl hdue
    exact and_congr_right fun _ ↦ iff_of_true hrow fun _ ↦ .inl hdue
  | tacit hrole hwindow =>
    refine act_succeeds_iff hlocate hget
      (hrefusal rfl (.inr (howner hrole).symm) fun _ ↦ ⟨by decide, by decide⟩) fun e he ↦ ?_
    rw [acceptsOwn_iff hsigns hwf hdates (by decide) rfl, row_tacit_iff hcoh hstate.symm rfl]
    have hnow : (contextNow crypto now (node.vault persona) edge).state = .pendingAcceptance :=
      hstate.symm
    simp only [ItemAction.bound, MaySign, hnow, if_true]
    constructor <;> tauto
  | escape hdead hwindow =>
    apply act_succeeds_iff hlocate hget (hrefusal rfl (.inl rfl) nofun)
    intro e he
    rw [disputeWindowElapsed, hsince] at hwindow
    rw [hstate] at hdead
    have hrow := @row_escape_iff now edge (partyLineage crypto (node.vault persona)) _
      (signAssertion crypto persona edge.edgeId .expired now e) hcoh hdead rfl rfl hwindow
    rw [acceptsOwn_iff hsigns hwf hdates (by decide) rfl]
    exact and_congr_right fun _ ↦ hrow

end Calls

section Replayed

variable {chain : List Assertion} {ctx : ChainState}

theorem exit_mem {keyLineage : KeyLineage} {clock : Option Rfc3339} {e : Exit}
    (h : (context crypto keyLineage clock edge chain).exit = some e) :
    ∃ y ∈ chain, y.signer = e.signer ∧ y.assertedAt = e.instant := by
  have hrun : ∀ e, (context crypto keyLineage clock edge chain).exit = some e →
      ∃ y ∈ Replay.accepted (judge crypto keyLineage clock edge) .start chain,
        y.signer = e.signer ∧ y.assertedAt = e.instant := by
    refine Replay.invariant (I := fun l (ctx : ChainState) ↦ ∀ e, ctx.exit = some e →
      ∃ y ∈ l, y.signer = e.signer ∧ y.assertedAt = e.instant) (fun e he ↦ ?_) ?_ chain
    · cases he
    intro l ctx a ctx' ih hj e he
    obtain ⟨-, -, next, hrow, rfl⟩ := judge_ok_iff.mp hj
    have hsame : next.exit = ctx.exit ∨ ∃ state, next.exit = some ⟨state, a.signer, a.assertedAt⟩ := by
      cases hrow with
      | contest => exact .inl rfl
      | table _ hrow =>
        cases hrow with
        | evidenceCloses | evidenceOpensWindow | released | expired => exact .inr ⟨_, rfl⟩
        | _ => exact .inl rfl
    rcases hsame with hsame | ⟨state, hsame⟩
    · obtain ⟨y, hy, hr⟩ := ih e (hsame ▸ he)
      exact ⟨y, List.mem_append_left _ hy, hr⟩
    · obtain rfl : _ = e := Option.some.inj (hsame.symm.trans he)
      exact ⟨a, by simp, rfl, rfl⟩
  obtain ⟨y, hy, hr⟩ := hrun e h
  exact ⟨y, (Replay.accepted_sublist _ _).subset hy, hr⟩

/-- What a chain that is accepted throughout says of its closures: none before an exit, and in
`pending-acceptance` the owner's first is the one that opened the window. -/
structure Opening (edge : Edge) (chain : List Assertion) (ctx : ChainState) : Prop where
  before : ctx.state = .none ∨ ctx.state = .proposed ∨ ctx.state = .opened →
    ∀ a ∈ chain, a.state ≠ .closed
  first : ctx.state = .pendingAcceptance →
    (chain.find? fun a ↦ a.state == .closed && a.signer == edge.owner).map Assertion.assertedAt =
      ctx.windowOpenedAt

theorem Opening.judge {a : Assertion} {ctx' : ChainState} (h : Opening edge chain ctx)
    (hj : judge crypto noRotations (some now) edge ctx a = .ok ctx') :
    Opening edge (chain ++ [a]) ctx' := by
  obtain ⟨-, -, next, hrow, rfl⟩ := judge_ok_iff.mp hj
  have hgrow (hearly : ctx.state = .none ∨ ctx.state = .proposed ∨ ctx.state = .opened)
      (ha : a.state ≠ .closed) : ∀ y ∈ chain ++ [a], y.state ≠ .closed := by
    intro y hy
    rcases List.mem_append.mp hy with hy | hy
    · exact h.before hearly y hy
    · rwa [List.mem_singleton.mp hy]
  cases hrow with
  | contest => constructor <;> simp [record, contest]
  | table hc hrow =>
    cases hrow with
    | proposed ha hs ho => exact ⟨fun _ ↦ hgrow (.inl hs) (by simp [ha]), by simp [record]⟩
    | confirmed ha hs hw => exact ⟨fun _ ↦ hgrow (.inr (.inl hs)) (by simp [ha]), by simp [record]⟩
    | evidenceOpensWindow ha hs ho he hp =>
      refine ⟨by simp [record], fun _ ↦ ?_⟩
      have hnone : (chain.find? fun a ↦ a.state == .closed && a.signer == edge.owner) = none := by
        rw [List.find?_eq_none]
        intro y hy
        simp [h.before (.inr (.inr hs)) y hy]
      simp [record, hnone, ha, heldBy_noRotations.mp ho]
    | supersededHalf ha hs hn hcard =>
      refine ⟨fun hearly ↦ hgrow hearly (by simp [ha]), fun hpending ↦ ?_⟩
      rcases hs with hs | hs <;> exact absurd (hs.symm.trans hpending) (by decide)
    | disputeClosedHalf ha hs | contestedClosedHalf ha hs | contestedSupersededHalf ha hs =>
      constructor <;> simp [record, hs]
    | _ => constructor <;> simp [record, resolve]

theorem opening_of_path (h : Replay.Path (judge crypto noRotations (some now) edge) .start chain ctx) :
    Opening edge chain ctx := by
  have hrun : Opening edge
      (Replay.accepted (judge crypto noRotations (some now) edge) .start chain)
      (Replay.final (judge crypto noRotations (some now) edge) .start chain) :=
    Replay.invariant ⟨fun _ _ ha ↦ absurd ha List.not_mem_nil, nofun⟩
      (fun _ _ _ _ ih hj ↦ ih.judge hj) chain
  rwa [h.accepted_eq, h.final_eq] at hrun

end Replayed

section Orderly

variable (hkept : Kept crypto now (node.vault persona)) (hroom : Room (node.vault persona) fun _ ↦ 0)
  (hedge : edge ∈ (node.vault persona).edges.values)

include hkept hroom hedge

theorem contextNow_eq : contextNow crypto now (node.vault persona) edge =
    context crypto noRotations none edge ((node.vault persona).files edge.edgeId) := by
  rw [contextNow, hkept.lineage, hroom.getAssertions]
  exact (judge_filters.path (hkept.accepted edge hedge)).final_eq.symm

theorem sameReading_of_kept : SameReading crypto now (node.vault persona) edge := by
  have hwf := hkept.wellFormed edge hedge
  have hctx := contextNow_eq hkept hroom hedge
  rw [contextNow, hkept.lineage, hroom.getAssertions] at hctx
  constructor
  · rw [finalState_eq hwf, finalState_eq hwf, hkept.lineage, hroom.getAssertions, hctx]
  · rw [deadlockedSince_eq hwf, deadlockedSince_eq hwf, hkept.lineage, hroom.getAssertions, hctx]

/-- In a store that replays in full, the table asks nothing more of an act that is offered when the
other party's assertions lie in the past. -/
theorem maySign_of_kept (hparty : isParty edge persona = true)
    (hpast : ∀ a ∈ (node.vault persona).getAssertions edge.edgeId, a.signer ≠ persona →
      Date.parse a.assertedAt < Date.parse now)
    (h : action ∈ node.edgeActions crypto persona edge now) (htool : action.tool.isSome = true) :
    MaySign crypto now persona (node.vault persona) edge action.act := by
  have hoffered := actionsFor_offered h htool
  have hctx := contextNow_eq hkept hroom hedge
  have hstate : (node.edgeState crypto persona edge).finalState =
      (contextNow crypto now (node.vault persona) edge).state := by
    rw [hctx, edgeState, hkept.lineage, hroom.getAssertions]
    exact finalState_eq (hkept.wellFormed edge hedge) _
  have howner (hrole : (if edge.owner = persona then ViewerRole.owner else .owedTo) = .owner) :
      edge.owner = persona := by
    by_contra hne
    simp [hne] at hrole
  have howedTo (hrole : (if edge.owner = persona then ViewerRole.owner else .owedTo) = .owedTo) :
      edge.owedTo = persona := by
    refine (isParty_iff.mp hparty).resolve_left fun heq ↦ ?_
    simp [heq] at hrole
  have hheld {party : PublicKeyHex} (h : party = persona) :
      heldBy (partyLineage crypto (node.vault persona) party) persona now = true := by
    rw [hkept.lineage]
    exact heldBy_noRotations.mpr h.symm
  have hside := (isParty_iff.mp hparty).imp hheld hheld
  generalize hs : (node.edgeState crypto persona edge).finalState = state at hoffered hstate
  cases hoffered with
  | confirm hrole => exact hheld (howedTo hrole)
  | dismiss => trivial
  | done hrole =>
    simp only [ItemAction.bound, MaySign, ← hstate, reduceCtorEq, if_false]
    exact hheld (howner hrole)
  | release hrole => exact hheld (howedTo hrole)
  | overdue hdue => exact ⟨hside, fun _ ↦ .inl hdue⟩
  | tacit hrole hwindow =>
    simp only [ItemAction.bound, MaySign, ← hstate, if_true]
    have hnow : contextNow crypto now (node.vault persona) edge =
        context crypto noRotations (some now) edge ((node.vault persona).files edge.edgeId) := by
      rw [contextNow, hkept.lineage, hroom.getAssertions]
    have hopening := opening_of_path (hkept.accepted edge hedge)
    rw [← hnow] at hopening
    simp only [acceptanceWindowElapsed, Bool.and_eq_true, beq_iff_eq, hroom.getAssertions] at hwindow
    obtain ⟨window, hwindow, hran⟩ := (Option.any_eq_true _ _).mp hwindow.2
    obtain ⟨opening, hfirst, hran⟩ := (Option.any_eq_true _ _).mp hran
    have hopened := hopening.first hstate.symm
    rw [hfirst, Option.map_some] at hopened
    refine .inr ⟨hheld (howner hrole), ?_⟩
    rw [← hopened, Option.any_some, windowElapsed, hwindow]
    exact hran
  | escape hdead hwindow =>
    refine ⟨hside, fun _ ↦ .inr fun e he hother ↦ ?_⟩
    obtain ⟨y, hy, hsigner, hinstant⟩ := exit_mem he
    rw [← hinstant]
    exact hpast y hy (hsigner ▸ hother)

end Orderly

/-- What the read tools advertise is signable as far as the table allows it; where no rotation came
in and the other party's assertions lie in the past, all of it is. -/
theorem advertised_signable (hsigns : Signs crypto) (now : Rfc3339) (persona : PublicKeyHex)
    (edge : Edge) :
    (∀ node : ServandaNode, edge ∈ (node.vault persona).edges.values → isParty edge persona = true →
      (∀ a ∈ (node.vault persona).getAssertions edge.edgeId, a.signer = persona →
        Date.parse a.assertedAt ≤ Date.parse now) →
      Located node persona edge → SameReading crypto now (node.vault persona) edge →
      ∀ action, Advertised crypto now node persona edge action → action.tool.isSome = true →
        (Succeeds crypto now node action.args ↔
          MaySign crypto now persona (node.vault persona) edge action.act)) ∧
    ∀ clock sys, Reached crypto (Orderly crypto) clock sys → Date.parse clock ≤ Date.parse now →
      edge ∈ (sys.node.vault persona).edges.values → isParty edge persona = true →
      (∀ a ∈ (sys.node.vault persona).getAssertions edge.edgeId, a.signer = persona →
        Date.parse a.assertedAt ≤ Date.parse now) →
      Located sys.node persona edge →
      (∀ a ∈ (sys.node.vault persona).getAssertions edge.edgeId, a.signer ≠ persona →
        Date.parse a.assertedAt < Date.parse now) →
      ∀ action, Advertised crypto now sys.node persona edge action → action.tool.isSome = true →
        Succeeds crypto now sys.node action.args := by
  constructor
  · intro node hedge hparty hdates hlocated hsame action h htool
    exact succeeds_iff hsigns hedge hparty hdates hlocated hsame (h.mem_edgeActions htool hedge) htool
  · intro clock sys hreached hclock hedge hparty hdates hlocated hpast action h htool
    have hstored := reached_stored hsigns hreached persona
    have hkept := hstored.kept.later hclock
    have haction := h.mem_edgeActions htool hedge
    have hsame := sameReading_of_kept hkept hstored.room hedge
    rw [succeeds_iff hsigns hedge hparty hdates hlocated hsame haction htool]
    exact maySign_of_kept hkept hstored.room hedge hparty hpast haction htool

section Rotated

open Sample

def confirmCall : ActionArgs := .confirm Sample.edge.edgeId .confirm

theorem proposal_confirmable : Succeeds Sample.crypto (date 3 1 10)
    (creditorNode.perform Sample.crypto (date 3 1 9) firstProposal).node confirmCall := by
  have hsigns : Signs Sample.crypto := fun _ ↦ rfl
  have hstart : Reached Sample.crypto (Orderly Sample.crypto) (date 3 1 9) creditorNode :=
    .start fun _ ↦ rfl
  obtain ⟨item, hitem, hkind, hid, haction⟩ : ∃ item ∈
      (creditorNode.perform Sample.crypto (date 3 1 9) firstProposal).node.itemsFor Sample.crypto
        (date 3 1 10) creditorKey .pending (date 3 1 10),
      item.kind = .edge ∧ item.id = Sample.edge.edgeId ∧
        ItemAction.bound .confirm confirmCall ∈ item.actions := by decide +kernel
  exact (advertised_signable hsigns (date 3 1 10) creditorKey Sample.edge).2 _ _
    (hstart.perform le_rfl firstProposal_orderly) (by decide +kernel) (by decide +kernel)
    (by decide +kernel) (by decide +kernel) ⟨.edge, by decide +kernel, by decide⟩
    (by decide +kernel) _ (.openLoops hitem hkind hid haction) rfl

def creditorRotation : Rotation := rotate creditorKey nextKey (date 3 4 0)
  0x4887e45c6e4a62e2e44208404103f04b781175d1591ff659c51c5d11d6665f7baab91c87cc0ada159c599bc1da10552d538bc08b3f2d7f863f14c8aaa6f52004

/-- The creditor confirms a promise, and its key is replaced by another. -/
def rotatedPromise : System :=
  ((creditorNode.perform Sample.crypto (date 3 1 9) firstProposal).perform Sample.crypto (date 3 1 10)
    (.confirm ⟨Sample.edge.edgeId, .confirm, none⟩)).perform Sample.crypto (date 3 4 0)
      (.ingest creditorKey 0 [.message ⟨.rotation (some creditorRotation), creditorKey, creditorKey,
        date 3 4 0,
        0xa8e63e77a56160da9fd201a029ccc1b9b9f787add343e496209e02a68e7c024d2ff02607a96e364deabb76754e9fd3244c888659c64115330cef646c7a169f07⟩])

/-- A release is advertised to a key that has been replaced, and refused. -/
theorem replaced_key_refused : ¬∀ clock sys, Reached Sample.crypto (fun _ _ _ ↦ True) clock sys →
    ∀ now persona edge, edge ∈ (sys.node.vault persona).edges.values →
      isParty edge persona = true →
      (∀ a ∈ (sys.node.vault persona).getAssertions edge.edgeId, a.signer = persona →
        Date.parse a.assertedAt ≤ Date.parse now) →
      ∀ action, Advertised Sample.crypto now sys.node persona edge action →
        action.tool.isSome = true → Succeeds Sample.crypto now sys.node action.args := by
  intro h
  have hstart : Reached Sample.crypto (fun _ _ _ ↦ True) (date 3 1 9) creditorNode :=
    .start fun _ ↦ rfl
  have hreached : Reached Sample.crypto (fun _ _ _ ↦ True) (date 3 4 0) rotatedPromise :=
    ((hstart.perform le_rfl trivial).perform (by decide +kernel) trivial).perform (by decide +kernel)
      trivial
  obtain ⟨item, hitem, hkind, hid, haction⟩ : ∃ item ∈ rotatedPromise.node.itemsFor Sample.crypto
      (date 3 5 10) creditorKey .waiting (date 3 5 10),
      item.kind = .edge ∧ item.id = Sample.edge.edgeId ∧
        ItemAction.bound .release (.act Sample.edge.edgeId .release) ∈ item.actions := by
    decide +kernel
  obtain ⟨state, hstate⟩ := h _ _ hreached (date 3 5 10) creditorKey Sample.edge (by decide +kernel)
    (by decide +kernel) (by decide +kernel) _ (.openLoops hitem hkind hid haction) rfl none
    (by decide)
  have hrefused : (rotatedPromise.node.act Sample.crypto (date 3 5 10)
      ⟨Sample.edge.edgeId, .release, none⟩).2 = .ok (.refused .notAParty) := by decide +kernel
  rw [hrefused] at hstate
  cases hstate

end Rotated

end Servanda.Affordances
