import Servanda.Transitions

namespace Servanda.Transitions

/-- The rows of the transition table, each with everything it asks for and the context it leaves.
`o` and `w` say whether the signer holds the owner's and the creditor's side. -/
inductive TableRow (edge : Edge) (now : Option Rfc3339) (o w : Bool) (ctx : ChainState)
    (a : Assertion) : ChainState → Prop
  | proposed (ha : a.state = .proposed) (hs : ctx.state = .none) (ho : o = true) :
      TableRow edge now o w ctx a { ctx with state := .proposed }
  | confirmed (ha : a.state = .confirmed) (hs : ctx.state = .proposed) (hw : w = true) :
      TableRow edge now o w ctx a { ctx with state := .opened }
  | evidenceCloses (ha : a.state = .closed) (hs : ctx.state = .opened) (ho : o = true)
      (he : a.evidenceHash ≠ none) (hp : edge.closurePolicy = .onEvidence) :
      TableRow edge now o w ctx a
        (resolve { ctx with exit := some ⟨.closed, a.signer, a.assertedAt⟩ } a .closed)
  | evidenceOpensWindow (ha : a.state = .closed) (hs : ctx.state = .opened) (ho : o = true)
      (he : a.evidenceHash ≠ none) (hp : edge.closurePolicy = .onAcceptance) :
      TableRow edge now o w ctx a
        { ctx with
          exit := some ⟨.closed, a.signer, a.assertedAt⟩
          state := .pendingAcceptance
          windowOpenedAt := some a.assertedAt }
  | accepted (ha : a.state = .closed) (hs : ctx.state = .pendingAcceptance) (hw : w = true) :
      TableRow edge now o w ctx a (resolve ctx a .closed)
  | tacit {openedAt : Rfc3339} (ha : a.state = .closed) (hs : ctx.state = .pendingAcceptance)
      (hw : w = false) (ht : ctx.windowOpenedAt = some openedAt)
      (he : windowElapsed edge openedAt a.assertedAt = true) :
      TableRow edge now o w ctx a (resolve ctx a .closed)
  | disputeClosedHalf (ha : a.state = .closed) (hs : ctx.state = .disputed)
      (hn : a.signer ∉ ctx.disputeClosedBy)
      (hc : (insert a.signer ctx.disputeClosedBy).card ≠ 2) :
      TableRow edge now o w ctx a
        { ctx with disputeClosedBy := insert a.signer ctx.disputeClosedBy }
  | disputeClosed (ha : a.state = .closed) (hs : ctx.state = .disputed)
      (hn : a.signer ∉ ctx.disputeClosedBy)
      (hc : (insert a.signer ctx.disputeClosedBy).card = 2) :
      TableRow edge now o w ctx a
        (resolve { ctx with disputeClosedBy := insert a.signer ctx.disputeClosedBy } a .closed)
  | released (ha : a.state = .released) (hs : ctx.state = .opened) (hw : w = true) :
      TableRow edge now o w ctx a
        (resolve { ctx with exit := some ⟨.released, a.signer, a.assertedAt⟩ } a .released)
  | disputeExpired {disputedAt : Rfc3339} (ha : a.state = .expired) (hs : ctx.state = .disputed)
      (ht : ctx.disputedAt = some disputedAt) (he : disputeWindowRunning disputedAt a = false) :
      TableRow edge now o w ctx a (resolve ctx a .expired)
  | expired {due : Rfc3339} (ha : a.state = .expired) (hs : ctx.state = .opened)
      (hd : edge.due = some due) (ht : Date.parse due ≤ Date.parse a.assertedAt)
      (hf : datedInTheFuture now a = false) :
      TableRow edge now o w ctx a
        (resolve { ctx with exit := some ⟨.expired, a.signer, a.assertedAt⟩ } a .expired)
  | disputed (ha : a.state = .disputed) (hs : ctx.state ∈ disputableFrom)
      (he : a.evidenceHash ≠ none) :
      TableRow edge now o w ctx a
        { ctx with state := .disputed, disputedAt := some a.assertedAt }
  | supersededHalf (ha : a.state = .superseded) (hs : ctx.state = .opened ∨ ctx.state = .disputed)
      (hn : a.signer ∉ ctx.supersededBy) (hc : (insert a.signer ctx.supersededBy).card ≠ 2) :
      TableRow edge now o w ctx a { ctx with supersededBy := insert a.signer ctx.supersededBy }
  | superseded (ha : a.state = .superseded) (hs : ctx.state = .opened ∨ ctx.state = .disputed)
      (hn : a.signer ∉ ctx.supersededBy) (hc : (insert a.signer ctx.supersededBy).card = 2) :
      TableRow edge now o w ctx a
        (resolve { ctx with supersededBy := insert a.signer ctx.supersededBy } a .superseded)
  | contestedClosedHalf (ha : a.state = .closed) (hs : ctx.state = .contestedClosure)
      (hn : a.signer ∉ ctx.contestClosedBy)
      (hc : (insert a.signer ctx.contestClosedBy).card ≠ 2) :
      TableRow edge now o w ctx a
        { ctx with contestClosedBy := insert a.signer ctx.contestClosedBy }
  | contestedClosed (ha : a.state = .closed) (hs : ctx.state = .contestedClosure)
      (hn : a.signer ∉ ctx.contestClosedBy)
      (hc : (insert a.signer ctx.contestClosedBy).card = 2) :
      TableRow edge now o w ctx a
        (resolve { ctx with contestClosedBy := insert a.signer ctx.contestClosedBy } a .closed)
  | contestedSupersededHalf (ha : a.state = .superseded) (hs : ctx.state = .contestedClosure)
      (hn : a.signer ∉ ctx.contestSupersededBy)
      (hc : (insert a.signer ctx.contestSupersededBy).card ≠ 2) :
      TableRow edge now o w ctx a
        { ctx with contestSupersededBy := insert a.signer ctx.contestSupersededBy }
  | contestedSuperseded (ha : a.state = .superseded) (hs : ctx.state = .contestedClosure)
      (hn : a.signer ∉ ctx.contestSupersededBy)
      (hc : (insert a.signer ctx.contestSupersededBy).card = 2) :
      TableRow edge now o w ctx a
        (resolve { ctx with contestSupersededBy := insert a.signer ctx.contestSupersededBy } a
          .superseded)
  | contestedExpired {contestedAt : Rfc3339} (ha : a.state = .expired)
      (hs : ctx.state = .contestedClosure) (ht : ctx.contestedAt = some contestedAt)
      (he : disputeWindowRunning contestedAt a = false) (hf : datedInTheFuture now a = false) :
      TableRow edge now o w ctx a (resolve ctx a .expired)

variable {edge : Edge} {now : Option Rfc3339} {o w : Bool} {ctx ctx' : ChainState} {a : Assertion}

theorem contestedStep_row (hs : ctx.state = .contestedClosure)
    (h : contestedStep ctx a now = .ok ctx') : TableRow edge now o w ctx a ctx' := by
  unfold contestedStep at h
  dsimp only at h
  split at h
  next ha =>
    split_ifs at h with hn hc <;> cases h
    · exact .contestedClosed ha hs hn hc
    · exact .contestedClosedHalf ha hs hn hc
  next ha =>
    split_ifs at h with hn hc <;> cases h
    · exact .contestedSuperseded ha hs hn hc
    · exact .contestedSupersededHalf ha hs hn hc
  next ha =>
    split at h
    · cases h
    next ht =>
      split_ifs at h with he hf
      cases h
      exact .contestedExpired ha hs ht (by simpa using he) (by simpa using hf)
  · cases h

theorem closedStep_row (ha : a.state = .closed) (h : closedStep edge ctx a o w = .ok ctx') :
    TableRow edge now o w ctx a ctx' := by
  unfold closedStep at h
  dsimp only at h
  split at h
  next hs =>
    split_ifs at h with ho he hp <;> cases h
    · exact .evidenceCloses ha hs (by simpa using ho) he hp
    · refine .evidenceOpensWindow ha hs (by simpa using ho) he ?_
      cases hq : edge.closurePolicy with
      | onEvidence => exact absurd hq hp
      | onAcceptance => rfl
  next hs =>
    split_ifs at h with hw
    · cases h
      exact .accepted ha hs hw
    · split at h
      · cases h
      next ht =>
        split_ifs at h with he
        cases h
        exact .tacit ha hs (by simpa using hw) ht (by simpa using he)
  next hs =>
    split_ifs at h with hn hc <;> cases h
    · exact .disputeClosed ha hs hn hc
    · exact .disputeClosedHalf ha hs hn hc
  · cases h

theorem expiredStep_row (ha : a.state = .expired) (h : expiredStep edge ctx a now = .ok ctx') :
    TableRow edge now o w ctx a ctx' := by
  unfold expiredStep at h
  split at h
  next hs =>
    split at h
    · cases h
    next ht =>
      split_ifs at h with he
      cases h
      exact .disputeExpired ha hs ht (by simpa using he)
  next hs =>
    split at h
    · cases h
    next hd =>
      split_ifs at h with ht hf
      cases h
      exact .expired ha hs hd (not_lt.mp ht) (by simpa using hf)
  · cases h

theorem tableStep_row (h : tableStep edge ctx a now o w = .ok ctx') :
    TableRow edge now o w ctx a ctx' := by
  unfold tableStep at h
  dsimp only at h
  split at h
  next ha =>
    split_ifs at h with hs ho
    cases h
    exact .proposed ha (not_not.mp hs) (by simpa using ho)
  next ha =>
    split_ifs at h with hs hw
    cases h
    exact .confirmed ha (not_not.mp hs) (by simpa using hw)
  next ha => exact closedStep_row ha h
  next ha =>
    split_ifs at h with hs hw
    cases h
    exact .released ha (not_not.mp hs) (by simpa using hw)
  next ha => exact expiredStep_row ha h
  next ha =>
    split_ifs at h with hs he
    cases h
    exact .disputed ha (by simpa using hs) he
  next ha =>
    have hs' (hs : ¬(ctx.state ≠ .opened ∧ ctx.state ≠ .disputed)) :
        ctx.state = .opened ∨ ctx.state = .disputed := by
      rwa [not_and_or, not_not, not_not] at hs
    split_ifs at h with hs hn hc <;> cases h
    · exact .superseded ha (hs' hs) hn hc
    · exact .supersededHalf ha (hs' hs) hn hc
  · cases h

/-- Every row is taken from a live state, and by the part of the table its state selects. -/
theorem TableRow.run (h : TableRow edge now o w ctx a ctx') :
    terminalStates.contains ctx.state = false ∧
      (if ctx.state = .contestedClosure then contestedStep ctx a now
        else tableStep edge ctx a now o w) = .ok ctx' := by
  cases h with
  | proposed ha hs ho => simp [tableStep, ha, hs, ho, terminalStates]
  | confirmed ha hs hw => simp [tableStep, ha, hs, hw, terminalStates]
  | evidenceCloses ha hs ho he hp =>
    simp [tableStep, closedStep, ha, hs, ho, he, hp, terminalStates]
  | evidenceOpensWindow ha hs ho he hp =>
    simp [tableStep, closedStep, ha, hs, ho, he, hp, terminalStates]
  | accepted ha hs hw => simp [tableStep, closedStep, ha, hs, hw, terminalStates]
  | tacit ha hs hw ht he => simp [tableStep, closedStep, ha, hs, hw, ht, he, terminalStates]
  | disputeClosedHalf ha hs hn hc =>
    simp [tableStep, closedStep, ha, hs, hn, hc, terminalStates,
      -Finset.card_insert_of_notMem]
  | disputeClosed ha hs hn hc => simp [tableStep, closedStep, ha, hs, hn, hc, terminalStates,
      -Finset.card_insert_of_notMem]
  | released ha hs hw => simp [tableStep, ha, hs, hw, terminalStates]
  | disputeExpired ha hs ht he => simp [tableStep, expiredStep, ha, hs, ht, he, terminalStates]
  | expired ha hs hd ht hf =>
    simp [tableStep, expiredStep, ha, hs, hd, hf, not_lt.mpr ht, terminalStates]
  | disputed ha hs he =>
    have hs' : ctx.state = .opened ∨ ctx.state = .pendingAcceptance := by
      simpa [disputableFrom] using hs
    rcases hs' with hs' | hs' <;> simp [tableStep, ha, he, hs', disputableFrom, terminalStates]
  | supersededHalf ha hs hn hc =>
    rcases hs with hs | hs <;> simp [tableStep, ha, hs, hn, hc, terminalStates,
      -Finset.card_insert_of_notMem]
  | superseded ha hs hn hc =>
    rcases hs with hs | hs <;> simp [tableStep, ha, hs, hn, hc, terminalStates,
      -Finset.card_insert_of_notMem]
  | contestedClosedHalf ha hs hn hc => simp [contestedStep, ha, hs, hn, hc, terminalStates,
      -Finset.card_insert_of_notMem]
  | contestedClosed ha hs hn hc => simp [contestedStep, ha, hs, hn, hc, terminalStates,
      -Finset.card_insert_of_notMem]
  | contestedSupersededHalf ha hs hn hc => simp [contestedStep, ha, hs, hn, hc, terminalStates,
      -Finset.card_insert_of_notMem]
  | contestedSuperseded ha hs hn hc => simp [contestedStep, ha, hs, hn, hc, terminalStates,
      -Finset.card_insert_of_notMem]
  | contestedExpired ha hs ht he hf => simp [contestedStep, ha, hs, ht, he, hf, terminalStates]

theorem TableRow.source (h : TableRow edge now o w ctx a ctx') :
    (a.state = .proposed ↔ ctx.state = .none) ∧ (a.state = .confirmed ↔ ctx.state = .proposed) := by
  cases h with
  | disputed ha hs =>
    have hs : ctx.state = .opened ∨ ctx.state = .pendingAcceptance := by
      simpa [disputableFrom] using hs
    rcases hs with hs | hs <;> simp [ha, hs]
  | supersededHalf ha hs | superseded ha hs => rcases hs with hs | hs <;> simp [ha, hs]
  | _ => simp [*]

theorem entry_of_heldBy {lineage : List PartyKey} {signer : PublicKeyHex} {instant : Rfc3339}
    (h : heldBy lineage signer instant = true) :
    ∃ e ∈ lineage, e.key = signer ∧ ∀ d ∈ e.supersededAt, Date.parse instant < Date.parse d := by
  unfold heldBy at h
  cases hfind : lineage.find? fun k ↦ k.key = signer with
  | none => simp [hfind] at h
  | some e =>
    have hkey : e.key = signer := by simpa using List.find?_some hfind
    refine ⟨e, List.mem_of_find?_eq_some hfind, hkey, fun d hd ↦ ?_⟩
    simpa [hfind, Option.mem_def.mp hd] using h

theorem heldBy_noRotations {party signer : PublicKeyHex} {instant : Rfc3339} :
    heldBy (noRotations party) signer instant = true ↔ signer = party := by
  by_cases h : party = signer <;> simp [heldBy, noRotations, h, eq_comm]

structure Standing (crypto : Crypto) (keyLineage : KeyLineage) (edge : Edge) (a : Assertion) :
    Prop where
  aboutEdge : a.edgeId = edge.edgeId
  signed : crypto.verifyObject (.assertion a) a.signer = true
  party : heldBy (keyLineage edge.owner) a.signer a.assertedAt = true ∨
    heldBy (keyLineage edge.owedTo) a.signer a.assertedAt = true
  assertable : a.state ≠ .opened

/-- An accepted assertion: a contest of the recorded exit, or a row of the table. -/
inductive Row (keyLineage : KeyLineage) (now : Option Rfc3339) (edge : Edge) (ctx : ChainState)
    (a : Assertion) : ChainState → Prop
  | contest (hc : contests ctx a = true)
      (hf : unilateralExitFault edge a now (heldBy (keyLineage edge.owner) a.signer a.assertedAt)
        (heldBy (keyLineage edge.owedTo) a.signer a.assertedAt) = none) :
      Row keyLineage now edge ctx a (contest ctx a)
  | table {ctx' : ChainState} (hc : contests ctx a = false)
      (h : TableRow edge now (heldBy (keyLineage edge.owner) a.signer a.assertedAt)
        (heldBy (keyLineage edge.owedTo) a.signer a.assertedAt) ctx a ctx') :
      Row keyLineage now edge ctx a ctx'

variable {crypto : Crypto} {keyLineage : KeyLineage}

theorem step_ok_iff : step crypto keyLineage now edge ctx a = .ok ctx' ↔
    Standing crypto keyLineage edge a ∧ Row keyLineage now edge ctx a ctx' := by
  constructor
  · intro h
    unfold step at h
    dsimp only at h
    split_ifs at h with hid hsig hparty hopen hc hterm hcontested
    · split at h
      · cases h
      next hf =>
        cases h
        exact ⟨⟨not_not.mp hid, by simpa using hsig, by
          simpa [or_iff_not_imp_left] using hparty, by simpa [nonAssertableStates] using hopen⟩,
          .contest hc hf⟩
    · exact ⟨⟨not_not.mp hid, by simpa using hsig, by
        simpa [or_iff_not_imp_left] using hparty, by simpa [nonAssertableStates] using hopen⟩,
        .table (by simpa using hc) (contestedStep_row hcontested h)⟩
    · exact ⟨⟨not_not.mp hid, by simpa using hsig, by
        simpa [or_iff_not_imp_left] using hparty, by simpa [nonAssertableStates] using hopen⟩,
        .table (by simpa using hc) (tableStep_row h)⟩
  · intro ⟨⟨hid, hsig, hparty, hopen⟩, hrow⟩
    have hparty' : (!heldBy (keyLineage edge.owner) a.signer a.assertedAt &&
        !heldBy (keyLineage edge.owedTo) a.signer a.assertedAt) = false := by
      rcases hparty with h | h <;> simp [h]
    have hopen' : nonAssertableStates.contains a.state = false := by
      simpa [nonAssertableStates] using hopen
    cases hrow with
    | contest hc hf =>
      simp only [step, hid, hsig, hparty', hopen', hc, hf, ne_eq, not_true_eq_false,
        Bool.not_true, Bool.false_eq_true, if_false, if_true]
    | table hc h =>
      obtain ⟨hterm, hrun⟩ := h.run
      simpa only [step, hid, hsig, hparty', hopen', hc, hterm, ne_eq, not_true_eq_false,
        Bool.not_true, Bool.false_eq_true, if_false] using hrun

theorem judge_ok_iff : judge crypto keyLineage now edge ctx a = .ok ctx' ↔
    backdated ctx a = false ∧ Standing crypto keyLineage edge a ∧
      ∃ next, Row keyLineage now edge ctx a next ∧ ctx' = record next a := by
  unfold judge
  cases hb : backdated ctx a with
  | true => simp
  | false =>
    simp only [Bool.false_eq_true, if_false, true_and]
    constructor
    · intro h
      cases hs : step crypto keyLineage now edge ctx a with
      | error e => simp [hs, Except.map] at h
      | ok next =>
        simp only [hs, Except.map, Except.ok.injEq] at h
        obtain ⟨hstand, hrow⟩ := step_ok_iff.mp hs
        exact ⟨hstand, next, hrow, h.symm⟩
    · rintro ⟨hstand, next, hrow, rfl⟩
      rw [step_ok_iff.mpr ⟨hstand, hrow⟩]
      rfl

end Servanda.Transitions
