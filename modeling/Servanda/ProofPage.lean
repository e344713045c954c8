import Servanda.Chains
import Servanda.Recon
import Servanda.View

/-!
The proof page: what a certificate says of an edge, read off the steps of its chain, and when that
is what the transition table says of it.
-/

namespace Servanda

namespace ProofPage

open Transitions Recon View

structure ProofPartyRecord where
  key : PublicKeyHex
  display : Option Text
  verificationLevel : VerificationLevel

structure ProofStepRecord where
  state : WireAssertionState
  assertedAt : Rfc3339
  signer : PublicKeyHex
  evidenceHash : Option Sha256Hex

structure WordsDisclosure where
  byOwner : Bool
  byOwedTo : Bool

def wordsWithheld : WordsDisclosure := ⟨false, false⟩

inductive ProofViewer
  | owner | owedTo | stranger
  deriving DecidableEq, Repr

structure ProofRecord where
  edgeId : Sha256Hex
  commitmentHash : Sha256Hex
  proposedAt : Rfc3339
  due : Option Rfc3339
  owner : ProofPartyRecord
  owedTo : ProofPartyRecord
  chain : List ProofStepRecord
  plaintext : Option Text
  disclosure : Option WordsDisclosure
  viewer : Option ProofViewer

structure ProofPartyView where
  role : Text
  party : PartyView
  key : PublicKeyHex

structure ProofStepView where
  label : Text
  when : Rfc3339
  signedBy : Text
  mark : SealView
  evidence : Option Text

structure ProofDateView where
  label : Text
  value : Rfc3339
  deriving DecidableEq

/-- The one control of the page: a party's own consent to show the words. -/
structure ConsentAction where
  id : Text
  label : Text
  primary : Bool
  viewer : ProofViewer

structure ProofView where
  heading : Text
  lede : Text
  outcome : Text
  betweenHeading : Text
  parties : List ProofPartyView
  datesHeading : Text
  dates : List ProofDateView
  chainHeading : Text
  chain : List ProofStepView
  fingerprintHeading : Text
  fingerprint : Sha256Hex
  fingerprintNote : Text
  wordsHeading : Text
  words : Option Text
  wordsNote : Text
  actions : List ConsentAction

namespace Copy

def outcomeKept : Text := text "Made, and kept."
def outcomeReleased : Text := text "Made, and let go by agreement."
def outcomeDisputed : Text := text "Made, and disagreed about."
def outcomeReplaced : Text := text "Made, and replaced by a newer promise."
def outcomeOpen : Text := text "Made, and still under way."
def promised : Text := text "Promised"
def agreed : Text := text "Agreed"
def due : Text := text "Due"
def settled : Text := text "Settled"
def roleOwner : Text := text "Promised by"
def roleOwedTo : Text := text "Promised to"

def chainLabel : WireAssertionState → Text
  | .proposed => text "Sent for agreement"
  | .confirmed => text "Agreed by both"
  | .opened => text "Under way"
  | .closed => text "Delivered and accepted"
  | .released => text "Let go by agreement"
  | .expired => text "The time ran out"
  | .disputed => text "Disagreed"
  | .superseded => text "Replaced by a newer promise"

end Copy

def outcomeByState : WireAssertionState → Option Text
  | .closed => some Copy.outcomeKept
  | .expired => some Copy.outcomeOpen
  | .released => some Copy.outcomeReleased
  | .disputed => some Copy.outcomeDisputed
  | .superseded => some Copy.outcomeReplaced
  | _ => none

inductive ProofError
  | partyWithoutKey
  deriving DecidableEq, Repr

def partyView (role : Text) (record : ProofPartyRecord) : Except ProofError ProofPartyView :=
  let named := record.display.bind (partyFor · .attested record.verificationLevel)
  match named.or (partyFor (hexId record.key).val .selfLabelled record.verificationLevel) with
  | none => .error .partyWithoutKey
  | some party => .ok ⟨role, party, record.key⟩

def datesFor (record : ProofRecord) : List ProofDateView :=
  let agreed := record.chain.find? (·.state = .confirmed)
  let settled := record.chain.reverse.find? fun step ↦ (outcomeByState step.state).isSome
  ⟨Copy.promised, record.proposedAt⟩ ::
    (agreed.map fun step ↦ ⟨Copy.agreed, step.assertedAt⟩).toList ++
    (record.due.map fun due ↦ ⟨Copy.due, due⟩).toList ++
    (settled.map fun step ↦ ⟨Copy.settled, step.assertedAt⟩).toList

def stepView (step : ProofStepRecord) : ProofStepView where
  label := Copy.chainLabel step.state
  when := step.assertedAt
  signedBy := text "Signed by " ++ shortKey (hexId step.signer).val
  mark := sealFor step.state
  evidence := step.evidenceHash.map fun hash ↦ shortKey (hexId hash).val

/-- Has the reader, where the reader is a party, agreed to show the words? -/
def consented (disclosure : WordsDisclosure) : ProofViewer → Bool
  | .owner => disclosure.byOwner
  | .owedTo => disclosure.byOwedTo
  | .stranger => false

def consentActions (record : ProofRecord) : List ConsentAction :=
  let viewer := record.viewer.getD .stranger
  if viewer = .stranger then []
  else if record.plaintext.isNone then []
  else if consented (record.disclosure.getD wordsWithheld) viewer then []
  else
    [⟨(hexId record.edgeId).val ++ text ":show-words", text "Agree to show the words", true, viewer⟩]

def wordsNote (record : ProofRecord) (shown : Bool) : Text :=
  if shown then text "Both people agreed to show the words."
  else if record.plaintext.isNone then
    text
      "The words are no longer kept. That the promise was made, and what became of it, remains."
  else if consented (record.disclosure.getD wordsWithheld) (record.viewer.getD .stranger) then
    text "You agreed. Waiting for the other person."
  else text "The words are not shown. Both people have to agree before they are."

def buildProof (record : ProofRecord) : Except ProofError ProofView := do
  let disclosure := record.disclosure.getD wordsWithheld
  let words := if disclosure.byOwner && disclosure.byOwedTo then record.plaintext else none
  let owner ← partyView Copy.roleOwner record.owner
  let owedTo ← partyView Copy.roleOwedTo record.owedTo
  pure {
    heading := text "A promise, on the record"
    lede := text
      "Two people agreed to something and each signed their half. Anyone with this link can check it."
    outcome := match record.chain.getLast? with
      | none => Copy.outcomeOpen
      | some last => (outcomeByState last.state).getD Copy.outcomeOpen
    betweenHeading := text "Between"
    parties := [owner, owedTo]
    datesHeading := text "Dates"
    dates := datesFor record
    chainHeading := text "What happened, in order"
    chain := record.chain.map stepView
    fingerprintHeading := text "Fingerprint"
    fingerprint := record.commitmentHash
    fingerprintNote := text
      "The same promise always produces this fingerprint, and nothing else produces it."
    wordsHeading := text "What was promised"
    words := words
    wordsNote := wordsNote record words.isSome
    actions := consentActions record }

theorem partyView_ok (role : Text) (record : ProofPartyRecord) :
    ∃ view, partyView role record = .ok view := by
  unfold partyView
  simp only
  split
  next h =>
    exact absurd (Option.or_eq_none_iff.mp h).2 (partyFor_hexId _ _ _)
  next party => exact ⟨_, rfl⟩

theorem buildProof_ok (record : ProofRecord) : ∃ view, buildProof record = .ok view ∧
    view.dates = datesFor record ∧
    view.outcome = (record.chain.getLast?.bind (outcomeByState ·.state)).getD Copy.outcomeOpen := by
  obtain ⟨owner, howner⟩ := partyView_ok Copy.roleOwner record.owner
  obtain ⟨owedTo, howedTo⟩ := partyView_ok Copy.roleOwedTo record.owedTo
  refine ⟨_, by rw [buildProof, howner, howedTo]; rfl, rfl, ?_⟩
  cases record.chain.getLast? <;> rfl

section

variable (crypto : Crypto) (keyLineage : KeyLineage) (now : Option Rfc3339) (edge : Edge)

/-- The assertions of a chain the verifier accepts, in order. -/
def acceptedOf (chain : List Assertion) : List Assertion :=
  keptOf (chain.zip (verifyAssertionChain crypto keyLineage now edge chain).outcomes)

def stepRecord (a : Assertion) : ProofStepRecord :=
  ⟨a.state, a.assertedAt, a.signer, a.evidenceHash⟩

/-- The assertion at which the edge took the state it ends in, and has kept since. -/
def BroughtInto (chain : List Assertion) (a : Assertion) : Prop :=
  ∃ before after, chain = before ++ a :: after ∧
    finalState crypto keyLineage now edge before ≠ finalState crypto keyLineage now edge chain ∧
    ∀ r, r <+: after → finalState crypto keyLineage now edge (before ++ a :: r) =
      finalState crypto keyLineage now edge chain

/-- The certificate says of an edge what the table says of its chain. -/
structure Agrees (chain : List Assertion) (view : ProofView) : Prop where
  kept : view.outcome = Copy.outcomeKept ↔ finalState crypto keyLineage now edge chain = .closed
  released : view.outcome = Copy.outcomeReleased ↔
    finalState crypto keyLineage now edge chain = .released
  disputed : view.outcome = Copy.outcomeDisputed ↔
    finalState crypto keyLineage now edge chain = .disputed
  replaced : view.outcome = Copy.outcomeReplaced ↔
    finalState crypto keyLineage now edge chain = .superseded
  underWay : finalState crypto keyLineage now edge chain ∉
    [EffectiveState.closed, .released, .disputed, .superseded] → view.outcome = Copy.outcomeOpen
  settled : (∃ date ∈ view.dates, date.label = Copy.settled) ↔
    finalState crypto keyLineage now edge chain ∈ terminalStates ∨
      finalState crypto keyLineage now edge chain = .disputed
  date : ∀ date ∈ view.dates, date.label = Copy.settled → ∃ a,
    BroughtInto crypto keyLineage now edge (acceptedOf crypto keyLineage now edge chain) a ∧
      date.value = a.assertedAt

end

/-- What an assertion says the edge now is. -/
def reached : WireAssertionState → EffectiveState
  | .proposed => .proposed
  | .confirmed | .opened => .opened
  | .closed => .closed
  | .released => .released
  | .expired => .expired
  | .disputed => .disputed
  | .superseded => .superseded

/-- Does an accepted assertion leave the edge short of what it says? It contests an exit, or closes
a promise its creditor has yet to accept, or is the first half of what takes both. -/
def fallsShort (edge : Edge) (ctx : ChainState) (a : Assertion) : Bool :=
  contests ctx a ||
    match a.state, ctx.state with
    | .closed, .opened => edge.closurePolicy = .onAcceptance
    | .closed, .disputed => (insert a.signer ctx.disputeClosedBy).card ≠ 2
    | .closed, .contestedClosure => (insert a.signer ctx.contestClosedBy).card ≠ 2
    | .superseded, .contestedClosure => (insert a.signer ctx.contestSupersededBy).card ≠ 2
    | .superseded, _ => (insert a.signer ctx.supersededBy).card ≠ 2
    | _, _ => false

variable {crypto : Crypto} {keyLineage : KeyLineage} {now : Option Rfc3339} {edge : Edge}
  {ctx next : ChainState} {a : Assertion}

theorem tableRow_moves {o w : Bool} (hc : contests ctx a = false)
    (h : TableRow edge now o w ctx a next) :
    (next.state = reached a.state ↔ fallsShort edge ctx a = false) ∧
      (next.state = reached a.state → ctx.state ≠ next.state) := by
  cases h with
  | proposed ha hs ho => simp [fallsShort, reached, ha, hs, hc]
  | confirmed ha hs hw => simp [fallsShort, reached, ha, hs, hc]
  | evidenceCloses ha hs ho he hp => simp [fallsShort, reached, resolve, ha, hs, hc, hp]
  | evidenceOpensWindow ha hs ho he hp => simp [fallsShort, reached, ha, hs, hc, hp]
  | accepted ha hs hw | tacit ha hs hw ht he | released ha hs hw | disputeExpired ha hs ht he
  | expired ha hs hd ht hf | contestedExpired ha hs ht he hf =>
    simp [fallsShort, reached, resolve, ha, hs, hc]
  | disputeClosedHalf ha hs hn hcard | disputeClosed ha hs hn hcard
  | contestedClosedHalf ha hs hn hcard | contestedClosed ha hs hn hcard
  | contestedSupersededHalf ha hs hn hcard | contestedSuperseded ha hs hn hcard =>
    simp [fallsShort, reached, resolve, ha, hs, hc, hcard, -Finset.card_insert_of_notMem]
  | disputed ha hs he =>
    have hs' : ctx.state = .opened ∨ ctx.state = .pendingAcceptance := by
      simpa [disputableFrom] using hs
    rcases hs' with hs' | hs' <;> simp [fallsShort, reached, ha, hs', hc]
  | supersededHalf ha hs hn hcard | superseded ha hs hn hcard =>
    rcases hs with hs | hs <;>
      simp [fallsShort, reached, resolve, ha, hs, hc, hcard, -Finset.card_insert_of_notMem]

theorem row_moves (h : Row keyLineage now edge ctx a next) :
    (next.state = reached a.state ↔ fallsShort edge ctx a = false) ∧
      (next.state = reached a.state → ctx.state ≠ next.state) := by
  cases h with
  | contest hc hf =>
    have hreached : reached a.state ≠ .contestedClosure := by cases a.state <;> decide
    simp [fallsShort, hc, contest, hreached.symm]
  | table hc h => exact tableRow_moves hc h

theorem judge_early (h : judge crypto keyLineage now edge ctx a = .ok next) :
    next.state ≠ .none ∧ (next.state = .proposed → ctx.state = .none ∧ a.state = .proposed) := by
  obtain ⟨-, -, row, hrow, rfl⟩ := judge_ok_iff.mp h
  cases hrow with
  | contest => simp [record, contest]
  | table _ hrow =>
    cases hrow with
    | supersededHalf ha hs => rcases hs with hs | hs <;> simp [record, hs]
    | _ => simp [record, resolve, *]

/-- Before it is proposed an edge has no chain, and before it is confirmed nothing but proposals. -/
structure Early (l : List Assertion) (ctx : ChainState) : Prop where
  unproposed : ctx.state = .none → l = []
  unconfirmed : ctx.state = .proposed → ∀ b ∈ l, b.state = .proposed

theorem accepted_early (chain : List Assertion) :
    Early (Replay.accepted (judge crypto keyLineage now edge) .start chain)
      (context crypto keyLineage now edge chain) := by
  apply Replay.invariant (I := Early) ⟨fun _ ↦ rfl, fun _ ↦ List.forall_mem_nil _⟩
  intro l ctx a next hearly hj
  obtain ⟨hne, hproposed⟩ := judge_early hj
  refine ⟨fun hs ↦ absurd hs hne, fun hs b hb ↦ ?_⟩
  obtain ⟨hctx, ha⟩ := hproposed hs
  rw [hearly.unproposed hctx, List.nil_append, List.mem_singleton] at hb
  rw [hb, ha]

theorem acceptedOf_eq (h : edgeMalformed crypto edge = none) (chain : List Assertion) :
    acceptedOf crypto keyLineage now edge chain =
      Replay.accepted (judge crypto keyLineage now edge) .start chain := by
  simp only [acceptedOf, verifyAssertionChain, h]
  exact keptOf_verdicts _ _ _ id

theorem acceptedOf_malformed {reason : RejectionReason} (h : edgeMalformed crypto edge = some reason)
    (chain : List Assertion) : acceptedOf crypto keyLineage now edge chain = [] := by
  rw [acceptedOf, keptOf, List.map_eq_nil_iff, List.filter_eq_nil_iff]
  intro v hv
  have hmem := (List.of_mem_zip hv).2
  simp only [verifyAssertionChain, h] at hmem
  obtain ⟨i, hi, hv⟩ := List.mem_mapIdx.mp hmem
  simp [← hv, outcome]

theorem settled_date {record : ProofRecord} {date : ProofDateView} :
    date ∈ datesFor record ∧ date.label = Copy.settled ↔
      ∃ step, record.chain.reverse.find? (fun step ↦ (outcomeByState step.state).isSome) = some step ∧
        date = ⟨Copy.settled, step.assertedAt⟩ := by
  have hpromised : Copy.promised ≠ Copy.settled := by decide
  have hagreed : Copy.agreed ≠ Copy.settled := by decide
  have hdue : Copy.due ≠ Copy.settled := by decide
  constructor
  · intro h
    obtain ⟨hmem, hlabel⟩ := h
    simp only [datesFor, List.cons_append, List.append_assoc, List.mem_cons, List.mem_append,
      Option.mem_toList, Option.map_eq_some_iff] at hmem
    rcases hmem with rfl | ⟨step, -, rfl⟩ | ⟨due, -, rfl⟩ | ⟨step, hstep, rfl⟩
    · exact absurd hlabel hpromised
    · exact absurd hlabel hagreed
    · exact absurd hlabel hdue
    · exact ⟨step, hstep, rfl⟩
  · intro h
    obtain ⟨step, hstep, hdate⟩ := h
    refine ⟨?_, by rw [hdate]⟩
    simp [datesFor, hstep, hdate]

theorem contests_exit (h : contests ctx a = true) : (outcomeByState a.state).isSome = true := by
  simp only [contests, Option.any_eq_true_iff_get, Bool.and_eq_true] at h
  obtain ⟨-, ⟨⟨⟨-, hexit⟩, -⟩, -⟩, -⟩ := h
  revert hexit
  cases a.state <;> decide

theorem fallsShort_opening (h : outcomeByState a.state = none) : fallsShort edge ctx a = false := by
  have hc : contests ctx a = false := by
    rw [← Bool.not_eq_true]
    intro hc
    simpa [h] using contests_exit hc
  cases hs : a.state <;> simp [hs, outcomeByState] at h <;> simp [fallsShort, hc, hs]

theorem row_early (h : Row keyLineage now edge ctx a next) (ho : outcomeByState a.state = none) :
    ctx.state = .none ∨ ctx.state = .proposed := by
  cases h with
  | contest hc hf => simpa [ho] using contests_exit hc
  | table hc h =>
    cases hs : a.state <;> simp only [hs, outcomeByState, reduceCtorEq] at ho
    · exact .inl (h.source.1.mp hs)
    · exact .inr (h.source.2.mp hs)
    · cases h <;> simp_all

/-- The step whose date the page calls the settled one. -/
theorem settled_step {l : List Assertion} {record : ProofRecord}
    (hrow : Row keyLineage now edge ctx a next) (hearly : Early l ctx)
    (h : record.chain = (l ++ [a]).map stepRecord) :
    record.chain.reverse.find? (fun step ↦ (outcomeByState step.state).isSome) =
      if (outcomeByState a.state).isSome then some (stepRecord a) else none := by
  rw [h]
  simp only [List.map_append, List.map_cons, List.map_nil, List.reverse_append, List.reverse_cons,
    List.reverse_nil, List.nil_append, List.cons_append, List.find?_cons, stepRecord]
  cases ho : outcomeByState a.state with
  | some outcome => rfl
  | none =>
    have hearlier : ∀ b ∈ l, b.state = .proposed := by
      rcases row_early hrow ho with hs | hs
      · rw [hearly.unproposed hs]
        exact List.forall_mem_nil _
      · exact hearly.unconfirmed hs
    simp only [Option.isSome_none, Bool.false_eq_true, if_false, List.find?_eq_none]
    intro step hstep
    obtain ⟨b, hb, rfl⟩ := List.mem_map.mp (List.mem_reverse.mp hstep)
    simp [hearlier b hb, outcomeByState, stepRecord]

theorem finalState_acceptedOf (chain : List Assertion) :
    finalState crypto keyLineage now edge (acceptedOf crypto keyLineage now edge chain) =
      finalState crypto keyLineage now edge chain := by
  cases hm : edgeMalformed crypto edge with
  | some reason => rw [finalState_malformed hm, finalState_malformed hm]
  | none =>
    rw [finalState_eq hm, finalState_eq hm, acceptedOf_eq hm, context, context,
      (Replay.path_accepted _ _).final_eq]

/-- The last accepted assertion is a row of the table, from the state its predecessors reach. -/
theorem acceptedOf_last {chain before : List Assertion}
    (h : acceptedOf crypto keyLineage now edge chain = before ++ [a]) :
    ∃ row, Row keyLineage now edge (context crypto keyLineage now edge before) a row ∧
      Early before (context crypto keyLineage now edge before) ∧
      finalState crypto keyLineage now edge before =
        (context crypto keyLineage now edge before).state ∧
      finalState crypto keyLineage now edge chain = row.state := by
  cases hm : edgeMalformed crypto edge with
  | some reason => simp [acceptedOf_malformed hm] at h
  | none =>
    have hpath : Replay.Path (judge crypto keyLineage now edge) .start _ _ :=
      Replay.path_accepted ChainState.start chain
    rw [← acceptedOf_eq hm, h] at hpath
    obtain ⟨ctx, hbefore, hlast⟩ := hpath.split
    have hctx : context crypto keyLineage now edge before = ctx := hbefore.final_eq
    have hearly := @accepted_early crypto keyLineage now edge before
    rw [hbefore.accepted_eq] at hearly
    rw [finalState_eq hm, finalState_eq hm]
    cases hlast with
    | cons hj hnil =>
      obtain ⟨-, -, row, hrow, hnext⟩ := judge_ok_iff.mp hj
      refine ⟨row, hctx ▸ hrow, hearly, rfl, ?_⟩
      cases hnil
      simp only [context] at *
      rw [hnext, record]

theorem finalState_nil : finalState crypto keyLineage now edge [] = .none := by
  cases hm : edgeMalformed crypto edge with
  | some reason => exact finalState_malformed hm []
  | none => rw [finalState_eq hm]; rfl

theorem agrees_empty {chain : List Assertion} {view : ProofView}
    (houtcome : view.outcome = Copy.outcomeOpen)
    (hdate : ∀ date ∈ view.dates, date.label ≠ Copy.settled)
    (hfinal : finalState crypto keyLineage now edge chain = .none) :
    Agrees crypto keyLineage now edge chain view := by
  constructor
  all_goals try rw [houtcome]
  all_goals try rw [hfinal]
  · decide
  · decide
  · decide
  · decide
  · exact fun _ ↦ rfl
  · refine ⟨fun ⟨date, hmem, hlabel⟩ ↦ absurd hlabel (hdate date hmem), fun h ↦ ?_⟩
    simp [terminalStates] at h
  · exact fun date hmem hlabel ↦ absurd hlabel (hdate date hmem)

/-- What the page says of an edge, by what its last accepted assertion says. -/
theorem agrees_of_reached {chain : List Assertion} {view : ProofView}
    (houtcome : view.outcome = (outcomeByState a.state).getD Copy.outcomeOpen)
    (hsettled : (∃ date ∈ view.dates, date.label = Copy.settled) ↔
      (outcomeByState a.state).isSome = true)
    (hdate : ∀ date ∈ view.dates, date.label = Copy.settled → ∃ b,
      BroughtInto crypto keyLineage now edge (acceptedOf crypto keyLineage now edge chain) b ∧
        date.value = b.assertedAt)
    (hfinal : finalState crypto keyLineage now edge chain = reached a.state) :
    Agrees crypto keyLineage now edge chain view := by
  have hsettled' : (outcomeByState a.state).isSome = true ↔
      reached a.state ∈ terminalStates ∨ reached a.state = .disputed := by
    cases a.state <;> decide
  constructor
  all_goals try rw [houtcome]
  all_goals try rw [hfinal]
  · cases a.state <;> decide
  · cases a.state <;> decide
  · cases a.state <;> decide
  · cases a.state <;> decide
  · cases a.state <;> decide
  · rw [hsettled, hsettled']
  · exact hdate

theorem Agrees.reached {chain : List Assertion} {view : ProofView}
    (h : Agrees crypto keyLineage now edge chain view)
    (houtcome : view.outcome = (outcomeByState a.state).getD Copy.outcomeOpen)
    (hsettled : (∃ date ∈ view.dates, date.label = Copy.settled) ↔
      (outcomeByState a.state).isSome = true) (ho : (outcomeByState a.state).isSome = true) :
    finalState crypto keyLineage now edge chain = reached a.state := by
  have hterminal := h.settled.mp (hsettled.mpr ho)
  cases hs : a.state <;> rw [hs] at houtcome ho
  case closed => exact h.kept.mp houtcome
  case released => exact h.released.mp houtcome
  case disputed => exact h.disputed.mp houtcome
  case superseded => exact h.replaced.mp houtcome
  case expired =>
    have hkept := mt h.kept.mpr (by rw [houtcome]; decide)
    have hreleased := mt h.released.mpr (by rw [houtcome]; decide)
    have hdisputed := mt h.disputed.mpr (by rw [houtcome]; decide)
    have hreplaced := mt h.replaced.mpr (by rw [houtcome]; decide)
    have hexpired : finalState crypto keyLineage now edge chain = .expired := by
      simpa [terminalStates, hkept, hreleased, hdisputed, hreplaced] using hterminal
    exact hexpired
  all_goals cases ho

theorem certificate_agrees_iff (chain : List Assertion) (record : ProofRecord)
    (hchain : record.chain = (acceptedOf crypto keyLineage now edge chain).map stepRecord) :
    (∃ view, buildProof record = .ok view ∧ Agrees crypto keyLineage now edge chain view) ↔
      ∀ before a, acceptedOf crypto keyLineage now edge chain = before ++ [a] →
        fallsShort edge (context crypto keyLineage now edge before) a = false := by
  obtain ⟨view, hview, hdates, houtcome⟩ := buildProof_ok record
  have hpage : (∃ view, buildProof record = .ok view ∧
      Agrees crypto keyLineage now edge chain view) ↔
      Agrees crypto keyLineage now edge chain view := by
    simp [hview]
  rw [hpage]
  rcases List.eq_nil_or_concat (acceptedOf crypto keyLineage now edge chain) with hnil | ⟨p, a, hl⟩
  · rw [hnil]
    have hlast : record.chain = [] := by simp [hchain, hnil]
    refine ⟨fun _ before a h ↦ by simp at h, fun _ ↦ ?_⟩
    apply agrees_empty
    · simp [houtcome, hlast]
    · intro date hdate hlabel
      rw [hdates] at hdate
      simpa [hlast] using settled_date.mp ⟨hdate, hlabel⟩
    · rw [← finalState_acceptedOf, hnil]
      exact finalState_nil
  · rw [List.concat_eq_append] at hl
    obtain ⟨row, hrow, hearly, hbefore, hfinal⟩ := acceptedOf_last hl
    obtain ⟨hshort, hmoves⟩ := row_moves hrow
    have hlast : view.outcome = (outcomeByState a.state).getD Copy.outcomeOpen := by
      simp [houtcome, hchain, hl, stepRecord]
    have hstep := settled_step hrow hearly (hl ▸ hchain)
    have hsettled : (∃ date ∈ view.dates, date.label = Copy.settled) ↔
        (outcomeByState a.state).isSome = true := by
      simp only [hdates, settled_date, hstep]
      split <;> simp [*]
    have hcond : (∀ before b, acceptedOf crypto keyLineage now edge chain = before ++ [b] →
        fallsShort edge (context crypto keyLineage now edge before) b = false) ↔
        fallsShort edge (context crypto keyLineage now edge p) a = false := by
      rw [hl]
      refine ⟨fun h ↦ h p a rfl, fun h before b heq ↦ ?_⟩
      obtain ⟨rfl, hb⟩ := List.append_inj' heq rfl
      rwa [← List.singleton_inj.mp hb]
    rw [hcond, ← hshort, ← hfinal]
    constructor
    · intro h
      by_cases ho : (outcomeByState a.state).isSome = true
      · exact h.reached hlast hsettled ho
      · rw [Option.not_isSome_iff_eq_none] at ho
        rw [hfinal]
        exact hshort.mpr (fallsShort_opening ho)
    · intro h
      apply agrees_of_reached hlast hsettled _ h
      intro date hmem hlabel
      rw [hdates] at hmem
      obtain ⟨step, hsome, rfl⟩ := settled_date.mp ⟨hmem, hlabel⟩
      rw [hstep] at hsome
      split at hsome
      · refine ⟨a, ⟨p, [], hl, ?_, ?_⟩, ?_⟩
        · rw [hbefore, finalState_acceptedOf, hfinal]
          exact hmoves (hfinal ▸ h)
        · intro r hr
          rw [List.prefix_nil.mp hr, hl]
        · cases hsome
          rfl
      · cases hsome

end ProofPage

namespace Sample

open Transitions ProofPage

def deliveredChain : List Assertion := [proposal, confirmation, closure]

def certificate (chain : List Assertion) : ProofRecord where
  edgeId := edge.edgeId
  commitmentHash := edge.commitmentHash
  proposedAt := edge.proposedAt
  due := edge.due
  owner := ⟨edge.owner, none, .zero⟩
  owedTo := ⟨edge.owedTo, none, .zero⟩
  chain := chain.map stepRecord
  plaintext := none
  disclosure := none
  viewer := none

end Sample

namespace ProofPage

open Transitions Sample

theorem acceptedOf_delivered :
    acceptedOf crypto noRotations none edge deliveredChain = deliveredChain := by decide +kernel

/-- The owner has delivered and the creditor has yet to accept: the certificate says it was kept. -/
theorem certificate_kept_before_acceptance :
    (certificate deliveredChain).chain =
        (acceptedOf crypto noRotations none edge deliveredChain).map stepRecord ∧
      finalState crypto noRotations none edge deliveredChain = .pendingAcceptance ∧
      (∃ view, buildProof (certificate deliveredChain) = .ok view ∧
        view.outcome = Copy.outcomeKept) ∧
      ¬∃ view, buildProof (certificate deliveredChain) = .ok view ∧
        Agrees crypto noRotations none edge deliveredChain view := by
  have hfinal : finalState crypto noRotations none edge deliveredChain = .pendingAcceptance := by
    decide +kernel
  obtain ⟨view, hview, -, houtcome⟩ := buildProof_ok (certificate deliveredChain)
  have hkept : view.outcome = Copy.outcomeKept := by
    rw [houtcome]
    decide +kernel
  refine ⟨by rw [acceptedOf_delivered]; rfl, hfinal, ⟨view, hview, hkept⟩, ?_⟩
  intro ⟨other, hother, hagrees⟩
  obtain rfl : view = other := by simpa [hview] using hother
  have hclosed := hagrees.kept.mp hkept
  rw [hfinal] at hclosed
  cases hclosed

/-- A promise agreed and not yet acted on. -/
theorem certificate_agrees_when_agreed :
    ∃ view, buildProof (certificate [proposal, confirmation]) = .ok view ∧
      Agrees crypto noRotations none edge [proposal, confirmation] view := by
  have haccepted : acceptedOf crypto noRotations none edge [proposal, confirmation] =
      [proposal, confirmation] := by decide +kernel
  apply (certificate_agrees_iff [proposal, confirmation] _ (by rw [haccepted]; rfl)).mpr
  intro before a h
  rw [haccepted, ← List.singleton_append] at h
  obtain ⟨rfl, ha⟩ := List.append_inj' h rfl
  rw [← List.singleton_inj.mp ha]
  decide +kernel

end ProofPage

end Servanda
