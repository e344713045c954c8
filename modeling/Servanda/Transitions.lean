import Mathlib.Data.Finset.Card
import Servanda.Crypto
import Servanda.Duration
import Servanda.Replay
import Servanda.Rotation

namespace Servanda

structure Exit where
  state : WireAssertionState
  signer : PublicKeyHex
  instant : Rfc3339
  deriving DecidableEq

structure ChainState where
  state : EffectiveState
  windowOpenedAt : Option Rfc3339
  supersededBy : Finset PublicKeyHex
  disputeClosedBy : Finset PublicKeyHex
  exit : Option Exit
  contestClosedBy : Finset PublicKeyHex
  contestSupersededBy : Finset PublicKeyHex
  contestedAt : Option Rfc3339
  disputedAt : Option Rfc3339
  latestBySigner : PublicKeyHex → Option Rfc3339
  resolvedAt : Option Rfc3339

namespace ChainState

def start : ChainState where
  state := .none
  windowOpenedAt := none
  supersededBy := ∅
  disputeClosedBy := ∅
  exit := none
  contestClosedBy := ∅
  contestSupersededBy := ∅
  contestedAt := none
  disputedAt := none
  latestBySigner _ := none
  resolvedAt := none

end ChainState

structure ChainVerification where
  outcomes : List AssertionOutcome
  finalState : EffectiveState
  resolvedAt : Option Rfc3339
  unverifiable : Bool
  deadlockedSince : Option Rfc3339

namespace Transitions

def disputableFrom : List EffectiveState := [.opened, .pendingAcceptance]

def disputeWindow : Iso8601Duration := P30D

def expirySkewMs : ℤ := 86400000

def heldBy (lineage : List PartyKey) (signer : PublicKeyHex) (instant : Rfc3339) : Bool :=
  match lineage.find? fun k ↦ k.key = signer with
  | none => false
  | some entry => entry.supersededAt.all fun s ↦ decide (Date.parse instant < Date.parse s)

def noRotations : KeyLineage := fun k ↦ [⟨k, none⟩]

def acceptanceWindowMalformed (edge : Edge) : Bool :=
  match edge.closurePolicy with
  | .onAcceptance => edge.acceptanceWindow.isNone
  | .onEvidence => edge.acceptanceWindow.isSome

def windowElapsed (edge : Edge) (openedAt assertedAt : Rfc3339) : Bool :=
  edge.acceptanceWindow.any fun window ↦
    reaches (Date.parse assertedAt) (addDuration (Date.parse openedAt) window)

def datedInTheFuture (now : Option Rfc3339) (a : Assertion) : Bool :=
  now.any fun n ↦ decide (Date.parse n + expirySkewMs < Date.parse a.assertedAt)

def disputeWindowRunning (openedAt : Rfc3339) (a : Assertion) : Bool :=
  precedes (Date.parse a.assertedAt) (addDuration (Date.parse openedAt) disputeWindow)

/-- Would this have been a legal unilateral exit from `open`? -/
def unilateralExitFault (edge : Edge) (a : Assertion) (now : Option Rfc3339)
    (isOwner isOwedTo : Bool) : Option RejectionReason :=
  match a.state with
  | .closed =>
    if !isOwner then some .wrongSignerForTransition
    else if a.evidenceHash = none then some .evidenceHashRequiredForOwnerClosure else none
  | .released => if isOwedTo then none else some .wrongSignerForTransition
  | .expired =>
    match edge.due with
    | none => some .dueIsNull
    | some due =>
      if Date.parse a.assertedAt < Date.parse due then some .expiryBeforeDue
      else if datedInTheFuture now a then some .expiryDatedInTheFuture else none
  | _ => some .illegalSourceState

/-- A different exit by another signer, dated no later than the recorded one. -/
def contests (ctx : ChainState) (a : Assertion) : Bool :=
  ctx.exit.any fun exit ↦
    a.signer != exit.signer && unilateralExits.contains a.state && a.state != exit.state &&
      ctx.state != .contestedClosure && decide (Date.parse a.assertedAt ≤ Date.parse exit.instant)

def contest (ctx : ChainState) (a : Assertion) : ChainState :=
  { ctx with
    state := .contestedClosure, contestedAt := some a.assertedAt, resolvedAt := some a.assertedAt }

def resolve (ctx : ChainState) (a : Assertion) (state : EffectiveState) : ChainState :=
  { ctx with state := state, resolvedAt := some a.assertedAt }

def contestedStep (ctx : ChainState) (a : Assertion) (now : Option Rfc3339) :
    Except RejectionReason ChainState :=
  match a.state with
  | .closed =>
    if a.signer ∈ ctx.contestClosedBy then .error .duplicateAssertionBySameParty
    else
      let ctx := { ctx with contestClosedBy := insert a.signer ctx.contestClosedBy }
      if ctx.contestClosedBy.card = 2 then .ok (resolve ctx a .closed) else .ok ctx
  | .superseded =>
    if a.signer ∈ ctx.contestSupersededBy then .error .duplicateAssertionBySameParty
    else
      let ctx := { ctx with contestSupersededBy := insert a.signer ctx.contestSupersededBy }
      if ctx.contestSupersededBy.card = 2 then .ok (resolve ctx a .superseded) else .ok ctx
  | .expired =>
    match ctx.contestedAt with
    | none => .error .illegalSourceState
    | some contestedAt =>
      if disputeWindowRunning contestedAt a then .error .disputeWindowNotElapsed
      else if datedInTheFuture now a then .error .expiryDatedInTheFuture
      else .ok (resolve ctx a .expired)
  | _ => .error .illegalSourceState

def closedStep (edge : Edge) (ctx : ChainState) (a : Assertion) (isOwner isOwedTo : Bool) :
    Except RejectionReason ChainState :=
  match ctx.state with
  | .opened =>
    if !isOwner then .error .wrongSignerForTransition
    else if a.evidenceHash = none then .error .evidenceHashRequiredForOwnerClosure
    else
      let ctx := { ctx with exit := some ⟨.closed, a.signer, a.assertedAt⟩ }
      if edge.closurePolicy = .onEvidence then .ok (resolve ctx a .closed)
      else .ok { ctx with state := .pendingAcceptance, windowOpenedAt := some a.assertedAt }
  | .pendingAcceptance =>
    if isOwedTo then .ok (resolve ctx a .closed)
    else match ctx.windowOpenedAt with
      | none => .error .illegalSourceState
      | some openedAt =>
        if !windowElapsed edge openedAt a.assertedAt then .error .acceptanceWindowNotElapsed
        else .ok (resolve ctx a .closed)
  | .disputed =>
    if a.signer ∈ ctx.disputeClosedBy then .error .duplicateAssertionBySameParty
    else
      let ctx := { ctx with disputeClosedBy := insert a.signer ctx.disputeClosedBy }
      if ctx.disputeClosedBy.card = 2 then .ok (resolve ctx a .closed) else .ok ctx
  | _ => .error .illegalSourceState

def expiredStep (edge : Edge) (ctx : ChainState) (a : Assertion) (now : Option Rfc3339) :
    Except RejectionReason ChainState :=
  match ctx.state with
  | .disputed =>
    match ctx.disputedAt with
    | none => .error .illegalSourceState
    | some disputedAt =>
      if disputeWindowRunning disputedAt a then .error .disputeWindowNotElapsed
      else .ok (resolve ctx a .expired)
  | .opened =>
    match edge.due with
    | none => .error .dueIsNull
    | some due =>
      if Date.parse a.assertedAt < Date.parse due then .error .expiryBeforeDue
      else if datedInTheFuture now a then .error .expiryDatedInTheFuture
      else
        .ok (resolve { ctx with exit := some ⟨.expired, a.signer, a.assertedAt⟩ } a .expired)
  | _ => .error .illegalSourceState

/-- The rows of the table, for a signer who is a party and an act that contests nothing. -/
def tableStep (edge : Edge) (ctx : ChainState) (a : Assertion) (now : Option Rfc3339)
    (isOwner isOwedTo : Bool) : Except RejectionReason ChainState :=
  match a.state with
  | .proposed =>
    if ctx.state ≠ .none then .error .illegalSourceState
    else if !isOwner then .error .wrongSignerForTransition
    else .ok { ctx with state := .proposed }
  | .confirmed =>
    if ctx.state ≠ .proposed then .error .illegalSourceState
    else if !isOwedTo then .error .wrongSignerForTransition
    else .ok { ctx with state := .opened }
  | .closed => closedStep edge ctx a isOwner isOwedTo
  | .released =>
    if ctx.state ≠ .opened then .error .illegalSourceState
    else if !isOwedTo then .error .wrongSignerForTransition
    else .ok (resolve { ctx with exit := some ⟨.released, a.signer, a.assertedAt⟩ } a .released)
  | .expired => expiredStep edge ctx a now
  | .disputed =>
    if !disputableFrom.contains ctx.state then .error .illegalSourceState
    else if a.evidenceHash = none then .error .evidenceHashRequired
    else .ok { ctx with state := .disputed, disputedAt := some a.assertedAt }
  | .superseded =>
    if ctx.state ≠ .opened ∧ ctx.state ≠ .disputed then .error .illegalSourceState
    else if a.signer ∈ ctx.supersededBy then .error .duplicateAssertionBySameParty
    else
      let ctx := { ctx with supersededBy := insert a.signer ctx.supersededBy }
      if ctx.supersededBy.card = 2 then .ok (resolve ctx a .superseded) else .ok ctx
  | .opened => .error .illegalSourceState

variable (crypto : Crypto) (keyLineage : KeyLineage) (now : Option Rfc3339) (edge : Edge)

def step (ctx : ChainState) (a : Assertion) : Except RejectionReason ChainState :=
  let isOwner := heldBy (keyLineage edge.owner) a.signer a.assertedAt
  let isOwedTo := heldBy (keyLineage edge.owedTo) a.signer a.assertedAt
  if a.edgeId ≠ edge.edgeId then .error .edgeIdMismatch
  else if !crypto.verifyObject (.assertion a) a.signer then .error .invalidSignature
  else if !isOwner && !isOwedTo then .error .signerNotAParty
  else if nonAssertableStates.contains a.state then .error .implicitTransitionNotAssertable
  else if contests ctx a then
    match unilateralExitFault edge a now isOwner isOwedTo with
    | some fault => .error fault
    | none => .ok (contest ctx a)
  else if terminalStates.contains ctx.state then .error .terminalStateReached
  else if ctx.state = .contestedClosure then contestedStep ctx a now
  else tableStep edge ctx a now isOwner isOwedTo

def backdated (ctx : ChainState) (a : Assertion) : Bool :=
  (ctx.latestBySigner a.signer).any fun previous ↦
    decide (Date.parse a.assertedAt < Date.parse previous)

def record (ctx : ChainState) (a : Assertion) : ChainState :=
  { ctx with latestBySigner := Function.update ctx.latestBySigner a.signer (some a.assertedAt) }

/-- The verdict on the next assertion of a chain. -/
def judge (ctx : ChainState) (a : Assertion) : Except RejectionReason ChainState :=
  if backdated ctx a then .error .assertedAtBeforeSignersPrevious
  else (step crypto keyLineage now edge ctx a).map fun ctx ↦ record ctx a

def edgeMalformed : Option RejectionReason :=
  if !crypto.edgeIdBindsBody edge then some .edgeIdDoesNotBindBody
  else if acceptanceWindowMalformed edge then some .malformedEdgeAcceptanceWindow
  else none

def outcome (index : ℕ) (verdict : Option RejectionReason) : AssertionOutcome :=
  ⟨index, verdict.isNone, verdict⟩

def deadlockedSince (ctx : ChainState) : Option Rfc3339 :=
  if ctx.state = .disputed then ctx.disputedAt
  else if ctx.state = .contestedClosure then ctx.contestedAt
  else none

def verifyAssertionChain (assertions : List Assertion) : ChainVerification :=
  match edgeMalformed crypto edge with
  | some reason =>
    { outcomes := assertions.mapIdx fun index _ ↦ outcome index (some reason)
      finalState := .none
      resolvedAt := none
      unverifiable := !collectiveDecompositionValid edge
      deadlockedSince := none }
  | none =>
    let ctx := Replay.final (judge crypto keyLineage now edge) .start assertions
    { outcomes :=
        (Replay.verdicts (judge crypto keyLineage now edge) .start assertions).mapIdx outcome
      finalState := ctx.state
      resolvedAt := ctx.resolvedAt
      unverifiable := !collectiveDecompositionValid edge
      deadlockedSince := deadlockedSince ctx }

end Transitions

end Servanda
