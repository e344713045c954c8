import Servanda.Primitives

namespace Servanda

/-- The states an assertion on the wire may name. `opened` is `open`: it parses, and the table
discards it. -/
inductive WireAssertionState
  | proposed | confirmed | opened | closed | released | expired | disputed | superseded
  deriving DecidableEq, Repr

inductive EffectiveState
  | none | proposed | opened | pendingAcceptance | closed | released | expired
  | contestedClosure | disputed | superseded
  deriving DecidableEq, Repr

def nonAssertableStates : List WireAssertionState := [.opened]

def unilateralExits : List WireAssertionState := [.closed, .released, .expired]

def terminalStates : List EffectiveState := [.closed, .released, .expired, .superseded]

inductive ClosurePolicy
  | onEvidence | onAcceptance
  deriving DecidableEq, Repr

inductive FulfillmentPolicy
  | all | any | kOfN
  deriving DecidableEq, Repr

structure Fulfillment where
  policy : FulfillmentPolicy
  k : Option ℕ
  children : List Sha256Hex
  coordinator : Option PublicKeyHex
  deriving DecidableEq

structure Edge where
  edgeId : Sha256Hex
  commitmentHash : Sha256Hex
  owner : PublicKeyHex
  owedTo : PublicKeyHex
  proposedAt : Rfc3339
  due : Option Rfc3339
  closurePolicy : ClosurePolicy
  acceptanceWindow : Option Iso8601Duration
  blockedBy : List Sha256Hex
  fulfillment : Option Fulfillment
  supersedes : Option Sha256Hex
  deriving DecidableEq

/-- Is a collective edge decomposed so that a node may escalate on it? -/
def collectiveDecompositionValid (edge : Edge) : Bool :=
  match edge.fulfillment with
  | none => true
  | some f =>
    if f.coordinator.isSome then true
    else if f.children.length = 0 then false
    else if f.policy = .kOfN then
      match f.k with
      | none => false
      | some k => decide (0 < k ∧ k ≤ f.children.length)
    else true

structure Assertion where
  edgeId : Sha256Hex
  state : WireAssertionState
  assertedAt : Rfc3339
  /-- The member `by`: the key the signature is checked against. -/
  signer : PublicKeyHex
  evidenceHash : Option Sha256Hex
  sig : SignatureHex
  deriving DecidableEq

inductive RejectionReason
  | wrongSignerForTransition
  | signerNotAParty
  | illegalSourceState
  | evidenceHashRequired
  | evidenceHashRequiredForOwnerClosure
  | dueIsNull
  | expiryBeforeDue
  | expiryDatedInTheFuture
  | acceptanceWindowNotElapsed
  | disputeWindowNotElapsed
  | malformedEdgeAcceptanceWindow
  | edgeIdDoesNotBindBody
  | assertedAtBeforeSignersPrevious
  | implicitTransitionNotAssertable
  | invalidSignature
  | terminalStateReached
  | edgeIdMismatch
  | duplicateAssertionBySameParty
  deriving DecidableEq, Repr

structure AssertionOutcome where
  index : ℕ
  accepted : Bool
  rejectionReason : Option RejectionReason
  deriving DecidableEq, Repr

end Servanda
