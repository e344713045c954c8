import Servanda.Serve

namespace Servanda

inductive PersonaName
  | key (persona : PublicKeyHex)
  | label (text : String)
  deriving DecidableEq

structure CommitInput where
  intent : String
  owedTo : Option Counterparty
  due : Option Rfc3339
  persona : Option PersonaName
  propose : Bool
  /-- Does the input carry an `owner`, whatever it says? -/
  namesOwner : Bool

inductive CommitOutput
  | vaultLocal (commitmentHash : Sha256Hex)
  | proposed (commitmentHash edgeId : Sha256Hex)
  deriving DecidableEq

inductive ConfirmDecision
  | confirm | dismiss | edit
  deriving DecidableEq, Repr

structure ConfirmEdit where
  intent : Option String
  due : Option Rfc3339

structure ConfirmInput where
  id : Sha256Hex
  decision : ConfirmDecision
  edit : Option ConfirmEdit

inductive ConfirmOutput
  | confirmed | dismissed | revised
  deriving DecidableEq, Repr

inductive Act
  | done | release | expire | supersede | delegate | ping | confirm | dismiss | propose
  deriving DecidableEq, Repr

inductive ActTool
  | act | confirm
  deriving DecidableEq, Repr

def Act.tool : Act → Option ActTool
  | done | release | expire => some .act
  | confirm | dismiss => some .confirm
  | supersede | delegate | ping | propose => none

structure ActInput where
  id : Sha256Hex
  act : Act
  evidenceHash : Option Sha256Hex

inductive ActRejectionReason
  | notAParty
  | wrongRoleForAct
  | actNotBoundToATool
  | evidenceHashMustBeNull
  | evidenceHashRequired
  | acceptanceWindowNotElapsed
  | dueNotElapsed
  | disputeWindowNotElapsed
  | illegalSourceState
  | terminalStateReached
  | duplicateAssertionBySameParty
  | malformedEdgeAcceptanceWindow
  deriving DecidableEq, Repr

def actRejection : RejectionReason → ActRejectionReason
  | .wrongSignerForTransition => .wrongRoleForAct
  | .signerNotAParty => .notAParty
  | .illegalSourceState => .illegalSourceState
  | .evidenceHashRequired => .evidenceHashRequired
  | .evidenceHashRequiredForOwnerClosure => .evidenceHashRequired
  | .dueIsNull => .illegalSourceState
  | .expiryBeforeDue => .dueNotElapsed
  | .expiryDatedInTheFuture => .illegalSourceState
  | .acceptanceWindowNotElapsed => .acceptanceWindowNotElapsed
  | .disputeWindowNotElapsed => .disputeWindowNotElapsed
  | .malformedEdgeAcceptanceWindow => .malformedEdgeAcceptanceWindow
  | .edgeIdDoesNotBindBody => .illegalSourceState
  | .implicitTransitionNotAssertable => .illegalSourceState
  | .invalidSignature => .illegalSourceState
  | .assertedAtBeforeSignersPrevious => .illegalSourceState
  | .terminalStateReached => .terminalStateReached
  | .edgeIdMismatch => .illegalSourceState
  | .duplicateAssertionBySameParty => .duplicateAssertionBySameParty

inductive ActOutput
  | accepted (asserts : WireAssertionState)
  | refused (reason : ActRejectionReason)
  deriving DecidableEq, Repr

inductive NodeError
  | noSuchPersona
  | noSuchId
  | noSuchEdge
  | noSuchPending
  | foreignOwner
  | editInPlace
  | ownProposal
  | notAParty
  | invalidAssertion (reason : Option RejectionReason)
  | edgeRefused
  deriving DecidableEq, Repr

/-- What an extraction found, before a person has confirmed it. -/
inductive Candidate
  | commitment (c : Commitment)
  | expectation (e : Expectation)

structure PendingExtraction where
  id : Sha256Hex
  candidate : Candidate
  queuedAt : Rfc3339

inductive OrderingKind
  | commitment | edge | expectation | pending
  deriving DecidableEq, Repr

structure ServandaNode where
  activePersona : PublicKeyHex
  personas : List PublicKeyHex
  personas_nodup : personas.Nodup := by decide
  label : PublicKeyHex → String
  vault : PublicKeyHex → Subtree
  pending : PublicKeyHex → List PendingExtraction

namespace ServandaNode

open Transitions Serve

variable (crypto : Crypto) (now : Rfc3339) (node : ServandaNode)

def withVault (persona : PublicKeyHex) (s : Subtree) : ServandaNode :=
  { node with vault := Function.update node.vault persona s }

def resolvePersona : Option PersonaName → Option PublicKeyHex
  | none => some node.activePersona
  | some (.key persona) => some persona
  | some (.label text) => node.personas.find? fun persona ↦ node.label persona = text

def getPending (persona : PublicKeyHex) (id : Sha256Hex) : Option PendingExtraction :=
  (node.pending persona).find? fun p ↦ p.id = id

def deletePending (persona : PublicKeyHex) (id : Sha256Hex) : ServandaNode :=
  { node with
    pending := Function.update node.pending persona ((node.pending persona).filter (·.id ≠ id)) }

def defaultAcceptanceWindow : Iso8601Duration := P5D

def buildEdge (commitmentHash : Sha256Hex) (owner owedTo : PublicKeyHex) (proposedAt : Rfc3339)
    (due : Option Rfc3339) : Edge where
  edgeId := crypto.edgeId commitmentHash owner owedTo proposedAt
  commitmentHash := commitmentHash
  owner := owner
  owedTo := owedTo
  proposedAt := proposedAt
  due := due
  closurePolicy := .onAcceptance
  acceptanceWindow := some defaultAcceptanceWindow
  blockedBy := []
  fulfillment := none
  supersedes := none

def signAssertion (persona : PublicKeyHex) (edgeId : Sha256Hex) (state : WireAssertionState)
    (assertedAt : Rfc3339) (evidenceHash : Option Sha256Hex) : Assertion :=
  let unsigned : Assertion := ⟨edgeId, state, assertedAt, persona, evidenceHash, 0⟩
  { unsigned with sig := crypto.signAssertion unsigned persona }

def committed (persona : PublicKeyHex) (input : CommitInput) : Commitment :=
  ⟨⟨input.intent, persona, input.owedTo, input.due, now⟩, []⟩

/-- The edge a call proposes, when its counterparty is another persona's key. -/
def proposedEdge (persona : PublicKeyHex) (input : CommitInput) : Option Edge :=
  match input.owedTo with
  | some (.persona owedTo) =>
    if !input.propose || owedTo == persona then none
    else
      let hash := crypto.commitmentHash (committed now persona input).toCommitmentHashInput
      some (buildEdge crypto hash persona owedTo now input.due)
  | _ => none

def commit (input : CommitInput) : ServandaNode × Except NodeError CommitOutput :=
  if input.namesOwner then (node, .error .foreignOwner)
  else match node.resolvePersona input.persona with
    | none => (node, .error .noSuchPersona)
    | some persona =>
      if persona ∉ node.personas then (node, .error .noSuchPersona)
      else
        let commitment := committed now persona input
        let hash := crypto.commitmentHash commitment.toCommitmentHashInput
        let s := (node.vault persona).putCommitment crypto commitment
        match proposedEdge crypto now persona input with
        | none => (node.withVault persona s, .ok (.vaultLocal hash))
        | some edge =>
          match s.putEdge crypto edge with
          | none => (node.withVault persona s, .error .edgeRefused)
          | some s =>
            let assertion := signAssertion crypto persona edge.edgeId .proposed now none
            (node.withVault persona (s.appendAssertion assertion),
              .ok (.proposed hash edge.edgeId))

def orderingKeys (persona : PublicKeyHex) : List (Sha256Hex × OrderingKind) :=
  let s := node.vault persona
  s.commitments.values.map (fun c ↦ (c.1, .commitment)) ++
    s.listEdgeIds.map (fun id ↦ (id, .edge)) ++
    s.expectations.values.map fun e ↦ (e.1, .expectation)

def locateIn (persona : PublicKeyHex) (id : Sha256Hex) : Option (PublicKeyHex × OrderingKind) :=
  ((node.orderingKeys persona).find? (·.1 = id)).map fun key ↦ (persona, key.2)

def locatePending (persona : PublicKeyHex) (id : Sha256Hex) :
    Option (PublicKeyHex × OrderingKind) :=
  (node.getPending persona id).map fun _ ↦ (persona, .pending)

/-- Which persona holds an identifier, the active one first. -/
def locate (id : Sha256Hex) : Option (PublicKeyHex × OrderingKind) :=
  (node.locateIn node.activePersona id).or <|
    (node.locatePending node.activePersona id).or <|
      (node.personas.findSome? (node.locateIn · id)).or <|
        node.personas.findSome? (node.locatePending · id)

def edgeState (persona : PublicKeyHex) (edge : Edge) : ChainVerification :=
  let s := node.vault persona
  verifyAssertionChain crypto (partyLineage crypto s) none edge (s.getAssertions edge.edgeId)

/-- The verdict on an assertion signed here, after the chain held. -/
def ownVerdict (persona : PublicKeyHex) (edge : Edge) (assertion : Assertion) : AssertionOutcome :=
  let s := node.vault persona
  let held := s.getAssertions edge.edgeId
  let outcomes := (verifyAssertionChain crypto (partyLineage crypto s) (some now) edge
    (held ++ [assertion])).outcomes
  outcomes[held.length]?.getD ⟨held.length, false, none⟩

def confirmPending (persona : PublicKeyHex) (input : ConfirmInput) :
    ServandaNode × Except NodeError ConfirmOutput :=
  match node.getPending persona input.id with
  | none => (node, .error .noSuchPending)
  | some pending =>
    let s := node.vault persona
    if input.decision = .dismiss then (node.deletePending persona input.id, .ok .dismissed)
    else match pending.candidate with
      | .expectation e =>
        ((node.withVault persona (s.putExpectation pending.id e)).deletePending persona input.id,
          .ok .confirmed)
      | .commitment c =>
        if c.owner ≠ persona then (node, .error .foreignOwner)
        else
          let c := match input.decision, input.edit with
            | .edit, some edit =>
              { c with
                intent := edit.intent.getD c.intent
                due := edit.due.or c.due }
            | _, _ => c
          ((node.withVault persona (s.putCommitment crypto c)).deletePending persona input.id,
            .ok (if input.decision = .edit then .revised else .confirmed))

def confirmEdge (persona : PublicKeyHex) (input : ConfirmInput) :
    ServandaNode × Except NodeError ConfirmOutput :=
  let s := node.vault persona
  match s.getEdge input.id with
  | none => (node, .error .noSuchEdge)
  | some edge =>
    match input.decision with
    | .dismiss =>
      (node.withVault persona
        (s.putEdgeMeta input.id { s.getEdgeMeta input.id with dismissed := true }), .ok .dismissed)
    | .edit => (node, .error .editInPlace)
    | .confirm =>
      if edge.owner = persona then (node, .error .ownProposal)
      else if edge.owedTo ≠ persona then (node, .error .notAParty)
      else
        let assertion := signAssertion crypto persona edge.edgeId .confirmed now none
        let last := node.ownVerdict crypto now persona edge assertion
        if !last.accepted then (node, .error (.invalidAssertion last.rejectionReason))
        else
          let s := s.appendAssertion assertion
          let m := s.getEdgeMeta edge.edgeId
          (node.withVault persona
            (if m.dismissed then s.putEdgeMeta edge.edgeId { m with dismissed := false } else s),
            .ok .confirmed)

def confirm (input : ConfirmInput) : ServandaNode × Except NodeError ConfirmOutput :=
  match node.locate input.id with
  | none => (node, .error .noSuchId)
  | some (persona, .pending) => node.confirmPending crypto persona input
  | some (persona, _) => node.confirmEdge crypto now persona input

def asserts : Act → WireAssertionState
  | .done => .closed
  | .expire => .expired
  | _ => .released

/-- The refusals an act meets before anything is signed. -/
def actRefusal (persona : PublicKeyHex) (edge : Edge) (input : ActInput) :
    Option ActRejectionReason :=
  let stateNow := (node.edgeState crypto persona edge).finalState
  if edge.owner ≠ persona ∧ edge.owedTo ≠ persona then some .notAParty
  else if input.act.tool ≠ some .act then some .actNotBoundToATool
  else if input.act ≠ .expire ∧ persona ≠ (if input.act = .done then edge.owner else edge.owedTo) then
    some .wrongRoleForAct
  else if input.act = .expire ∧ input.evidenceHash ≠ none then some .evidenceHashMustBeNull
  else if input.act = .release ∧ input.evidenceHash ≠ none then some .evidenceHashMustBeNull
  else if input.act = .done ∧ (stateNow = .disputed ∨ stateNow = .contestedClosure) then
    some .illegalSourceState
  else none

def act (input : ActInput) : ServandaNode × Except NodeError ActOutput :=
  match node.locate input.id with
  | none => (node, .error .noSuchId)
  | some (persona, _) =>
    let s := node.vault persona
    match s.getEdge input.id with
    | none => (node, .error .noSuchEdge)
    | some edge =>
      match node.actRefusal crypto persona edge input with
      | some reason => (node, .ok (.refused reason))
      | none =>
        let assertion :=
          signAssertion crypto persona edge.edgeId (asserts input.act) now input.evidenceHash
        let last := node.ownVerdict crypto now persona edge assertion
        if !last.accepted then
          (node, .ok (.refused (last.rejectionReason.elim .illegalSourceState actRejection)))
        else (node.withVault persona (s.appendAssertion assertion),
          .ok (.accepted (asserts input.act)))

end ServandaNode

end Servanda
