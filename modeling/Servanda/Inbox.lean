import Servanda.Recon

namespace Servanda

inductive VerificationLevel
  | zero | one | ext | two | three
  deriving DecidableEq, Repr

inductive Suppression
  | rateLimited
  | levelZeroCapReached
  deriving DecidableEq, Repr

/-- How many proposals by unknown senders a client will surface. -/
structure ProposalBudget where
  cap : ℕ
  perSender : ℤ := 3
  windowMs : ℤ := 86400000
  recent : PublicKeyHex → List ℤ := fun _ ↦ []
  surfacedLevelZero : ℕ := 0

/-- May a proposal be surfaced? Only a `none` advances the counts. -/
def ProposalBudget.admission (budget : ProposalBudget) (now : ℤ) (sender : PublicKeyHex)
    (level : VerificationLevel) : ProposalBudget × Option Suppression :=
  if level ≠ .zero then (budget, none)
  else
    let seen := (budget.recent sender).filter fun t ↦ decide (now - t < budget.windowMs)
    if budget.perSender ≤ seen.length then
      ({ budget with recent := Function.update budget.recent sender seen }, some .rateLimited)
    else if budget.cap ≤ budget.surfacedLevelZero then
      ({ budget with recent := Function.update budget.recent sender seen },
        some .levelZeroCapReached)
    else
      ({ budget with
          recent := Function.update budget.recent sender (seen ++ [now])
          surfacedLevelZero := budget.surfacedLevelZero + 1 }, none)

inductive DiscardReason
  | wrongProtocolVersion
  | signatureDoesNotVerify
  | addressedToAnotherPersona
  | malformedPayload
  | notAddressedToThisPersona
  | proposerIsNotTheOwner
  | edgeIdDoesNotBindBody
  | edgeBodyDiffersFromHeld
  | unknownEdge
  | senderIsNotAParty
  | rotationDoesNotVerify
  | rotationFromAThirdParty
  | rotationForAnUnknownParty
  | transitionTable (reason : RejectionReason)
  deriving DecidableEq, Repr

structure IngestResult where
  accepted : List (WireMessageType × Option Sha256Hex)
  /-- No type stands for `unknown`. -/
  discarded : List (Option WireMessageType × Option EdgeName × DiscardReason)
  suppressed : List (PublicKeyHex × Sha256Hex × Suppression)
  reconRequests : List (PublicKeyHex × ReconRequest)
  recoverRequests : List (PublicKeyHex × RecoverRequest)
  recon : Recon.ReconApplyResult

namespace IngestResult

def empty : IngestResult := ⟨[], [], [], [], [], ⟨[], [], []⟩⟩

def accept (result : IngestResult) (type : WireMessageType) (edgeId : Option Sha256Hex) :
    IngestResult :=
  { result with accepted := result.accepted ++ [(type, edgeId)] }

def discard (result : IngestResult) (type : Option WireMessageType) (edgeId : Option EdgeName)
    (reason : DiscardReason) : IngestResult :=
  { result with discarded := result.discarded ++ [(type, edgeId, reason)] }

end IngestResult

def Delivery.speaksThisVersion : Delivery → Bool
  | otherVersion => false
  | _ => true

def Delivery.verifyMessage (crypto : Crypto) : Delivery → Option WireMessage
  | message m => if crypto.verifyObject (.message m) m.sender then some m else none
  | _ => none

def edgeBindingFailure (crypto : Crypto) (s : Subtree) (edge : Edge) : Option DiscardReason :=
  if !crypto.edgeIdBindsBody edge then some .edgeIdDoesNotBindBody
  else match s.getEdge edge.edgeId with
    | none => none
    | some held =>
      if crypto.hashCanonical (.edge held) = crypto.hashCanonical (.edge edge) then none
      else some .edgeBodyDiffersFromHeld

theorem edgeBindingFailure_eq_none_iff {crypto : Crypto} {s : Subtree} {edge : Edge} :
    edgeBindingFailure crypto s edge = none ↔ crypto.edgeIdBindsBody edge = true ∧
      ∀ held, s.getEdge edge.edgeId = some held →
        crypto.hashCanonical (.edge held) = crypto.hashCanonical (.edge edge) := by
  unfold edgeBindingFailure
  split_ifs with hbind
  · simp [show crypto.edgeIdBindsBody edge = false by simpa using hbind]
  · cases hget : s.getEdge edge.edgeId with
    | none => simpa using hbind
    | some held => simpa using fun _ ↦ by simpa using hbind

/-- One persona's inbox over its part of the vault. `level` is what the client answers about a
counterparty, from the vault as it stands. -/
structure Inbox where
  persona : PublicKeyHex
  vault : Subtree
  budget : Option ProposalBudget
  level : Subtree → PublicKeyHex → VerificationLevel

namespace Inbox

open Transitions Serve Recon

variable (crypto : Crypto) (now : Rfc3339) (budgetNow : ℤ) (inbox : Inbox)

def ingestRotation (sender : PublicKeyHex) (payload : Option Rotation) (result : IngestResult) :
    Inbox × IngestResult :=
  match Rotation.verifyRotation crypto false payload with
  | .rejected _ => (inbox, result.discard (some .rotation) none .rotationDoesNotVerify)
  | .ok rotation _ =>
    if sender ≠ rotation.old ∧ sender ≠ rotation.new then
      (inbox, result.discard (some .rotation) none .rotationFromAThirdParty)
    else
      let relevant := (inbox.vault.listEdgeIds.map inbox.vault.getEdge).any fun edge ↦
        edge.any fun edge ↦ isParty edge rotation.old
      if !relevant then
        (inbox, result.discard (some .rotation) none .rotationForAnUnknownParty)
      else
        ({ inbox with vault := inbox.vault.putRotation rotation }, result.accept .rotation none)

def admission (sender : PublicKeyHex) : Inbox × Option Suppression :=
  match inbox.budget with
  | none => (inbox, none)
  | some budget =>
    let (budget, suppression) := budget.admission budgetNow sender (inbox.level inbox.vault sender)
    ({ inbox with budget := some budget }, suppression)

def surface (edge : Edge) (assertion : Assertion) : Inbox :=
  match inbox.vault.putEdge crypto edge with
  | none => inbox
  | some vault =>
    if ((vault.getAssertions edge.edgeId).map (·.sig)).contains assertion.sig then
      { inbox with vault }
    else { inbox with vault := vault.appendAssertion assertion }

def ingestPropose (sender : PublicKeyHex) (payload : Except (Option EdgeName) ProposePayload)
    (result : IngestResult) : Inbox × IngestResult :=
  match payload with
  | .error _ => (inbox, result.discard (some .propose) none .malformedPayload)
  | .ok ⟨edge, assertion⟩ =>
    let discard := result.discard (some .propose) (some (.id edge.edgeId))
    match edgeBindingFailure crypto inbox.vault edge with
    | some bound => (inbox, discard bound)
    | none =>
      if edge.owedTo ≠ inbox.persona then (inbox, discard .notAddressedToThisPersona)
      else if sender ≠ edge.owner then (inbox, discard .proposerIsNotTheOwner)
      else
        let verdict := (verifyAssertionChain crypto noRotations (some now) edge [assertion]).outcomes
        match verdict.head?.bind (·.rejectionReason) with
        | some reason => (inbox, discard (.transitionTable reason))
        | none =>
          let alreadyHeld := (inbox.vault.getEdge edge.edgeId).isSome &&
            ((inbox.vault.getAssertions edge.edgeId).map (·.sig)).contains assertion.sig
          if alreadyHeld then (inbox, result.accept .propose (some edge.edgeId))
          else
            let (inbox, suppression) := inbox.admission budgetNow sender
            match suppression with
            | some reason =>
              (inbox, { result with
                suppressed := result.suppressed ++ [(sender, edge.edgeId, reason)] })
            | none =>
              (inbox.surface crypto edge assertion, result.accept .propose (some edge.edgeId))

def ingestAssert (sender : PublicKeyHex) (payload : Except (Option EdgeName) Assertion)
    (result : IngestResult) : Inbox × IngestResult :=
  match payload with
  | .error _ => (inbox, result.discard (some .assert) none .malformedPayload)
  | .ok assertion =>
    match inbox.vault.getEdge assertion.edgeId with
    | none =>
      (inbox, result.discard (some .assert) (some (.id assertion.edgeId)) .unknownEdge)
    | some edge =>
      let discard := result.discard (some .assert) (some (.id edge.edgeId))
      let lineage := partyLineage crypto inbox.vault
      if !isPartyOrSuccessor edge inbox.persona lineage then
        (inbox, discard .notAddressedToThisPersona)
      else if !isPartyOrSuccessor edge sender lineage then (inbox, discard .senderIsNotAParty)
      else
        let held := inbox.vault.getAssertions edge.edgeId
        if (held.map (·.sig)).contains assertion.sig then (inbox, result)
        else
          let outcomes :=
            (verifyAssertionChain crypto lineage (some now) edge (held ++ [assertion])).outcomes
          match outcomes[held.length]?.bind (·.rejectionReason) with
          | some reason => (inbox, discard (.transitionTable reason))
          | none =>
            ({ inbox with vault := inbox.vault.appendAssertion assertion },
              result.accept .assert (some edge.edgeId))

def ingestMessage (acc : Inbox × IngestResult) (raw : Delivery) : Inbox × IngestResult :=
  let (inbox, result) := acc
  if !raw.speaksThisVersion then (inbox, result.discard none none .wrongProtocolVersion)
  else match raw.verifyMessage crypto with
    | none => (inbox, result.discard none none .signatureDoesNotVerify)
    | some message =>
      let discard := result.discard (some message.body.type)
      if message.recipient ≠ inbox.persona then
        (inbox, discard message.body.edgeIdOf .addressedToAnotherPersona)
      else match message.body with
        | .propose payload => inbox.ingestPropose crypto now budgetNow message.sender payload result
        | .assert payload => inbox.ingestAssert crypto now message.sender payload result
        | .reconRequest none | .reconResponse none | .recoverRequest none | .recoverResponse none =>
          (inbox, discard none .malformedPayload)
        | .reconRequest (some request) =>
          (inbox, { result with
            reconRequests := result.reconRequests ++ [(message.sender, request)] })
        | .reconResponse (some response) =>
          let (vault, applied) :=
            applyReconResponse crypto inbox.vault inbox.persona message.sender now response
          ({ inbox with vault }, { result with
            recon :=
              { accepted := result.recon.accepted ++ applied.accepted
                discarded := result.recon.discarded ++ applied.discarded
                ignored := result.recon.ignored ++ applied.ignored } })
        | .recoverRequest (some request) =>
          (inbox, { result with
            recoverRequests := result.recoverRequests ++ [(message.sender, request)] })
        | .rotation payload => inbox.ingestRotation crypto message.sender payload result
        | .recoverResponse (some _) | .publish _ | .unpublish _ | .attestation | .revocation =>
          (inbox, result.accept message.body.type none)

def ingest (messages : List Delivery) : Inbox × IngestResult :=
  messages.foldl (ingestMessage crypto now budgetNow) (inbox, .empty)

variable {crypto inbox} {sender : PublicKeyHex} {payload : Option Rotation} {result : IngestResult}

theorem admission_vault (inbox : Inbox) (sender : PublicKeyHex) :
    (inbox.admission budgetNow sender).1.vault = inbox.vault := by
  unfold admission
  split <;> rfl

theorem admission_persona (inbox : Inbox) (sender : PublicKeyHex) :
    (inbox.admission budgetNow sender).1.persona = inbox.persona := by
  unfold admission
  split <;> rfl

theorem ingestRotation_cases :
    (∃ reason, inbox.ingestRotation crypto sender payload result =
        (inbox, result.discard (some .rotation) none reason)) ∨
      ∃ rotation, payload = some rotation ∧
        (∃ encoding, Rotation.verifyRotation crypto false payload = .ok rotation encoding) ∧
        (sender = rotation.old ∨ sender = rotation.new) ∧
        (∃ edge ∈ inbox.vault.edges.values, isParty edge rotation.old = true) ∧
        inbox.ingestRotation crypto sender payload result =
          ({ inbox with vault := inbox.vault.putRotation rotation },
            result.accept .rotation none) := by
  unfold ingestRotation
  cases hverdict : Rotation.verifyRotation crypto false payload with
  | rejected reason => exact .inl ⟨_, rfl⟩
  | ok rotation encoding =>
  have hpayload : payload = some rotation := Rotation.eq_of_verifyRotation hverdict
  dsimp only
  split_ifs with hsender hrelevant
  · exact .inl ⟨_, rfl⟩
  · exact .inl ⟨_, rfl⟩
  · refine .inr ⟨rotation, hpayload, ⟨encoding, rfl⟩, by tauto, ?_, rfl⟩
    simp only [Bool.not_eq_true', Bool.not_eq_false, List.any_map, List.any_eq_true,
      Subtree.listEdgeIds, Function.comp_apply] at hrelevant
    obtain ⟨edge, hmem, hparty⟩ := hrelevant
    rw [show inbox.vault.getEdge edge.edgeId = some edge from
      Directory.get?_eq_some_iff.mpr ⟨hmem, rfl⟩] at hparty
    exact ⟨edge, hmem, by simpa using hparty⟩

end Inbox

inductive RecoverDiscard
  | binding (reason : DiscardReason)
  | transitionTable (reason : RejectionReason)
  | noAcceptedProposalByTheOwner
  deriving DecidableEq, Repr

structure RecoverApplyResult where
  restored : List Sha256Hex
  /-- No index stands for `-1`: the edge itself was refused. -/
  discarded : List (Sha256Hex × Option ℕ × RecoverDiscard)

namespace Recovery

open Transitions Serve Recon

variable (crypto : Crypto)

def proposedByOwner (edge : Edge) (verdicts : List (Assertion × AssertionOutcome)) : Bool :=
  verdicts.any fun v ↦ v.2.accepted && v.1.state == .proposed && v.1.signer == edge.owner

def applyRecoverEntry (persona : PublicKeyHex) (lineage : KeyLineage) (now : Rfc3339)
    (acc : Subtree × RecoverApplyResult) (entry : RecoverEntry) : Subtree × RecoverApplyResult :=
  let (s, result) := acc
  let ⟨edge, assertions⟩ := entry
  if !isPartyOrSuccessor edge persona lineage then (s, result)
  else match edgeBindingFailure crypto s edge with
    | some bound =>
      (s, { result with discarded := result.discarded ++ [(edge.edgeId, none, .binding bound)] })
    | none =>
      let held := s.getAssertions edge.edgeId
      let new := incoming held assertions
      let candidate := held ++ new
      let outcomes := (verifyAssertionChain crypto lineage (some now) edge candidate).outcomes
      if !proposedByOwner edge (candidate.zip outcomes) then
        (s, { result with
          discarded := result.discarded ++ [(edge.edgeId, none, .noAcceptedProposalByTheOwner)] })
      else match s.putEdge crypto edge with
        | none => (s, result)
        | some s =>
          let verdicts := judged crypto lineage now edge held new
          (appendAll s (keptOf verdicts),
            { restored := result.restored ++ [edge.edgeId]
              discarded := result.discarded ++ (discardedOf edge.edgeId verdicts).map fun d ↦
                (d.edgeId, some d.index, .transitionTable d.reason) })

def applyRecoverResponse (s : Subtree) (persona : PublicKeyHex) (now : Rfc3339)
    (response : RecoverResponse) : Subtree × RecoverApplyResult :=
  response.edges.foldl (applyRecoverEntry crypto persona (partyLineage crypto s) now) (s, ⟨[], []⟩)

end Recovery

end Servanda
