import Servanda.Attestation
import Servanda.Inbox

namespace Servanda.Identity

inductive AnchorFailure
  | noTransport | invalidDomain | unreachable | absent | malformed | conflict
  deriving DecidableEq, Repr

/-- How a domain anchor was resolved, with the org root of the document if there is one. -/
structure AnchorResolution where
  domain : String
  ok : Bool
  orgRoot : Option PublicKeyHex
  reason : Option AnchorFailure

def anchorsOrgRoot (resolution : AnchorResolution) (orgRoot : PublicKeyHex) : Bool :=
  resolution.ok && resolution.orgRoot == some orgRoot

inductive BindingProofRejection
  | malformed | signatureInvalid | personaMismatch | notObservedOnItsChannel
  deriving DecidableEq, Repr

structure BindingProof where
  persona : PublicKeyHex
  channelUrl : String
  sig : SignatureHex
  deriving DecidableEq

inductive BindingProofVerdict
  | ok (proof : BindingProof)
  | rejected (reason : BindingProofRejection) (detail : Option String)
  deriving DecidableEq

/-- A failed anchor without a reason is reported as `anchor:unknown`. -/
inductive DowngradeReason
  | attestation (reason : AttestationRejection)
  | anchor (reason : Option AnchorFailure)
  | anchorOrgRootMismatch
  | anchorNoAttestationToAnchor
  | bindingProof (reason : BindingProofRejection)
  deriving DecidableEq, Repr

structure Downgrade where
  level : VerificationLevel
  reason : DowngradeReason
  detail : Option String
  deriving DecidableEq

structure LadderEvidence where
  subject : PublicKeyHex
  priorConfirmedEdges : ℕ := 0
  attestation : Option AttestationVerdict := none
  anchor : Option AnchorResolution := none
  bindingProof : Option BindingProofVerdict := none

structure VerifiedIdentity where
  subject : PublicKeyHex
  level : VerificationLevel
  achieved : List VerificationLevel
  downgrades : List Downgrade
  displayName : Option String
  handle : Option String
  attestedBy : Option PublicKeyHex
  anchoredDomain : Option String
  externalChannel : Option String

def levelRank : VerificationLevel → ℕ
  | .zero => 0
  | .one => 1
  | .ext => 2
  | .two => 3
  | .three => 4

/-- The highest of the levels achieved. -/
def highest (achieved : List VerificationLevel) : VerificationLevel :=
  achieved.foldl (fun best l ↦ if levelRank best < levelRank l then l else best) .zero

namespace LadderEvidence

variable (evidence : LadderEvidence)

def attested : Option Attestation :=
  match evidence.attestation with
  | some (.ok attestation _) => some attestation
  | _ => none

/-- What the anchor adds: the domain it confirms, or the downgrade it leaves. -/
def anchored : Option String × List Downgrade :=
  match evidence.attested, evidence.anchor with
  | some attestation, some anchor =>
    if !anchor.ok then (none, [⟨.three, .anchor anchor.reason, some anchor.domain⟩])
    else if !anchorsOrgRoot anchor attestation.org then
      (none, [⟨.three, .anchorOrgRootMismatch, some (anchor.domain ++ " anchors " ++
        anchor.orgRoot.elim "nothing" hexString ++ ", attestation is by " ++
        hexString attestation.org)⟩])
    else (some anchor.domain, [])
  | none, some anchor =>
    if anchor.ok then (none, [⟨.three, .anchorNoAttestationToAnchor, some anchor.domain⟩])
    else (none, [])
  | _, none => (none, [])

def refusedAttestation : List Downgrade :=
  match evidence.attestation with
  | some (.rejected reason detail _) => [⟨.two, .attestation reason, detail⟩]
  | _ => []

def provenChannel : Option String :=
  match evidence.bindingProof with
  | some (.ok proof) => some proof.channelUrl
  | _ => none

def refusedProof : List Downgrade :=
  match evidence.bindingProof with
  | some (.rejected reason detail) => [⟨.ext, .bindingProof reason, detail⟩]
  | _ => []

def achieved : List VerificationLevel :=
  [.zero] ++ (if 1 ≤ evidence.priorConfirmedEdges then [.one] else []) ++
    (if evidence.attested.isSome then [.two] else []) ++
    (if evidence.anchored.1.isSome then [.three] else []) ++
    if evidence.provenChannel.isSome then [.ext] else []

/-- A name is borne only by the levels an attestation establishes. -/
def nameBearing : Option Attestation :=
  if highest evidence.achieved = .two ∨ highest evidence.achieved = .three then evidence.attested
  else none

end LadderEvidence

def bindingLevel (evidence : LadderEvidence) : VerifiedIdentity where
  subject := evidence.subject
  level := highest evidence.achieved
  achieved := evidence.achieved
  downgrades := evidence.refusedAttestation ++ evidence.anchored.2 ++ evidence.refusedProof
  displayName := evidence.nameBearing.bind (·.claims.displayName)
  handle := evidence.nameBearing.bind (·.claims.handle)
  attestedBy := evidence.attested.map (·.org)
  anchoredDomain := evidence.anchored.1
  externalChannel := evidence.provenChannel

theorem attested_of_anchored {evidence : LadderEvidence}
    (h : evidence.anchored.1.isSome = true) : evidence.attested.isSome = true := by
  unfold LadderEvidence.anchored at h
  cases hattested : evidence.attested with
  | some attestation => rfl
  | none =>
    rw [hattested] at h
    cases hanchor : evidence.anchor with
    | none => simp [hanchor] at h
    | some anchor =>
      simp only [hanchor] at h
      split_ifs at h <;> cases h

/-- A level from an attestation up is reached by an attestation that stands, and by nothing else. -/
theorem bindingLevel_attested_iff {evidence : LadderEvidence} :
    (bindingLevel evidence).level = .two ∨ (bindingLevel evidence).level = .three ↔
      evidence.attested.isSome = true := by
  have hanchored := @attested_of_anchored evidence
  simp only [bindingLevel, LadderEvidence.achieved]
  generalize evidence.attested.isSome = attested at hanchored ⊢
  generalize evidence.anchored.1.isSome = anchored at hanchored ⊢
  generalize evidence.provenChannel.isSome = proven
  by_cases hpriors : 1 ≤ evidence.priorConfirmedEdges
  all_goals
    simp only [hpriors, if_true, if_false]
    revert hanchored
    revert attested anchored proven
    decide

end Servanda.Identity
