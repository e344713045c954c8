import Servanda.Edge

namespace Servanda

structure Rotation where
  old : PublicKeyHex
  new : PublicKeyHex
  rotatedAt : Rfc3339
  sig : Option SignatureHex
  sigOld : Option SignatureHex
  sigNew : Option SignatureHex
  signed : sig ≠ none ∨ sigOld ≠ none
  deriving DecidableEq

inductive SubjectKind
  | persona | group
  deriving DecidableEq, Repr

structure AttestationClaims where
  displayName : Option String
  handle : Option String
  deriving DecidableEq

structure Attestation where
  org : PublicKeyHex
  subject : PublicKeyHex
  subjectKind : SubjectKind
  claims : AttestationClaims
  issuedAt : Rfc3339
  expiresAt : Rfc3339
  sig : SignatureHex
  deriving DecidableEq

structure Revocation where
  org : PublicKeyHex
  subject : PublicKeyHex
  revokedAt : Rfc3339
  sig : SignatureHex
  deriving DecidableEq

structure ProposePayload where
  edge : Edge
  assertion : Assertion
  deriving DecidableEq

structure ReconEdgeRef where
  edgeId : Sha256Hex
  latestAssertionHash : Sha256Hex
  deriving DecidableEq

structure ReconRequest where
  edges : List ReconEdgeRef
  deriving DecidableEq

structure ReconEntry where
  edgeId : Sha256Hex
  assertions : List Assertion
  deriving DecidableEq

structure ReconResponse where
  edges : List ReconEntry
  deriving DecidableEq

/-- A recovery proof: the string members the responder reads, and the rotation statement when
the proof names one, `some none` standing for one that does not parse. -/
structure RecoverRequest where
  persona : PublicKeyHex
  challenge : Option String
  sig : Option String
  rotation : Option (Option Rotation)
  deriving DecidableEq

structure RecoverEntry where
  edge : Edge
  assertions : List Assertion
  deriving DecidableEq

structure RecoverResponse where
  edges : List RecoverEntry
  deriving DecidableEq

inductive WireMessageType
  | propose | assert | publish | unpublish | attestation | revocation | rotation
  | reconRequest | reconResponse | recoverRequest | recoverResponse
  deriving DecidableEq, Repr

inductive EdgeName
  | id (edgeId : Sha256Hex)
  | text (s : String)
  deriving DecidableEq

/-- A message's type with its payload as that type's schema reads it. A payload the schema refuses
is `none`, or an error with the identifier it names all the same. -/
inductive WireBody
  | propose (payload : Except (Option EdgeName) ProposePayload)
  | assert (payload : Except (Option EdgeName) Assertion)
  | reconRequest (payload : Option ReconRequest)
  | reconResponse (payload : Option ReconResponse)
  | recoverRequest (payload : Option RecoverRequest)
  | recoverResponse (payload : Option RecoverResponse)
  | rotation (payload : Option Rotation)
  | publish (edgeId : Option EdgeName)
  | unpublish (edgeId : Option EdgeName)
  | attestation
  | revocation
  deriving DecidableEq

namespace WireBody

def type : WireBody → WireMessageType
  | propose _ => .propose
  | assert _ => .assert
  | reconRequest _ => .reconRequest
  | reconResponse _ => .reconResponse
  | recoverRequest _ => .recoverRequest
  | recoverResponse _ => .recoverResponse
  | rotation _ => .rotation
  | publish _ => .publish
  | unpublish _ => .unpublish
  | attestation => .attestation
  | revocation => .revocation

def edgeIdOf : WireBody → Option EdgeName
  | propose (.ok payload) => some (.id payload.edge.edgeId)
  | assert (.ok assertion) => some (.id assertion.edgeId)
  | propose (.error name) | assert (.error name) | publish name | unpublish name => name
  | _ => none

end WireBody

structure WireMessage where
  body : WireBody
  sender : PublicKeyHex
  recipient : PublicKeyHex
  sentAt : Rfc3339
  sig : SignatureHex
  deriving DecidableEq

/-- What a transport hands over: an object of another protocol version, one of this version that
is no message, or a message whose signature has not been looked at. -/
inductive Delivery
  | otherVersion
  | malformed
  | message (m : WireMessage)
  deriving DecidableEq

end Servanda
