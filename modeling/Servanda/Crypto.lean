import Servanda.Wire

namespace Servanda

/-- The party a commitment is owed to: a persona's key, or a text that is none. -/
inductive Counterparty
  | persona (key : PublicKeyHex)
  | label (text : String)
  deriving DecidableEq

structure CommitmentHashInput where
  intent : String
  owner : PublicKeyHex
  owedTo : Option Counterparty
  due : Option Rfc3339
  createdAt : Rfc3339
  deriving DecidableEq

inductive Canonical
  | edge (e : Edge)
  | chainDigest (sigs : List SignatureHex)
  | commitment (c : CommitmentHashInput)
  | message (m : WireMessage)
  deriving DecidableEq

inductive SignedObject
  | assertion (a : Assertion)
  | rotation (r : Rotation)
  | message (m : WireMessage)
  | challenge (challenge sig : String)
  | attestation (a : Attestation)
  | revocation (r : Revocation)
  deriving DecidableEq

/-- The primitives of the crypto package: the hash function, the octets of a canonical form,
whether an object's `sig` verifies under a key, and the signature a key's holder puts on an
assertion. -/
structure Crypto where
  sha256Hex : List UInt8 → Sha256Hex
  canonicalBytes : Canonical → List UInt8
  verifyObject : SignedObject → PublicKeyHex → Bool
  signAssertion : Assertion → PublicKeyHex → SignatureHex

namespace Crypto

variable (crypto : Crypto)

def utf8 (s : List Char) : List UInt8 := s.flatMap String.utf8EncodeChar

def domainTag (tag : String) : List UInt8 := utf8 tag.toList ++ [0]

def commitmentHashTag : String := "servanda/0.1:commitment_hash"

def edgeIdTag : String := "servanda/0.1:edge_id"

def hashCanonical (value : Canonical) : Sha256Hex := crypto.sha256Hex (crypto.canonicalBytes value)

def commitmentHash (c : CommitmentHashInput) : Sha256Hex :=
  crypto.sha256Hex (domainTag commitmentHashTag ++ crypto.canonicalBytes (.commitment c))

/-- The identifier of an edge body. The width check of the source always passes here: digests and
keys have 64 characters by their type. -/
def edgeId (commitmentHash : Sha256Hex) (owner owedTo : PublicKeyHex) (proposedAt : Rfc3339) :
    Sha256Hex :=
  crypto.sha256Hex (domainTag edgeIdTag ++ utf8 (hexText commitmentHash) ++ utf8 (hexText owner) ++
    utf8 (hexText owedTo) ++ utf8 proposedAt.text)

def edgeIdBindsBody (edge : Edge) : Bool :=
  crypto.edgeId edge.commitmentHash edge.owner edge.owedTo edge.proposedAt == edge.edgeId

end Crypto

end Servanda
