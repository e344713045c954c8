import Servanda.Transitions
import Servanda.Vault

namespace Servanda.Serve

open Transitions

inductive ServeGrant
  | refused
  | party
  | scope (scope : PublicKeyHex)
  deriving DecidableEq

def isParty (edge : Edge) (persona : PublicKeyHex) : Bool :=
  edge.owner == persona || edge.owedTo == persona

variable (crypto : Crypto) (s : Subtree)

def partyLineage : KeyLineage :=
  if s.listRotations.length = 0 then noRotations
  else fun key ↦ Rotation.keyLineage crypto false key (s.listRotations.map some)

def isPartyOrSuccessor (edge : Edge) (key : PublicKeyHex) (lineage : KeyLineage) : Bool :=
  isParty edge key || (lineage edge.owner).any (fun k ↦ k.key == key) ||
    (lineage edge.owedTo).any fun k ↦ k.key == key

def grantedByScope (now : Rfc3339) (requester : PublicKeyHex) (edge : Edge) (record : Publish) :
    Bool :=
  record.edgeId == edge.edgeId && isParty edge record.signer &&
    (record.scope == requester ||
      (s.attestations requester).any fun attestation ↦
        attestation.org == record.scope &&
          (s.revocations requester).all (fun revocation ↦
            decide (Date.parse now < Date.parse revocation.revokedAt)) &&
          decide (Date.parse now ≤ Date.parse attestation.expiresAt))

def mayServeEdge (now : Rfc3339) (requester : PublicKeyHex) (edge : Edge) : ServeGrant :=
  if isPartyOrSuccessor edge requester (partyLineage crypto s) then .party
  else match s.publishRecords.find? (grantedByScope s now requester edge) with
    | some record => .scope record.scope
    | none => .refused

variable {crypto s} {edge : Edge} {key : PublicKeyHex}

theorem isParty_iff : isParty edge key = true ↔ edge.owner = key ∨ edge.owedTo = key := by
  simp [isParty]

theorem isPartyOrSuccessor_of_isParty (h : isParty edge key = true) (lineage : KeyLineage) :
    isPartyOrSuccessor edge key lineage = true := by
  simp [isPartyOrSuccessor, h]

theorem partyLineage_eq_noRotations (h : s.listRotations = []) :
    partyLineage crypto s = noRotations := by
  simp [partyLineage, h]

end Servanda.Serve
