import Servanda.Crypto

namespace Servanda

inductive RotationRejection
  | malformed
  | selfRotation
  | missingOldKeySignature
  | notSignedByOldKey
  | legacySigOldEncodingUnverifiable
  deriving DecidableEq, Repr

inductive RotationEncoding
  | sig | sigOld
  deriving DecidableEq, Repr

inductive RotationVerdict
  | ok (rotation : Rotation) (encoding : RotationEncoding)
  | rejected (reason : RotationRejection)
  deriving DecidableEq

inductive SuccessorStop
  | finish | fork | cycle | depth
  deriving DecidableEq, Repr

structure PartyKey where
  key : PublicKeyHex
  supersededAt : Option Rfc3339
  deriving DecidableEq

abbrev KeyLineage := PublicKeyHex → List PartyKey

def maxRotationDepth : ℕ := 32

namespace Rotation

def withSig (r : Rotation) (s : SignatureHex) : Rotation :=
  { r with sig := some s, sigOld := none, sigNew := none, signed := Or.inl (by simp) }

variable (crypto : Crypto) (acceptLegacySigOld : Bool)

def verifyRotation : Option Rotation → RotationVerdict
  | none => .rejected .malformed
  | some r =>
    if r.old = r.new then .rejected .selfRotation
    else match r.sig, r.sigOld with
      | some _, _ =>
        if crypto.verifyObject (.rotation r) r.old then .ok r .sig else .rejected .notSignedByOldKey
      | none, none => .rejected .missingOldKeySignature
      | none, some s =>
        if acceptLegacySigOld = false then .rejected .legacySigOldEncodingUnverifiable
        else if crypto.verifyObject (.rotation (r.withSig s)) r.old then .ok r .sigOld
        else .rejected .notSignedByOldKey

theorem eq_of_verifyRotation {crypto : Crypto} {acceptLegacySigOld : Bool} {input : Option Rotation}
    {r : Rotation} {encoding : RotationEncoding}
    (h : verifyRotation crypto acceptLegacySigOld input = .ok r encoding) : input = some r := by
  cases input with
  | none => cases h
  | some r' =>
    obtain ⟨old, new, rotatedAt, sig, sigOld, sigNew, signed⟩ := r'
    cases sig <;> cases sigOld <;> simp only [verifyRotation] at h <;> split_ifs at h <;> cases h <;> rfl

/-- `Map.set` on the successors of one key: an entry keeps its place, its value is replaced. -/
def setSuccessor (r : Rotation) : List Rotation → List Rotation
  | [] => [r]
  | s :: rest => if s.new = r.new then r :: rest else s :: setSuccessor r rest

def verified (rotations : List (Option Rotation)) : List Rotation :=
  rotations.filterMap fun input ↦
    match verifyRotation crypto acceptLegacySigOld input with
    | .ok r _ => some r
    | .rejected _ => none

def successors (rotations : List (Option Rotation)) (key : PublicKeyHex) : List Rotation :=
  ((verified crypto acceptLegacySigOld rotations).filter fun r ↦ r.old = key).foldl
    (fun next r ↦ setSuccessor r next) []

/-- Follow successors from a key. `remaining` counts the rotations the depth limit still allows. -/
def walk (next : PublicKeyHex → List Rotation) :
    ℕ → List PublicKeyHex → PublicKeyHex → List Rotation × PublicKeyHex × SuccessorStop
  | remaining, seen, current =>
    match next current with
    | [] => ([], current, .finish)
    | [r] =>
      if r.new ∈ seen then ([], current, .cycle)
      else match remaining with
        | 0 => ([], current, .depth)
        | remaining + 1 =>
          let (chain, last, stop) := walk next remaining (r.new :: seen) r.new
          (r :: chain, last, stop)
    | _ :: _ :: _ => ([], current, .fork)

structure SuccessorResolution where
  key : PublicKeyHex
  current : PublicKeyHex
  chain : List Rotation
  rejected : List (Option Rotation × RotationRejection)
  stoppedBecause : SuccessorStop

def resolveSuccessor (key : PublicKeyHex) (rotations : List (Option Rotation)) :
    SuccessorResolution :=
  let (chain, current, stop) :=
    walk (successors crypto acceptLegacySigOld rotations) maxRotationDepth [key] key
  { key, current, chain
    rejected := rotations.filterMap fun input ↦
      match verifyRotation crypto acceptLegacySigOld input with
      | .ok _ _ => none
      | .rejected reason => some (input, reason)
    stoppedBecause := stop }

def isSuccessorOf (candidate key : PublicKeyHex) (rotations : List (Option Rotation)) : Bool :=
  candidate = key ||
    (resolveSuccessor crypto acceptLegacySigOld key rotations).current = candidate

/-- Each key of a chain ends where the rotation that replaced it is dated; the last is open. -/
def lineageOf : PublicKeyHex → List Rotation → List PartyKey
  | key, [] => [⟨key, none⟩]
  | key, r :: rest => ⟨key, some r.rotatedAt⟩ :: lineageOf r.new rest

def keyLineage (key : PublicKeyHex) (rotations : List (Option Rotation)) : List PartyKey :=
  lineageOf key (resolveSuccessor crypto acceptLegacySigOld key rotations).chain

end Rotation

end Servanda
