import Mathlib.Data.Char
import Mathlib.Data.List.Lex
import Mathlib.Data.List.Sort
import Mathlib.Logic.Function.Basic
import Servanda.Crypto
import Servanda.Directory

namespace Servanda

/-- A promise of the persona's own, with the edges it waits for. -/
structure Commitment extends CommitmentHashInput where
  conditions : List Sha256Hex
  deriving DecidableEq

inductive ExpectationState
  | opened | closed
  deriving DecidableEq, Repr

/-- What someone else said they would do. It never leaves the vault. -/
structure Expectation where
  expect : String
  /-- The member `from`. -/
  source : Counterparty
  since : Rfc3339
  context : Option String
  state : ExpectationState
  deriving DecidableEq

structure EdgeMeta where
  dismissed : Bool := false
  plaintextDeletedAt : Option Rfc3339 := none

structure Publish where
  edgeId : Sha256Hex
  scope : PublicKeyHex
  signer : PublicKeyHex

/-- What a vault holds for one persona. The files of a chain are given in the order of their
numbers, as they were written. -/
structure Subtree where
  commitments : Directory (Prod.fst : Sha256Hex × Commitment → Sha256Hex)
  expectations : Directory (Prod.fst : Sha256Hex × Expectation → Sha256Hex)
  edges : Directory Edge.edgeId
  files : Sha256Hex → List Assertion
  edgeMeta : Sha256Hex → EdgeMeta
  publishRecords : List Publish
  /-- Filed under the subject they name, as are the revocations. -/
  attestations : PublicKeyHex → Option Attestation
  revocations : PublicKeyHex → Option Revocation
  /-- The organisations whose domain anchor is held. -/
  domainAnchors : PublicKeyHex → Bool
  rotations : Directory Rotation.new

def fileName (seq : ℕ) : List Char := padStart 4 seq ++ ".json".toList

namespace Subtree

def empty : Subtree where
  commitments := .empty
  expectations := .empty
  edges := .empty
  files _ := []
  edgeMeta _ := {}
  publishRecords := []
  attestations _ := none
  revocations _ := none
  domainAnchors _ := false
  rotations := .empty

variable (crypto : Crypto) (s : Subtree)

def putCommitment (c : Commitment) : Subtree :=
  { s with commitments := s.commitments.put (crypto.commitmentHash c.toCommitmentHashInput, c) }

def getCommitment (commitmentHash : Sha256Hex) : Option Commitment :=
  (s.commitments.get? commitmentHash).map Prod.snd

def putExpectation (id : Sha256Hex) (e : Expectation) : Subtree :=
  { s with expectations := s.expectations.put (id, e) }

def getExpectation (id : Sha256Hex) : Option Expectation := (s.expectations.get? id).map Prod.snd

def listEdgeIds : List Sha256Hex := s.edges.values.map Edge.edgeId

def getEdge (edgeId : Sha256Hex) : Option Edge := s.edges.get? edgeId

/-- `none` where the vault throws: the identifier does not bind the body, or binds another one. -/
def putEdge (edge : Edge) : Option Subtree :=
  if !crypto.edgeIdBindsBody edge then none
  else match s.getEdge edge.edgeId with
    | some held =>
      if crypto.hashCanonical (.edge held) ≠ crypto.hashCanonical (.edge edge) then none else some s
    | none => some { s with edges := s.edges.put edge }

/-- The next number names no file yet, so the exclusive create of a single handle succeeds. -/
def appendAssertion (a : Assertion) : Subtree :=
  { s with files := Function.update s.files a.edgeId (s.files a.edgeId ++ [a]) }

def getAssertions (edgeId : Sha256Hex) : List Assertion :=
  ((s.files edgeId).zipIdx.insertionSort fun x y ↦ fileName x.2 ≤ fileName y.2).map Prod.fst

def getEdgeMeta (edgeId : Sha256Hex) : EdgeMeta := s.edgeMeta edgeId

def putEdgeMeta (edgeId : Sha256Hex) (m : EdgeMeta) : Subtree :=
  { s with edgeMeta := Function.update s.edgeMeta edgeId m }

def putRotation (r : Rotation) : Subtree := { s with rotations := s.rotations.put r }

def listRotations : List Rotation := s.rotations.values

end Subtree

theorem padStart_four {n : ℕ} (h : n < 10000) : padStart 4 n =
    [Nat.digitChar (n / 1000), Nat.digitChar (n / 100 % 10), Nat.digitChar (n / 10 % 10),
      Nat.digitChar (n % 10)] := by
  have hdigits (m : ℕ) : Nat.toDigits 10 m =
      if m < 10 then [m.digitChar] else Nat.toDigits 10 (m / 10) ++ [(m % 10).digitChar] :=
    Nat.toDigits_eq_if (by decide)
  have h₁₀₀ : n / 10 / 10 = n / 100 := Nat.div_div_eq_div_mul n 10 10
  have h₁₀₀₀ : n / 100 / 10 = n / 1000 := Nat.div_div_eq_div_mul n 100 10
  unfold padStart
  by_cases h₁ : n < 10
  · rw [hdigits, if_pos h₁, Nat.div_eq_of_lt (by omega : n < 1000),
      Nat.div_eq_of_lt (by omega : n < 100), Nat.div_eq_of_lt h₁, Nat.mod_eq_of_lt h₁]
    rfl
  by_cases h₂ : n < 100
  · rw [hdigits, if_neg h₁, hdigits, if_pos (by omega), Nat.div_eq_of_lt (by omega : n < 1000),
      Nat.div_eq_of_lt h₂, Nat.mod_eq_of_lt (by omega : n / 10 < 10)]
    rfl
  by_cases h₃ : n < 1000
  · rw [hdigits, if_neg h₁, hdigits, if_neg (by omega), hdigits, if_pos (by omega),
      Nat.div_eq_of_lt h₃, h₁₀₀, Nat.mod_eq_of_lt (by omega : n / 100 < 10)]
    rfl
  · rw [hdigits, if_neg h₁, hdigits, if_neg (by omega), hdigits, if_neg (by omega), hdigits,
      if_pos (by omega), h₁₀₀, h₁₀₀₀]
    rfl

theorem digitChar_lt {a b : ℕ} (h : a < b) (hb : b < 10) : a.digitChar < b.digitChar := by
  have hall : ∀ x y : Fin 10, x < y → Nat.digitChar x < Nat.digitChar y := by decide
  exact hall ⟨a, h.trans hb⟩ ⟨b, hb⟩ h

theorem fileName_lt {i j : ℕ} (h : i < j) (hj : j < 10000) : fileName i < fileName j := by
  have hdigit (n : ℕ) : n % 10 < 10 := Nat.mod_lt n (by decide)
  have hlex : i / 1000 < j / 1000 ∨ i / 1000 = j / 1000 ∧ (i / 100 % 10 < j / 100 % 10 ∨
      i / 100 % 10 = j / 100 % 10 ∧ (i / 10 % 10 < j / 10 % 10 ∨
        i / 10 % 10 = j / 10 % 10 ∧ i % 10 < j % 10)) := by omega
  simp only [fileName, padStart_four (h.trans hj), padStart_four hj, List.cons_append]
  rcases hlex with ha | ⟨ha, hb | ⟨hb, hc | ⟨hc, hd⟩⟩⟩
  · exact List.Lex.rel (digitChar_lt ha (by omega))
  · rw [ha]
    exact List.Lex.cons (List.Lex.rel (digitChar_lt hb (hdigit _)))
  · rw [ha, hb]
    exact List.Lex.cons (List.Lex.cons (List.Lex.rel (digitChar_lt hc (hdigit _))))
  · rw [ha, hb, hc]
    exact List.Lex.cons (List.Lex.cons (List.Lex.cons (List.Lex.rel (digitChar_lt hd (hdigit _)))))

namespace Subtree

variable {crypto : Crypto} {s : Subtree}

theorem getAssertions_eq {edgeId : Sha256Hex} (h : (s.files edgeId).length ≤ 10000) :
    s.getAssertions edgeId = s.files edgeId := by
  have hsorted : (s.files edgeId).zipIdx.Pairwise fun x y ↦ fileName x.2 ≤ fileName y.2 := by
    rw [List.pairwise_iff_getElem]
    intro i j hi hj hij
    simp only [List.getElem_zipIdx, List.length_zipIdx, Nat.zero_add] at hi hj ⊢
    exact (fileName_lt hij (by omega)).le
  rw [getAssertions, hsorted.insertionSort_eq, List.zipIdx_map_fst]

theorem length_getAssertions (edgeId : Sha256Hex) :
    (s.getAssertions edgeId).length = (s.files edgeId).length := by
  simp [getAssertions, List.length_insertionSort]

@[simp] theorem files_appendAssertion (s : Subtree) (a : Assertion) :
    (s.appendAssertion a).files a.edgeId = s.files a.edgeId ++ [a] := by
  simp [appendAssertion]

theorem files_appendAssertion_of_ne (s : Subtree) {a : Assertion} {edgeId : Sha256Hex}
    (h : edgeId ≠ a.edgeId) : (s.appendAssertion a).files edgeId = s.files edgeId := by
  simp [appendAssertion, h]

theorem putEdge_cases {edge : Edge} {s' : Subtree} (h : s.putEdge crypto edge = some s') :
    crypto.edgeIdBindsBody edge = true ∧
      ((∃ held, s.getEdge edge.edgeId = some held ∧
          crypto.hashCanonical (.edge held) = crypto.hashCanonical (.edge edge) ∧ s' = s) ∨
        (s.getEdge edge.edgeId = none ∧ s' = { s with edges := s.edges.put edge })) := by
  unfold putEdge at h
  split_ifs at h with hbind
  refine ⟨by simpa using hbind, ?_⟩
  split at h
  next held hheld =>
    split_ifs at h with hne
    cases h
    exact .inl ⟨held, hheld, not_not.mp hne, rfl⟩
  next hnone =>
    cases h
    exact .inr ⟨hnone, rfl⟩

theorem putEdge_isSome {s' : Subtree} (h : s'.edges = s.edges) (edge : Edge) :
    (s'.putEdge crypto edge).isSome = (s.putEdge crypto edge).isSome := by
  have hget : s'.getEdge edge.edgeId = s.getEdge edge.edgeId := by rw [getEdge, getEdge, h]
  unfold putEdge
  rw [hget]
  split_ifs
  · rfl
  · cases s.getEdge edge.edgeId with
    | none => rfl
    | some held => dsimp only; split_ifs <;> rfl

end Subtree

end Servanda
