import Servanda.Register
import Servanda.Scan
import Servanda.Seal

/-! What a person is shown of a party and of a promise's state. -/

namespace Servanda.View

open Unicode Scan

inductive SealShape
  | unsealed | half | joined | marked | cracked | arrow
  deriving DecidableEq, Repr

structure SealView where
  shape : SealShape
  label : Text
  deriving DecidableEq

def shapeByState : WireAssertionState → SealShape
  | .proposed => .half
  | .confirmed | .opened => .joined
  | .closed | .released | .expired => .marked
  | .disputed => .cracked
  | .superseded => .arrow

def labelByShape : SealShape → Text
  | .unsealed => text "not sent"
  | .half => text "sent, waiting for their half"
  | .joined => text "agreed by both"
  | .marked => text "closed and marked"
  | .cracked => text "disagreed"
  | .arrow => text "replaced by a newer one"

def sealFor (state : WireAssertionState) : SealView :=
  ⟨shapeByState state, labelByShape (shapeByState state)⟩

/-- The seal of what has not been sent: that of the states `none` and `vault-local`. -/
def noSeal : SealView := ⟨.unsealed, labelByShape .unsealed⟩

inductive SealRelief
  | flat | continuity | attested | domain | external
  deriving DecidableEq, Repr

def reliefByLevel : VerificationLevel → SealRelief
  | .zero => .flat
  | .one => .continuity
  | .two => .attested
  | .three => .domain
  | .ext => .external

structure TrustView where
  level : VerificationLevel
  relief : SealRelief
  label : Text
  deriving DecidableEq

def trustFor (level : VerificationLevel) : TrustView where
  level := level
  relief := reliefByLevel level
  label := match level with
    | .zero => text "unconfirmed name"
    | .one => text "same person as before"
    | .two => text "vouched for"
    | .three => text "verified at their domain"
    | .ext => text "verified elsewhere"

structure PartyView where
  display : Text
  isKey : Bool
  trust : TrustView
  deriving DecidableEq

def shortKey (key : Text) : Text := key.take 6 ++ text "…" ++ key.drop (key.length - 4)

def nameBearingLevels : List VerificationLevel := [.two, .three]

def partyFor (value : Text) (origin : NameOrigin) (level : VerificationLevel) : Option PartyView :=
  if trim value = [] then none
  else
    let isKey := isHex64 value
    if origin = .attested ∧ !isKey ∧ level ∉ nameBearingLevels then
      some ⟨text "someone", false, trustFor level⟩
    else some ⟨if isKey then shortKey value else value, isKey, trustFor level⟩

theorem isSpace_of_hex {u : CodeUnit} (h : isHexUnit u = true) : isSpace u = false := by
  simp only [isHexUnit, Bool.or_eq_true, Bool.and_eq_true, decide_eq_true_eq] at h
  simp only [isSpace, Bool.or_eq_false_iff, List.mem_cons, List.not_mem_nil, decide_eq_false_iff_not,
    Bool.and_eq_false_iff, or_false, not_or]
  omega

theorem trim_hexId (key : PublicKeyHex) : trim (hexId key).val ≠ [] := by
  obtain ⟨s, hs⟩ := hexId key
  simp only [isHex64, Bool.and_eq_true, beq_iff_eq, List.all_eq_true] at hs
  obtain ⟨hlength, hhex⟩ := hs
  have hplain : ∀ u ∈ s, isSpace u = false := fun u hu ↦ isSpace_of_hex (hhex u hu)
  have hdrop : s.dropWhile isSpace = s := by
    cases s with
    | nil => rfl
    | cons u s => simp [hplain u List.mem_cons_self]
  intro h
  rw [trim, hdrop, List.rdropWhile_eq_nil_iff] at h
  cases s with
  | nil => simp at hlength
  | cons u s => simpa [hplain u List.mem_cons_self] using h u List.mem_cons_self

theorem partyFor_hexId (key : PublicKeyHex) (origin : NameOrigin) (level : VerificationLevel) :
    partyFor (hexId key).val origin level ≠ none := by
  unfold partyFor
  rw [if_neg (trim_hexId key)]
  dsimp only
  split_ifs <;> exact Option.some_ne_none _

end Servanda.View
