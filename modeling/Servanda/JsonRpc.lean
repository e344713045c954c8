import Servanda.Json
import Servanda.Lines

/-!
The values `JSON.parse` yields, those it cannot hold in a number included, and the line that
`JSON.stringify` writes of one.
-/

namespace Servanda

open Unicode

namespace JsonRpc

/-- A parsed value. A numeral beyond the range of a number is read as an infinity. -/
inductive Value
  | null
  | bool (b : Bool)
  | num (n : JsNumber)
  | infinity (negative : Bool)
  | str (s : Text)
  | arr (items : List Value)
  | obj (members : List (Text × Value))

namespace Value

def isObject : Value → Bool
  | .obj _ => true
  | _ => false

def isNull : Value → Bool
  | .null => true
  | _ => false

/-- `v[key]` of a value other than `null`. -/
def member (v : Value) (key : Text) : Option Value :=
  match v with
  | .obj members => (members.find? (·.1 = key)).map Prod.snd
  | _ => none

theorem induction {P : Value → Prop} (null : P .null) (bool : ∀ b, P (.bool b))
    (num : ∀ n, P (.num n)) (infinity : ∀ b, P (.infinity b)) (str : ∀ s, P (.str s))
    (arr : ∀ items, (∀ v ∈ items, P v) → P (.arr items))
    (obj : ∀ members, (∀ m ∈ members, P m.2) → P (.obj members)) (v : Value) : P v := by
  refine @Value.rec P (fun items ↦ ∀ v ∈ items, P v) (fun members ↦ ∀ m ∈ members, P m.2)
    (fun m ↦ P m.2) null bool num infinity str arr obj ?_ ?_ ?_ ?_ ?_ v
  · exact List.forall_mem_nil _
  · exact fun v items hv hitems ↦ List.forall_mem_cons.mpr ⟨hv, hitems⟩
  · exact List.forall_mem_nil _
  · exact fun m members hm hmembers ↦ List.forall_mem_cons.mpr ⟨hm, hmembers⟩
  · exact fun _ _ h ↦ h

mutual

def stringify : Value → List Char
  | .null => "null".toList
  | .bool b => if b then "true".toList else "false".toList
  | .num n => n.digits
  | .infinity _ => "null".toList
  | .str s => serializeString s
  | .arr items => '[' :: commas (stringifyItems items) ++ [']']
  | .obj members => '{' :: commas (stringifyMembers members) ++ ['}']

def stringifyItems : List Value → List (List Char)
  | [] => []
  | v :: items => stringify v :: stringifyItems items

def stringifyMembers : List (Text × Value) → List (List Char)
  | [] => []
  | (key, v) :: members => (serializeString key ++ ':' :: stringify v) :: stringifyMembers members

end

mutual

/-- The value that a reader finds in the JSON text of one. -/
def written : Value → Value
  | .infinity _ => .null
  | .arr items => .arr (writtenItems items)
  | .obj members => .obj (writtenMembers members)
  | v => v

def writtenItems : List Value → List Value
  | [] => []
  | v :: items => written v :: writtenItems items

def writtenMembers : List (Text × Value) → List (Text × Value)
  | [] => []
  | (key, v) :: members => (key, written v) :: writtenMembers members

end

mutual

/-- `String(v)`. A member named `toString` is no function, and the conversion throws. -/
def asString : Value → Option Text
  | .null => some (text "null")
  | .bool b => some (if b then text "true" else text "false")
  | .num n => some (units n.digits)
  | .infinity negative => some (if negative then text "-Infinity" else text "Infinity")
  | .str s => some s
  | .arr items => (joinItems items).map fun pieces ↦ (text ",").intercalate pieces
  | .obj members =>
    if members.any (·.1 = text "toString") then none else some (text "[object Object]")

def joinItems : List Value → Option (List Text)
  | [] => some []
  | v :: items =>
    (if v.isNull then some [] else asString v).bind fun piece ↦ (joinItems items).map (piece :: ·)

end

end Value

theorem newline_notMem_hexText {w : ℕ} (b : BitVec w) : '\n' ∉ hexText b := by
  have hdigit : ∀ n < 16, hexDigit n ≠ '\n' := by decide
  intro hmem
  obtain ⟨i, -, hi⟩ := List.mem_map.mp hmem
  exact hdigit _ (Nat.mod_lt _ (by decide)) hi

theorem newline_notMem_quoteUnit (u : CodeUnit) : '\n' ∉ quoteUnit u := by
  unfold quoteUnit
  split_ifs with _ _ _ _ hnewline
  any_goals decide
  · simpa using newline_notMem_hexText u
  · refine fun hmem ↦ hnewline (BitVec.eq_of_toNat_eq ?_)
    exact Lines.ofNat_eq_newline (List.mem_singleton.mp hmem).symm

theorem pairScalar_ne_newline (u v : CodeUnit) : pairScalar u v ≠ '\n' := by
  intro hnewline
  have hval := Lines.ofNat_eq_newline hnewline
  omega

theorem newline_notMem_quoteUnits (s : Text) : '\n' ∉ quoteUnits s := by
  fun_induction quoteUnits s with
  | case1 => exact List.not_mem_nil
  | case2 u => exact newline_notMem_quoteUnit u
  | case3 u v rest _ ih =>
    exact List.not_mem_cons_of_ne_of_not_mem (pairScalar_ne_newline u v).symm ih
  | case4 u v rest _ ih =>
    rw [List.mem_append, not_or]
    exact ⟨newline_notMem_quoteUnit u, ih⟩

theorem newline_notMem_serializeString (s : Text) : '\n' ∉ serializeString s := by
  have hquote : '\n' ≠ '"' := by decide
  simp [serializeString, newline_notMem_quoteUnits, hquote]

theorem newline_notMem_commas {pieces : List (List Char)} (h : ∀ p ∈ pieces, '\n' ∉ p) :
    '\n' ∉ commas pieces := by
  have hcomma : '\n' ≠ ',' := by decide
  unfold commas
  induction pieces with
  | nil => simp [List.intercalate]
  | cons p pieces ih =>
    have hp := h p List.mem_cons_self
    have hpieces := ih fun q hq ↦ h q (List.mem_cons_of_mem _ hq)
    cases pieces with
    | nil => simpa [List.intercalate] using hp
    | cons q pieces =>
      rw [List.intercalate_cons_cons]
      simp [hp, hcomma, hpieces]

namespace Value

theorem stringifyItems_eq (items : List Value) : stringifyItems items = items.map stringify := by
  induction items with
  | nil => rfl
  | cons v items ih => rw [stringifyItems, ih, List.map_cons]

theorem stringifyMembers_eq (members : List (Text × Value)) : stringifyMembers members =
    members.map fun m ↦ serializeString m.1 ++ ':' :: stringify m.2 := by
  induction members with
  | nil => rfl
  | cons m members ih => rw [stringifyMembers, ih, List.map_cons]

/-- A line of a value is one line. -/
theorem newline_notMem_stringify (v : Value) : '\n' ∉ stringify v := by
  induction v using Value.induction with
  | null => decide
  | infinity negative => exact (by decide : '\n' ∉ "null".toList)
  | bool b => cases b <;> decide
  | num n =>
    intro hmem
    rcases n.numeric.2 _ hmem with hdigit | hsign
    · revert hdigit
      decide
    · revert hsign
      decide
  | str s => exact newline_notMem_serializeString s
  | arr items ih =>
    have hcommas : '\n' ∉ commas (items.map stringify) :=
      newline_notMem_commas (List.forall_mem_map.mpr ih)
    simpa [stringify, stringifyItems_eq] using hcommas
  | obj members ih =>
    have hcommas := @newline_notMem_commas
      (members.map fun m ↦ serializeString m.1 ++ ':' :: stringify m.2)
      (List.forall_mem_map.mpr fun m hm ↦ by
        simpa [newline_notMem_serializeString] using ih m hm)
    simpa [stringify, stringifyMembers_eq] using hcommas

end Value

end JsonRpc

end Servanda
