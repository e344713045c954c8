import Mathlib.Data.List.DropRight
import Servanda.Unicode

/-!
Reading text: whitespace, code points, and the search for the matches of a pattern. A pattern says
what it reads at a position, and how many code units it takes there.
-/

namespace Servanda.Scan

open Unicode

variable {α : Type}

def unit (c : Char) : CodeUnit := BitVec.ofNat 16 c.toNat

/-- White space and line terminators. -/
def isSpace (u : CodeUnit) : Bool :=
  u.toNat ∈ [0x09, 0x0A, 0x0B, 0x0C, 0x0D, 0x20, 0xA0, 0x1680, 0x2028, 0x2029, 0x202F, 0x205F, 0x3000,
    0xFEFF] || 0x2000 ≤ u.toNat && u.toNat ≤ 0x200A

def trim (s : List CodeUnit) : List CodeUnit := (s.dropWhile isSpace).rdropWhile isSpace

/-- The code points of a text: a surrogate pair is one of them, and so is a lone surrogate. -/
def points : List CodeUnit → List (List CodeUnit)
  | [] => []
  | [u] => [[u]]
  | u :: v :: rest =>
    if isHigh u && isLow v then [u, v] :: points rest else [u] :: points (v :: rest)

def pointValue : List CodeUnit → ℕ
  | [u] => u.toNat
  | high :: low :: _ => 0x10000 + (high.toNat - 0xD800) * 0x400 + (low.toNat - 0xDC00)
  | [] => 0

/-- What a pattern reads at the front of a text, and how long the match is. -/
abbrev Pattern (α : Type) := List CodeUnit → Option (α × ℕ)

/-- A text from left to right: the matches of a pattern, and the code units between them. -/
def scan (p : Pattern α) : ℕ → List CodeUnit → List (α ⊕ CodeUnit)
  | _, [] => []
  | skip + 1, _ :: s => scan p skip s
  | 0, u :: s =>
    match p (u :: s) with
    | some (a, n) => .inl a :: scan p (n - 1) s
    | none => .inr u :: scan p 0 s

def matchAll (p : Pattern α) (s : List CodeUnit) : List α :=
  (scan p 0 s).filterMap Sum.getLeft?

def replaceAll (p : Pattern (List CodeUnit)) (s : List CodeUnit) : List CodeUnit :=
  (scan p 0 s).flatMap (Sum.elim id fun u ↦ [u])

/-- A run of at least so many code units of a class, with what replaces it. -/
def run (least : ℕ) (inClass : CodeUnit → Bool) (out : List CodeUnit) : Pattern (List CodeUnit) :=
  fun s ↦
    let n := (s.takeWhile inClass).length
    if least ≤ n then some (out, n) else none

/-- The rest of a text after a word at its front. -/
def dropWord : List CodeUnit → List CodeUnit → Option (List CodeUnit)
  | [], s => some s
  | c :: cs, u :: s => if c = u then dropWord cs s else none
  | _ :: _, [] => none

theorem dropWord_append (word rest : List CodeUnit) : dropWord word (word ++ rest) = some rest := by
  induction word with
  | nil => rfl
  | cons u word ih =>
    rw [List.cons_append, dropWord, if_pos rfl]
    exact ih

/-- Whether a code unit is a letter, in either case. Under simple case folding the long s is an `s`
and the Kelvin sign a `k`. -/
def foldsTo (c : Char) (u : CodeUnit) : Bool :=
  u = unit c || u = unit c.toUpper || c = 's' && u = 0x017F || c = 'k' && u = 0x212A

/-- The rest of a text after a word at its front, in any case. -/
def dropFolded : List Char → List CodeUnit → Option (List CodeUnit)
  | [], s => some s
  | c :: cs, u :: s => if foldsTo c u then dropFolded cs s else none
  | _ :: _, [] => none

/-- A word character, where case is ignored. -/
def isWordUnit (u : CodeUnit) : Bool :=
  0x30 ≤ u.toNat && u.toNat ≤ 0x39 || 0x41 ≤ u.toNat && u.toNat ≤ 0x5A ||
    0x61 ≤ u.toNat && u.toNat ≤ 0x7A || u = 0x5F || u = 0x017F || u = 0x212A

/-- The rest of a text after the first of a code unit. -/
def dropThrough (u : CodeUnit) (s : List CodeUnit) : Option (List CodeUnit) :=
  match s.dropWhile (· ≠ u) with
  | [] => none
  | _ :: rest => some rest

/-- What is read at the first position where something is. -/
def firstSuffix (read : List CodeUnit → Option α) : List CodeUnit → Option α
  | [] => read []
  | u :: s =>
    match read (u :: s) with
    | some a => some a
    | none => firstSuffix read s

section Many

variable {α β : Type}

/-- Items read one after another, as long as there is one. -/
def many (item : List β → Option (α × List β)) : ℕ → List β → List α × List β
  | 0, s => ([], s)
  | fuel + 1, s =>
    match item s with
    | none => ([], s)
    | some (a, rest) =>
      let others := many item fuel rest
      (a :: others.1, others.2)

variable {item : List β → Option (α × List β)} {write : α → List β} (Ends : List β → Prop)
  {as : List α} {rest : List β}

/-- Items that are read back each for itself are read back one after another. -/
theorem many_flatMap (hwrite : ∀ a ∈ as, write a ≠ [] ∧ ∀ s, Ends (write a ++ s)) (hends : Ends rest)
    (hnone : item rest = none)
    (hitem : ∀ a ∈ as, ∀ s, Ends s → item (write a ++ s) = some (a, s)) {fuel : ℕ}
    (hfuel : (as.flatMap write).length ≤ fuel) :
    many item fuel (as.flatMap write ++ rest) = (as, rest) := by
  induction as generalizing fuel with
  | nil =>
    cases fuel with
    | zero => rfl
    | succ fuel => rw [List.flatMap_nil, List.nil_append, many, hnone]
  | cons a as ih =>
    obtain ⟨ha, has⟩ := List.forall_mem_cons.mp hitem
    obtain ⟨⟨hne, -⟩, hothers⟩ := List.forall_mem_cons.mp hwrite
    have hlength : 0 < (write a).length := List.length_pos_iff.mpr hne
    rw [List.flatMap_cons, List.length_append] at hfuel
    obtain ⟨fuel, rfl⟩ := Nat.exists_eq_add_one_of_ne_zero (n := fuel) (by omega)
    have hrest : Ends (as.flatMap write ++ rest) := by
      cases as with
      | nil => exact hends
      | cons b bs =>
        rw [List.flatMap_cons, List.append_assoc]
        exact (hothers b List.mem_cons_self).2 _
    rw [List.flatMap_cons, List.append_assoc, many, ha _ hrest]
    dsimp only
    rw [ih hothers has (by omega)]

end Many

end Servanda.Scan
