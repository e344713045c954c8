import Servanda.JsonRpc
import Servanda.Scan

/-!
`JSON.parse`, and what it reads in canonical text. The numerals are the engine's: what it makes of
one is a parameter.
-/

namespace Servanda

open Unicode

namespace JsonRpc.Value

mutual

/-- A value without an infinity in it. -/
def ofJson : Json → Value
  | .null => .null
  | .bool b => .bool b
  | .num n => .num n
  | .str s => .str s
  | .arr items => .arr (ofItems items)
  | .obj members => .obj (ofMembers members)

def ofItems : List Json → List Value
  | [] => []
  | v :: items => ofJson v :: ofItems items

def ofMembers : List (Text × Json) → List (Text × Value)
  | [] => []
  | (key, v) :: members => (key, ofJson v) :: ofMembers members

end

end JsonRpc.Value

namespace Json

mutual

/-- A value with the members of every object in it in the order of their names. -/
def sorted : Json → Json
  | .arr items => .arr (sortedItems items)
  | .obj members => .obj (sortKeys (sortedMembers members))
  | v => v

def sortedItems : List Json → List Json
  | [] => []
  | v :: items => sorted v :: sortedItems items

def sortedMembers : List (Text × Json) → List (Text × Json)
  | [] => []
  | (key, v) :: members => (key, sorted v) :: sortedMembers members

end

/-- Of the numbers in a value `P` holds. -/
inductive Numbers (P : JsNumber → Prop) : Json → Prop
  | null : Numbers P .null
  | bool (b : Bool) : Numbers P (.bool b)
  | num {n : JsNumber} (h : P n) : Numbers P (.num n)
  | str (s : Text) : Numbers P (.str s)
  | arr {items : List Json} (h : ∀ v ∈ items, Numbers P v) : Numbers P (.arr items)
  | obj {members : Members} (h : ∀ m ∈ members, Numbers P m.2) : Numbers P (.obj members)

theorem sortedItems_eq (items : List Json) : sortedItems items = items.map sorted := by
  induction items with
  | nil => rfl
  | cons v items ih => rw [sortedItems, ih, List.map_cons]

theorem sortedMembers_eq (members : Members) :
    sortedMembers members = members.map fun m ↦ (m.1, m.2.sorted) := by
  induction members with
  | nil => rfl
  | cons m members ih => rw [sortedMembers, ih, List.map_cons]

end Json

theorem sortKeys_map {α β : Type} (f : α → β) (members : List (Text × α)) :
    sortKeys (members.map fun m ↦ (m.1, f m.2)) =
      (sortKeys members).map fun m ↦ (m.1, f m.2) := by
  symm
  exact List.map_insertionSort _ _ _ _ fun _ _ _ _ ↦ Iff.rfl

theorem sortKeys_perm {α : Type} (members : List (Text × α)) : (sortKeys members).Perm members :=
  List.perm_insertionSort _ _

section Written

variable {depth : ℕ}

/-- The text of a value that is not refused. -/
def written (depth : ℕ) (v : Json) : List Char := (write depth v).getD []

theorem writeItems_eq_some {items : List Json} {pieces : List (List Char)}
    (h : writeItems depth items = some pieces) :
    pieces = items.map (written depth) ∧ ∀ v ∈ items, write depth v = some (written depth v) := by
  induction items generalizing pieces with
  | nil =>
    rw [writeItems, Option.some.injEq] at h
    exact ⟨h.symm, List.forall_mem_nil _⟩
  | cons v items ih =>
    rw [writeItems] at h
    cases hv : write depth v with
    | none => simp [hv] at h
    | some piece =>
      cases hitems : writeItems depth items with
      | none => simp [hv, hitems] at h
      | some rest =>
        obtain ⟨hrest, hall⟩ := ih hitems
        have hwritten : written depth v = piece := by rw [written, hv, Option.getD_some]
        simp only [hv, hitems, Option.some.injEq] at h
        refine ⟨?_, List.forall_mem_cons.mpr ⟨by rw [hwritten, hv], hall⟩⟩
        rw [← h, hrest, List.map_cons, hwritten]

theorem writeMembers_eq_some {members : Members} {pieces : List (Text × List Char)}
    (h : writeMembers depth members = some pieces) :
    pieces = members.map (fun m ↦ (m.1, written depth m.2)) ∧
      ∀ m ∈ members, write depth m.2 = some (written depth m.2) := by
  induction members generalizing pieces with
  | nil =>
    rw [writeMembers, Option.some.injEq] at h
    exact ⟨h.symm, List.forall_mem_nil _⟩
  | cons m members ih =>
    obtain ⟨key, v⟩ := m
    rw [writeMembers] at h
    cases hv : write depth v with
    | none => simp [hv] at h
    | some piece =>
      cases hmembers : writeMembers depth members with
      | none => simp [hv, hmembers] at h
      | some rest =>
        obtain ⟨hrest, hall⟩ := ih hmembers
        have hwritten : written depth v = piece := by rw [written, hv, Option.getD_some]
        simp only [hv, hmembers, Option.some.injEq] at h
        refine ⟨?_, List.forall_mem_cons.mpr ⟨by rw [hwritten, hv], hall⟩⟩
        rw [← h, hrest, List.map_cons, hwritten]

end Written

namespace JsonParse

open JsonRpc
open Scan (unit dropWord dropWord_append)

/-- What the engine reads a numeral as, or `none` where the text is no numeral. -/
abbrev Numerals := List Char → Option Value

def isBlank (u : CodeUnit) : Bool := u = 0x20 || u = 0x09 || u = 0x0A || u = 0x0D

def skip (s : Text) : Text := s.dropWhile isBlank

def isNumeral (u : CodeUnit) : Bool :=
  0x30 ≤ u.toNat && u.toNat ≤ 0x39 || u = unit '.' || u = unit '+' || u = unit '-' || u = unit 'e' ||
    u = unit 'E'

/-- The value of a hexadecimal digit, in either case. -/
def hexDigit? (u : CodeUnit) : Option ℕ :=
  if 0x30 ≤ u.toNat && u.toNat ≤ 0x39 then some (u.toNat - 0x30)
  else if 0x41 ≤ u.toNat && u.toNat ≤ 0x46 then some (u.toNat - 0x37)
  else if 0x61 ≤ u.toNat && u.toNat ≤ 0x66 then some (u.toNat - 0x57)
  else none

def hexUnit? (a b c d : CodeUnit) : Option CodeUnit :=
  match hexDigit? a, hexDigit? b, hexDigit? c, hexDigit? d with
  | some a, some b, some c, some d => some (BitVec.ofNat 16 (((a * 16 + b) * 16 + c) * 16 + d))
  | _, _, _, _ => none

/-- What a letter stands for after a backslash. -/
def escaped? (u : CodeUnit) : Option CodeUnit :=
  if u = unit '"' || u = unit '\\' || u = unit '/' then some u
  else if u = unit 'b' then some 0x08
  else if u = unit 'f' then some 0x0C
  else if u = unit 'n' then some 0x0A
  else if u = unit 'r' then some 0x0D
  else if u = unit 't' then some 0x09
  else none

/-- A string after its opening quote, with the text after its closing one. -/
def string : Text → Option (Text × Text)
  | [] => none
  | u :: rest =>
    if u = unit '"' then some ([], rest)
    else if u = unit '\\' then
      match rest with
      | [] => none
      | v :: rest =>
        if v = unit 'u' then
          match rest with
          | a :: b :: c :: d :: rest =>
            (hexUnit? a b c d).bind fun w ↦ (string rest).map fun r ↦ (w :: r.1, r.2)
          | _ => none
        else (escaped? v).bind fun w ↦ (string rest).map fun r ↦ (w :: r.1, r.2)
    else if u.toNat < 0x20 then none
    else (string rest).map fun r ↦ (u :: r.1, r.2)

/-- The rest of a text after a punctuator. -/
def punctuator (c : Char) (s : Text) : Option Text := dropWord [unit c] (skip s)

/-- A member defined on an object: a name it has keeps its place and takes the new value. -/
def define (out : List (Text × Value)) (m : Text × Value) : List (Text × Value) :=
  if m.1 ∈ out.map Prod.fst then out.map fun n ↦ if n.1 = m.1 then m else n else out ++ [m]

def record (members : List (Text × Value)) : List (Text × Value) := members.foldl define []

variable (numerals : Numerals)

mutual

/-- A value at the front of a text, with the text after it. -/
def value (fuel : ℕ) (s : Text) : Option (Value × Text) :=
  match fuel, skip s with
  | 0, _ => none
  | _, [] => none
  | fuel + 1, u :: rest =>
    if u = unit '"' then (string rest).map fun r ↦ (.str r.1, r.2)
    else if u = unit '[' then
      match punctuator ']' rest with
      | some rest => some (.arr [], rest)
      | none => (elements fuel rest).map fun r ↦ (.arr r.1, r.2)
    else if u = unit '{' then
      match punctuator '}' rest with
      | some rest => some (.obj [], rest)
      | none => (members fuel rest).map fun r ↦ (.obj (record r.1), r.2)
    else if isNumeral u then
      (numerals (scalars ((u :: rest).takeWhile isNumeral))).map fun n ↦
        (n, (u :: rest).dropWhile isNumeral)
    else match dropWord (text "null") (u :: rest), dropWord (text "true") (u :: rest),
        dropWord (text "false") (u :: rest) with
      | some rest, _, _ => some (.null, rest)
      | _, some rest, _ => some (.bool true, rest)
      | _, _, some rest => some (.bool false, rest)
      | none, none, none => none

/-- The elements of an array that has some, to its closing bracket. -/
def elements (fuel : ℕ) (s : Text) : Option (List Value × Text) :=
  match fuel with
  | 0 => none
  | fuel + 1 =>
    (value fuel s).bind fun first ↦
      match punctuator ',' first.2 with
      | some rest => (elements fuel rest).map fun r ↦ (first.1 :: r.1, r.2)
      | none => (punctuator ']' first.2).map fun rest ↦ ([first.1], rest)

/-- The members of an object that has some, to its closing brace. -/
def members (fuel : ℕ) (s : Text) : Option (List (Text × Value) × Text) :=
  match fuel with
  | 0 => none
  | fuel + 1 =>
    ((punctuator '"' s).bind string).bind fun key ↦
      ((punctuator ':' key.2).bind (value fuel)).bind fun first ↦
        match punctuator ',' first.2 with
        | some rest => (members fuel rest).map fun r ↦ ((key.1, first.1) :: r.1, r.2)
        | none => (punctuator '}' first.2).map fun rest ↦ ([(key.1, first.1)], rest)

end

/-- `JSON.parse`: `none` where it throws. A value takes two units of fuel for each code unit of its
text at most. -/
def parse (s : Text) : Option Value :=
  (value numerals (2 * s.length + 1) s).bind fun r ↦ if skip r.2 = [] then some r.1 else none

theorem unitsOf_pairScalar {u v : CodeUnit} (hu : isHigh u = true) (hv : isLow v = true) :
    unitsOf (pairScalar u v) = [u, v] := by
  simp only [isHigh, isLow, Bool.and_eq_true, decide_eq_true_eq] at hu hv
  set n := 0x10000 + (u.toNat - 0xD800) * 0x400 + (v.toNat - 0xDC00) with hn
  have hval : (pairScalar u v).toNat = n := by
    rw [pairScalar, Char.ofNat, dif_pos (Or.inr (by omega))]
    rfl
  rw [unitsOf, hval, if_neg (by omega), List.cons.injEq, List.cons.injEq]
  refine ⟨BitVec.eq_of_toNat_eq ?_, BitVec.eq_of_toNat_eq ?_, rfl⟩
  · rw [BitVec.toNat_ofNat]
    omega
  · rw [BitVec.toNat_ofNat]
    omega

theorem hexDigit?_hexDigit : ∀ n < 16, hexDigit? (unit (hexDigit n)) = some n := by decide

theorem unitsOf_hexDigit : ∀ n < 16, unitsOf (hexDigit n) = [unit (hexDigit n)] := by decide

/-- Four hexadecimal digits read back the code unit they spell. -/
theorem units_hexText (u : CodeUnit) :
    ∃ a b c d, units (hexText u) = [a, b, c, d] ∧ hexUnit? a b c d = some u := by
  have hlt := u.isLt
  have htext : hexText u = [hexDigit (u.toNat / 4096 % 16), hexDigit (u.toNat / 256 % 16),
      hexDigit (u.toNat / 16 % 16), hexDigit (u.toNat % 16)] := by
    simp [hexText, List.range_succ]
  have hdigit (n : ℕ) : unitsOf (hexDigit (n % 16)) = [unit (hexDigit (n % 16))] :=
    unitsOf_hexDigit _ (Nat.mod_lt _ (by decide))
  have hvalue (n : ℕ) : hexDigit? (unit (hexDigit (n % 16))) = some (n % 16) :=
    hexDigit?_hexDigit _ (Nat.mod_lt _ (by decide))
  refine ⟨unit (hexDigit (u.toNat / 4096 % 16)), unit (hexDigit (u.toNat / 256 % 16)),
    unit (hexDigit (u.toNat / 16 % 16)), unit (hexDigit (u.toNat % 16)), ?_, ?_⟩
  · simp only [htext, units, List.flatMap_cons, List.flatMap_nil, hdigit, List.singleton_append,
      List.append_nil]
  · simp only [hexUnit?, hvalue, Option.some.injEq]
    apply BitVec.eq_of_toNat_eq
    rw [BitVec.toNat_ofNat]
    omega

theorem string_close (rest : Text) : string (unit '"' :: rest) = some ([], rest) := by
  rw [string.eq_def]
  exact if_pos rfl

theorem string_plain {u : CodeUnit} (hquote : u ≠ unit '"') (hslash : u ≠ unit '\\')
    (hcontrol : 0x20 ≤ u.toNat) (rest : Text) :
    string (u :: rest) = (string rest).map fun r ↦ (u :: r.1, r.2) := by
  rw [string.eq_def]
  dsimp only
  rw [if_neg hquote, if_neg hslash, if_neg (by omega)]

theorem string_escape {v w : CodeUnit} (hv : v ≠ unit 'u') (hw : escaped? v = some w) (rest : Text) :
    string (unit '\\' :: v :: rest) = (string rest).map fun r ↦ (w :: r.1, r.2) := by
  rw [string.eq_def]
  dsimp only
  rw [if_neg (by decide), if_pos rfl, if_neg hv, hw, Option.bind_some]

theorem string_hex {a b c d w : CodeUnit} (hw : hexUnit? a b c d = some w) (rest : Text) :
    string (unit '\\' :: unit 'u' :: a :: b :: c :: d :: rest) =
      (string rest).map fun r ↦ (w :: r.1, r.2) := by
  rw [string.eq_def]
  dsimp only
  rw [if_neg (by decide), if_pos rfl, if_pos rfl, hw, Option.bind_some]

/-- A code unit as a JSON string writes it is read back. -/
theorem string_quoteUnit (u : CodeUnit) (rest : Text) :
    string (units (quoteUnit u) ++ rest) = (string rest).map fun r ↦ (u :: r.1, r.2) := by
  have hescape {c : Char} {w : CodeUnit} (hunits : units ['\\', c] = [unit '\\', unit c])
      (hc : unit c ≠ unit 'u') (hw : escaped? (unit c) = some w) :
      string (units ['\\', c] ++ rest) = (string rest).map fun r ↦ (w :: r.1, r.2) := by
    rw [hunits, List.cons_append, List.cons_append, List.nil_append, string_escape hc hw]
  unfold quoteUnit
  split_ifs with hquote hslash hback htab hline hfeed hreturn hhex
  · rw [hquote]
    exact hescape (by decide) (by decide) (by decide)
  · rw [hslash]
    exact hescape (by decide) (by decide) (by decide)
  · rw [hback]
    exact hescape (by decide) (by decide) (by decide)
  · rw [htab]
    exact hescape (by decide) (by decide) (by decide)
  · rw [hline]
    exact hescape (by decide) (by decide) (by decide)
  · rw [hfeed]
    exact hescape (by decide) (by decide) (by decide)
  · rw [hreturn]
    exact hescape (by decide) (by decide) (by decide)
  · obtain ⟨a, b, c, d, hunits, hread⟩ := units_hexText u
    have hhead : units ('\\' :: 'u' :: hexText u) = [unit '\\', unit 'u', a, b, c, d] := by
      change unitsOf '\\' ++ (unitsOf 'u' ++ units (hexText u)) = _
      rw [hunits]
      rfl
    rw [hhead]
    simp only [List.cons_append, List.nil_append]
    exact string_hex hread rest
  · simp only [Bool.or_eq_true, decide_eq_true_eq, not_or, isHigh, isLow, Bool.and_eq_true,
      not_and, not_lt] at hhex
    have hval : (Char.ofNat u.toNat).toNat = u.toNat := by
      rw [Char.ofNat, dif_pos (by have := u.isLt; unfold Nat.isValidChar; omega)]
      rfl
    have hunits : units [Char.ofNat u.toNat] = [u] := by
      rw [units, List.flatMap_singleton, unitsOf, hval, if_pos u.isLt, BitVec.ofNat_toNat,
        BitVec.setWidth_eq]
    rw [hunits, List.singleton_append, string_plain hquote hslash (by omega)]

theorem string_quoteUnits (s rest : Text) :
    string (units (quoteUnits s) ++ unit '"' :: rest) = some (s, rest) := by
  have happend (cs ds : List Char) : units (cs ++ ds) = units cs ++ units ds := List.flatMap_append
  fun_induction quoteUnits s with
  | case1 => exact string_close rest
  | case2 u => rw [string_quoteUnit, string_close, Option.map_some]
  | case3 u v s hpair ih =>
    rw [Bool.and_eq_true] at hpair
    have hunits : units (pairScalar u v :: quoteUnits s) = u :: v :: units (quoteUnits s) := by
      rw [units, List.flatMap_cons, unitsOf_pairScalar hpair.1 hpair.2]
      rfl
    have hread {w : CodeUnit} (hw : 0xD800 ≤ w.toNat) (t : Text) :
        string (w :: t) = (string t).map fun r ↦ (w :: r.1, r.2) := by
      have hne (c : Char) (hc : (unit c).toNat < 0xD800) : w ≠ unit c := by
        rintro rfl
        omega
      exact string_plain (hne '"' (by decide)) (hne '\\' (by decide)) (by omega) t
    have hu : 0xD800 ≤ u.toNat := by
      have := hpair.1
      simp only [isHigh, Bool.and_eq_true, decide_eq_true_eq] at this
      exact this.1
    have hv : 0xD800 ≤ v.toNat := by
      have := hpair.2
      simp only [isLow, Bool.and_eq_true, decide_eq_true_eq] at this
      omega
    rw [hunits, List.cons_append, List.cons_append, hread hu, hread hv, ih]
    rfl
  | case4 u v s _ ih =>
    rw [happend, List.append_assoc, string_quoteUnit, ih]
    rfl

theorem skip_cons {u : CodeUnit} (hu : isBlank u = false) (rest : Text) :
    skip (u :: rest) = u :: rest := by
  rw [skip, List.dropWhile_cons_of_neg]
  simp [hu]

theorem punctuator_cons {c : Char} {u : CodeUnit} (hu : isBlank u = false) (rest : Text) :
    punctuator c (u :: rest) = if unit c = u then some rest else none := by
  rw [punctuator, skip_cons hu, dropWord, dropWord]

/-- Nothing that could go on with a numeral. -/
def Ends (rest : Text) : Prop := ∀ u ∈ rest.head?, isNumeral u = false

theorem ends_cons {u : CodeUnit} (hu : isNumeral u = false) (rest : Text) : Ends (u :: rest) := by
  rintro v hv
  obtain rfl : u = v := Option.some.inj hv
  exact hu

/-- A text that is read as a value, whatever comes after it. -/
structure Reads (t : List Char) (v : Value) : Prop where
  opens : ∃ u s, units t = u :: s ∧ isBlank u = false ∧ u ≠ unit ']'
  value : ∀ fuel rest, 2 * t.length ≤ fuel → Ends rest →
    value numerals fuel (units t ++ rest) = some (v, rest)

theorem units_append (cs ds : List Char) : units (cs ++ ds) = units cs ++ units ds :=
  List.flatMap_append

theorem units_cons (c : Char) (cs : List Char) : units (c :: cs) = unitsOf c ++ units cs :=
  List.flatMap_cons

theorem commas_cons {p q : List Char} {pieces : List (List Char)} :
    commas (p :: q :: pieces) = p ++ ',' :: commas (q :: pieces) := by
  simp [commas, List.intercalate]

theorem commas_singleton (p : List Char) : commas [p] = p := by simp [commas, List.intercalate]

variable {numerals}

theorem elements_commas {α : Type} (t : α → List Char) (w : α → Value) {items : List α}
    (hne : items ≠ []) (h : ∀ v ∈ items, Reads numerals (t v) (w v)) (fuel : ℕ) (rest : Text)
    (hfuel : 2 * (commas (items.map t)).length + 1 ≤ fuel) :
    elements numerals fuel (units (commas (items.map t)) ++ unit ']' :: rest) =
      some (items.map w, rest) := by
  induction items generalizing fuel with
  | nil => exact absurd rfl hne
  | cons v items ih =>
    obtain ⟨fuel, rfl⟩ : ∃ n, fuel = n + 1 := ⟨fuel - 1, by omega⟩
    have hv := (h v List.mem_cons_self).value
    cases items with
    | nil =>
      rw [List.map_cons, List.map_nil, commas_singleton] at hfuel ⊢
      rw [elements, hv fuel _ (by omega) (ends_cons (by decide) _), Option.bind_some]
      dsimp only
      rw [punctuator_cons (by decide), if_neg (by decide), punctuator_cons (by decide), if_pos rfl]
      rfl
    | cons v' items =>
      have hcons : commas ((v :: v' :: items).map t) =
          t v ++ ',' :: commas ((v' :: items).map t) := commas_cons
      rw [hcons] at hfuel ⊢
      rw [List.length_append, List.length_cons] at hfuel
      have hunits : units (t v ++ ',' :: commas ((v' :: items).map t)) ++ unit ']' :: rest =
          units (t v) ++ unit ',' :: (units (commas ((v' :: items).map t)) ++ unit ']' :: rest) := by
        rw [units_append, units_cons, List.append_assoc]
        rfl
      have hrest := ih (by simp) (fun x hx ↦ h x (List.mem_cons_of_mem _ hx)) fuel (by omega)
      rw [hunits, elements, hv fuel _ (by omega) (ends_cons (by decide) _), Option.bind_some]
      dsimp only
      rw [punctuator_cons (by decide), if_pos rfl]
      dsimp only
      rw [hrest]
      rfl

theorem members_commas {α : Type} (t : α → List Char) (w : α → Value) {ms : List (Text × α)}
    (hne : ms ≠ []) (h : ∀ m ∈ ms, Reads numerals (t m.2) (w m.2)) (fuel : ℕ) (rest : Text)
    (hfuel : 2 * (commas (ms.map fun m ↦ writeMember (m.1, t m.2))).length + 1 ≤ fuel) :
    members numerals fuel (units (commas (ms.map fun m ↦ writeMember (m.1, t m.2))) ++
      unit '}' :: rest) = some (ms.map (fun m ↦ (m.1, w m.2)), rest) := by
  have hlength (m : Text × α) : (t m.2).length + 3 ≤ (writeMember (m.1, t m.2)).length := by
    simp only [writeMember, serializeString, List.length_append, List.length_cons, List.length_nil]
    omega
  have hread (m : Text × α) (s : Text) : (punctuator '"' (units (writeMember (m.1, t m.2)) ++ s)).bind
      string = some (m.1, unit ':' :: (units (t m.2) ++ s)) := by
    have hunits : units (writeMember (m.1, t m.2)) ++ s = unit '"' :: (units (quoteUnits m.1) ++
        unit '"' :: (unit ':' :: (units (t m.2) ++ s))) := by
      rw [writeMember, serializeString, List.cons_append, List.cons_append, units_cons,
        units_append, units_append, units_cons]
      simp only [List.append_assoc]
      rfl
    rw [hunits, punctuator_cons (by decide), if_pos rfl, Option.bind_some, string_quoteUnits]
  induction ms generalizing fuel with
  | nil => exact absurd rfl hne
  | cons m ms ih =>
    obtain ⟨fuel, rfl⟩ : ∃ n, fuel = n + 1 := ⟨fuel - 1, by omega⟩
    have hm := h m List.mem_cons_self
    have hlong := hlength m
    cases ms with
    | nil =>
      rw [List.map_cons, List.map_nil, commas_singleton] at hfuel ⊢
      rw [members, hread, Option.bind_some]
      dsimp only
      rw [punctuator_cons (by decide), if_pos rfl, Option.bind_some,
        hm.value fuel _ (by omega) (ends_cons (by decide) _), Option.bind_some]
      dsimp only
      rw [punctuator_cons (by decide), if_neg (by decide), punctuator_cons (by decide), if_pos rfl]
      rfl
    | cons m' ms =>
      have hcons : commas ((m :: m' :: ms).map fun m ↦ writeMember (m.1, t m.2)) =
          writeMember (m.1, t m.2) ++ ',' ::
            commas ((m' :: ms).map fun m ↦ writeMember (m.1, t m.2)) := commas_cons
      rw [hcons] at hfuel ⊢
      rw [List.length_append, List.length_cons] at hfuel
      have hunits : units (writeMember (m.1, t m.2) ++
          ',' :: commas ((m' :: ms).map fun m ↦ writeMember (m.1, t m.2))) ++ unit '}' :: rest =
          units (writeMember (m.1, t m.2)) ++ unit ',' ::
            (units (commas ((m' :: ms).map fun m ↦ writeMember (m.1, t m.2))) ++
              unit '}' :: rest) := by
        rw [units_append, units_cons, List.append_assoc]
        rfl
      have hrest := ih (by simp) (fun x hx ↦ h x (List.mem_cons_of_mem _ hx)) fuel (by omega)
      rw [hunits, members, hread, Option.bind_some]
      dsimp only
      rw [punctuator_cons (by decide), if_pos rfl, Option.bind_some,
        hm.value fuel _ (by omega) (ends_cons (by decide) _), Option.bind_some]
      dsimp only
      rw [punctuator_cons (by decide), if_pos rfl]
      dsimp only
      rw [hrest]
      rfl

/-- Members of different names that are defined one by one stay as they are. -/
theorem foldl_define (keep : Text → Bool) {ms : List (Text × Value)}
    (h : (ms.map Prod.fst).Nodup) :
    ms.foldl (fun out m ↦ if keep m.1 then define out m else out) [] =
      ms.filter (keep ·.1) := by
  have hfold (out : List (Text × Value)) (hout : ((out ++ ms).map Prod.fst).Nodup) :
      ms.foldl (fun out m ↦ if keep m.1 then define out m else out) out =
        out ++ ms.filter (keep ·.1) := by
    induction ms generalizing out with
    | nil => exact (List.append_nil out).symm
    | cons m ms ih =>
      rw [List.map_append, List.map_cons] at hout
      have habsent : m.1 ∉ out.map Prod.fst :=
        fun hmem ↦ (List.nodup_append.mp hout).2.2 _ hmem _ List.mem_cons_self rfl
      rw [List.foldl_cons]
      by_cases hkeep : keep m.1 = true
      · have hassoc : out ++ (m :: ms).filter (keep ·.1) = out ++ [m] ++ ms.filter (keep ·.1) := by
          simp [hkeep]
        rw [if_pos hkeep, define, if_neg habsent, hassoc]
        exact ih (List.nodup_cons.mp h).2 _ (by simpa using hout)
      · rw [if_neg hkeep, List.filter_cons_of_neg (by simpa using hkeep)]
        refine ih (List.nodup_cons.mp h).2 _ (hout.sublist ?_)
        rw [List.map_append]
        exact (List.sublist_cons_self _ _).append_left _
  exact hfold [] h

theorem record_of_nodup {ms : List (Text × Value)} (h : (ms.map Prod.fst).Nodup) :
    record ms = ms := by
  have hfold := foldl_define (fun _ ↦ true) h
  simpa [record] using hfold

theorem numeral_char {c : Char} (h : c.isDigit = true ∨ c ∈ ['.', '+', '-', 'e']) :
    unitsOf c = [unit c] ∧ isNumeral (unit c) = true := by
  obtain hdigit | hsign := h
  · have hbound : 48 ≤ c.toNat ∧ c.toNat ≤ 57 := by
      simpa [Char.isDigit, UInt32.le_iff_toNat_le] using hdigit
    have hunit : (unit c).toNat = c.toNat := by
      rw [unit, BitVec.toNat_ofNat]
      omega
    refine ⟨if_pos (by omega), ?_⟩
    simp [isNumeral, hunit, hbound]
  · simp only [List.mem_cons, List.not_mem_nil, or_false] at hsign
    rcases hsign with rfl | rfl | rfl | rfl
    all_goals exact ⟨rfl, by decide⟩

/-- The text of a number is one numeral. -/
theorem units_digits (n : JsNumber) : units n.digits = n.digits.map unit ∧
    ∀ u ∈ units n.digits, isNumeral u = true := by
  have hunits : units n.digits = n.digits.map unit := by
    rw [units, List.map_eq_flatMap]
    exact List.flatMap_congr fun c hc ↦ (numeral_char (n.numeric.2 c hc)).1
  refine ⟨hunits, fun u hu ↦ ?_⟩
  rw [hunits] at hu
  obtain ⟨c, hc, rfl⟩ := List.mem_map.mp hu
  exact (numeral_char (n.numeric.2 c hc)).2

theorem takeWhile_numeral {s rest : Text} (hs : ∀ u ∈ s, isNumeral u = true) (hrest : Ends rest) :
    (s ++ rest).takeWhile isNumeral = s ∧ (s ++ rest).dropWhile isNumeral = rest := by
  rw [List.takeWhile_append_of_pos hs, List.dropWhile_append_of_pos hs]
  cases rest with
  | nil => simp
  | cons u rest =>
    have hu : isNumeral u = false := hrest u rfl
    simp [hu]

/-- A numeral starts nothing else. -/
theorem ne_of_isNumeral {u : CodeUnit} (h : isNumeral u = true) {c : Char}
    (hc : isNumeral (unit c) = false) : u ≠ unit c := by
  rintro rfl
  rw [hc] at h
  cases h

theorem not_blank_of_isNumeral {u : CodeUnit} (h : isNumeral u = true) : isBlank u = false := by
  rw [← Bool.not_eq_true]
  intro hblank
  simp only [isBlank, Bool.or_eq_true, decide_eq_true_eq] at hblank
  obtain ((rfl | rfl) | rfl) | rfl := hblank
  all_goals exact absurd h (by decide)

theorem value_word {t : List Char} {v : Value} {fuel : ℕ} {rest : Text}
    (h : (t, v) ∈ [("null".toList, Value.null), ("true".toList, .bool true),
      ("false".toList, .bool false)]) :
    value numerals (fuel + 1) (units t ++ rest) = some (v, rest) := by
  simp only [List.mem_cons, Prod.mk.injEq, List.not_mem_nil, or_false] at h
  obtain ⟨rfl, rfl⟩ | ⟨rfl, rfl⟩ | ⟨rfl, rfl⟩ := h
  all_goals
    rw [value.eq_def]
    rfl

theorem reads_str (s : Text) : Reads numerals (serializeString s) (.str s) := by
  have hunits : units (serializeString s) = unit '"' :: (units (quoteUnits s) ++ [unit '"']) := by
    rw [serializeString, List.cons_append, units_cons, units_append]
    rfl
  refine ⟨⟨_, _, hunits, by decide, by decide⟩, fun fuel rest hfuel _ ↦ ?_⟩
  obtain ⟨fuel, rfl⟩ : ∃ n, fuel = n + 1 := by
    simp only [serializeString, List.cons_append, List.length_cons] at hfuel
    exact ⟨fuel - 1, by omega⟩
  rw [hunits, List.cons_append, value.eq_def, skip_cons (by decide)]
  dsimp only
  rw [if_pos rfl, List.append_assoc]
  change (string (units (quoteUnits s) ++ unit '"' :: rest)).map _ = _
  rw [string_quoteUnits]
  rfl

theorem reads_num {n : JsNumber} (hn : numerals n.digits = some (.num n)) :
    Reads numerals n.digits (.num n) := by
  obtain ⟨hunits, hall⟩ := units_digits n
  obtain ⟨c, cs, hdigits⟩ := List.exists_cons_of_ne_nil n.numeric.1
  have hcons : units n.digits = unit c :: cs.map unit := by rw [hunits, hdigits, List.map_cons]
  have hnumeral : isNumeral (unit c) = true := hall _ (by rw [hcons]; exact List.mem_cons_self)
  refine ⟨⟨_, _, hcons, not_blank_of_isNumeral hnumeral, ne_of_isNumeral hnumeral (by decide)⟩,
    fun fuel rest hfuel hrest ↦ ?_⟩
  obtain ⟨fuel, rfl⟩ : ∃ n, fuel = n + 1 := by
    rw [hdigits, List.length_cons] at hfuel
    exact ⟨fuel - 1, by omega⟩
  obtain ⟨htake, hdrop⟩ := takeWhile_numeral hall hrest
  rw [hcons, List.cons_append] at htake hdrop
  rw [hcons, List.cons_append, value.eq_def, skip_cons (not_blank_of_isNumeral hnumeral)]
  dsimp only
  rw [if_neg (ne_of_isNumeral hnumeral (by decide)), if_neg (ne_of_isNumeral hnumeral (by decide)),
    if_neg (ne_of_isNumeral hnumeral (by decide)), if_pos hnumeral, htake, hdrop, ← hcons,
    scalars_units, hn, Option.map_some]

theorem reads_arr {α : Type} (t : α → List Char) (w : α → Value) {items : List α}
    (h : ∀ v ∈ items, Reads numerals (t v) (w v)) :
    Reads numerals ('[' :: commas (items.map t) ++ [']']) (.arr (items.map w)) := by
  have hunits : units ('[' :: commas (items.map t) ++ [']']) =
      unit '[' :: (units (commas (items.map t)) ++ [unit ']']) := by
    rw [List.cons_append, units_cons, units_append]
    rfl
  refine ⟨⟨_, _, hunits, by decide, by decide⟩, fun fuel rest hfuel _ ↦ ?_⟩
  rw [List.cons_append, List.length_cons, List.length_append, List.length_singleton] at hfuel
  obtain ⟨fuel, rfl⟩ : ∃ n, fuel = n + 1 := ⟨fuel - 1, by omega⟩
  have hassoc : units (commas (items.map t)) ++ [unit ']'] ++ rest =
      units (commas (items.map t)) ++ unit ']' :: rest := by simp
  rw [hunits, List.cons_append, value.eq_def, skip_cons (by decide), hassoc]
  dsimp only
  rw [if_neg (by decide), if_pos rfl]
  cases items with
  | nil => rfl
  | cons v items =>
    obtain ⟨u, s, hopens, hblank, hclose⟩ := (h v List.mem_cons_self).opens
    have hstart : ∃ s', units (commas ((v :: items).map t)) ++ unit ']' :: rest = u :: s' := by
      cases items with
      | nil =>
        rw [List.map_cons, List.map_nil, commas_singleton, hopens]
        exact ⟨_, rfl⟩
      | cons v' items =>
        rw [List.map_cons, List.map_cons, commas_cons, units_append, hopens]
        exact ⟨_, rfl⟩
    have helements := elements_commas t w (by simp) h fuel rest (by omega)
    obtain ⟨s', hs'⟩ := hstart
    rw [hs'] at helements ⊢
    rw [punctuator_cons hblank, if_neg hclose.symm]
    dsimp only
    rw [helements]
    rfl

theorem reads_obj {α : Type} (t : α → List Char) (w : α → Value) {ms : List (Text × α)}
    (hkeys : (ms.map Prod.fst).Nodup) (h : ∀ m ∈ ms, Reads numerals (t m.2) (w m.2)) :
    Reads numerals ('{' :: commas (ms.map fun m ↦ writeMember (m.1, t m.2)) ++ ['}'])
      (.obj (ms.map fun m ↦ (m.1, w m.2))) := by
  have hunits : units ('{' :: commas (ms.map fun m ↦ writeMember (m.1, t m.2)) ++ ['}']) =
      unit '{' :: (units (commas (ms.map fun m ↦ writeMember (m.1, t m.2))) ++ [unit '}']) := by
    rw [List.cons_append, units_cons, units_append]
    rfl
  refine ⟨⟨_, _, hunits, by decide, by decide⟩, fun fuel rest hfuel _ ↦ ?_⟩
  rw [List.cons_append, List.length_cons, List.length_append, List.length_singleton] at hfuel
  obtain ⟨fuel, rfl⟩ : ∃ n, fuel = n + 1 := ⟨fuel - 1, by omega⟩
  have hassoc : units (commas (ms.map fun m ↦ writeMember (m.1, t m.2))) ++ [unit '}'] ++ rest =
      units (commas (ms.map fun m ↦ writeMember (m.1, t m.2))) ++ unit '}' :: rest := by simp
  rw [hunits, List.cons_append, value.eq_def, skip_cons (by decide), hassoc]
  dsimp only
  rw [if_neg (by decide), if_neg (by decide), if_pos rfl]
  cases ms with
  | nil => rfl
  | cons m ms =>
    have hstart : ∃ s', units (commas ((m :: ms).map fun m ↦ writeMember (m.1, t m.2))) ++
        unit '}' :: rest = unit '"' :: s' := by
      cases ms with
      | nil =>
        rw [List.map_cons, List.map_nil, commas_singleton]
        exact ⟨_, rfl⟩
      | cons m' ms =>
        rw [List.map_cons, List.map_cons, commas_cons]
        exact ⟨_, rfl⟩
    have hmembers := members_commas t w (by simp) h fuel rest (by omega)
    obtain ⟨s', hs'⟩ := hstart
    have hrecord : record ((m :: ms).map fun m ↦ (m.1, w m.2)) =
        (m :: ms).map fun m ↦ (m.1, w m.2) :=
      record_of_nodup (by rw [List.map_map]; exact hkeys)
    rw [hs'] at hmembers ⊢
    rw [punctuator_cons (by decide), if_neg (by decide)]
    dsimp only
    rw [hmembers, Option.map_some, hrecord]

theorem ofItems_eq (items : List Json) : Value.ofItems items = items.map Value.ofJson := by
  induction items with
  | nil => rfl
  | cons v items ih => rw [Value.ofItems, ih, List.map_cons]

theorem ofMembers_eq (members : Members) :
    Value.ofMembers members = members.map fun m ↦ (m.1, Value.ofJson m.2) := by
  induction members with
  | nil => rfl
  | cons m members ih => rw [Value.ofMembers, ih, List.map_cons]

/-- Canonical text is read as the value it was written for, each object's members in the order of
their names. -/
theorem reads_write {v : Json} (hdistinct : v.Distinct)
    (hnumbers : v.Numbers fun n ↦ numerals n.digits = some (.num n)) {depth : ℕ} {cs : List Char}
    (h : write depth v = some cs) : Reads numerals cs (.ofJson v.sorted) := by
  induction v using Json.induction generalizing depth cs with
  | null =>
    rw [write, Option.ite_none_left_eq_some, Option.some.injEq] at h
    rw [← h.2]
    refine ⟨⟨_, _, rfl, by decide, by decide⟩, fun fuel rest hfuel _ ↦ ?_⟩
    obtain ⟨fuel, rfl⟩ : ∃ n, fuel = n + 1 := ⟨fuel - 1, by simp at hfuel; omega⟩
    exact value_word (by simp [Value.ofJson, Json.sorted])
  | bool b =>
    rw [write, Option.ite_none_left_eq_some, Option.some.injEq] at h
    rw [← h.2]
    refine ⟨by cases b <;> exact ⟨_, _, rfl, by decide, by decide⟩, fun fuel rest hfuel _ ↦ ?_⟩
    obtain ⟨fuel, rfl⟩ : ∃ n, fuel = n + 1 := ⟨fuel - 1, by cases b <;> simp at hfuel <;> omega⟩
    exact value_word (by cases b <;> simp [Value.ofJson, Json.sorted])
  | num n =>
    rw [write, Option.ite_none_left_eq_some, Option.some.injEq] at h
    cases hnumbers with
    | num hn => exact h.2 ▸ reads_num hn
  | str s =>
    rw [write, Option.ite_none_left_eq_some, Option.some.injEq] at h
    exact h.2 ▸ reads_str s
  | arr items ih =>
    rw [write, Option.ite_none_left_eq_some] at h
    obtain ⟨-, h⟩ := h
    obtain ⟨pieces, hpieces, rfl⟩ := Option.map_eq_some_iff.mp h
    obtain ⟨rfl, hall⟩ := writeItems_eq_some hpieces
    cases hnumbers with
    | arr hnumbers =>
    have hreads : ∀ v ∈ items, Reads numerals (written (depth + 1) v) (.ofJson v.sorted) :=
      fun v hv ↦ ih v hv (hdistinct.items v hv) (hnumbers v hv) (hall v hv)
    rw [Json.sorted, Value.ofJson, ofItems_eq, Json.sortedItems_eq, List.map_map]
    exact reads_arr (written (depth + 1)) (fun v ↦ Value.ofJson v.sorted) hreads
  | obj members ih =>
    rw [write, Option.ite_none_left_eq_some] at h
    obtain ⟨-, h⟩ := h
    obtain ⟨pieces, hpieces, rfl⟩ := Option.map_eq_some_iff.mp h
    obtain ⟨rfl, hall⟩ := writeMembers_eq_some hpieces
    cases hnumbers with
    | obj hnumbers =>
    have hreads : ∀ m ∈ sortKeys members,
        Reads numerals (written (depth + 1) m.2) (.ofJson m.2.sorted) := fun m hm ↦
      have hmem := (sortKeys_perm members).mem_iff.mp hm
      ih m hmem (hdistinct.members m hmem) (hnumbers m hmem) (hall m hmem)
    have hkeys : ((sortKeys members).map Prod.fst).Nodup :=
      ((sortKeys_perm members).map Prod.fst).nodup_iff.mpr hdistinct.keys
    have hsorted : Value.ofMembers (sortKeys (Json.sortedMembers members)) =
        (sortKeys members).map fun m ↦ (m.1, Value.ofJson m.2.sorted) := by
      rw [ofMembers_eq, Json.sortedMembers_eq, sortKeys_map, List.map_map]
      rfl
    have htexts : (sortKeys (members.map fun m ↦ (m.1, written (depth + 1) m.2))).map writeMember =
        (sortKeys members).map fun m ↦ writeMember (m.1, written (depth + 1) m.2) := by
      rw [sortKeys_map, List.map_map]
      rfl
    rw [Json.sorted, Value.ofJson, hsorted, htexts]
    exact reads_obj (written (depth + 1)) (fun v ↦ Value.ofJson v.sorted) hkeys hreads

/-- What `JSON.stringify` writes is read as the value it was written for. -/
theorem reads_stringify {v : Json} (hdistinct : v.Distinct)
    (hnumbers : v.Numbers fun n ↦ numerals n.digits = some (.num n)) :
    Reads numerals (Value.stringify (.ofJson v)) (.ofJson v) := by
  induction v using Json.induction with
  | null =>
    refine ⟨⟨_, _, rfl, by decide, by decide⟩, fun fuel rest hfuel _ ↦ ?_⟩
    obtain ⟨fuel, rfl⟩ : ∃ n, fuel = n + 1 := by
      simp [Value.ofJson, Value.stringify] at hfuel
      exact ⟨fuel - 1, by omega⟩
    exact value_word (by simp [Value.ofJson, Value.stringify])
  | bool b =>
    refine ⟨by cases b <;> exact ⟨_, _, rfl, by decide, by decide⟩, fun fuel rest hfuel _ ↦ ?_⟩
    obtain ⟨fuel, rfl⟩ : ∃ n, fuel = n + 1 := by
      cases b <;> simp [Value.ofJson, Value.stringify] at hfuel <;> exact ⟨fuel - 1, by omega⟩
    exact value_word (by cases b <;> simp [Value.ofJson, Value.stringify])
  | num n =>
    cases hnumbers with
    | num hn => exact reads_num hn
  | str s => exact reads_str s
  | arr items ih =>
    cases hnumbers with
    | arr hnumbers =>
    rw [Value.ofJson, ofItems_eq, Value.stringify, Value.stringifyItems_eq, List.map_map]
    exact reads_arr (fun v ↦ Value.stringify (.ofJson v)) Value.ofJson fun v hv ↦
      ih v hv (hdistinct.items v hv) (hnumbers v hv)
  | obj members ih =>
    cases hnumbers with
    | obj hnumbers =>
    rw [Value.ofJson, ofMembers_eq, Value.stringify, Value.stringifyMembers_eq, List.map_map]
    exact reads_obj (fun v ↦ Value.stringify (.ofJson v)) Value.ofJson hdistinct.keys fun m hm ↦
      ih m hm (hdistinct.members m hm) (hnumbers m hm)

theorem length_le_units (cs : List Char) : cs.length ≤ (units cs).length := by
  induction cs with
  | nil => exact le_rfl
  | cons c cs ih =>
    have hone : 1 ≤ (unitsOf c).length := by
      unfold unitsOf
      split <;> simp
    rw [units_cons, List.length_append, List.length_cons]
    omega

theorem parse_of_reads {cs : List Char} {v : Value} (h : Reads numerals cs v) :
    parse numerals (units cs) = some v := by
  have hlength := length_le_units cs
  have hread := h.value (2 * (units cs).length + 1) [] (by omega) nofun
  rw [List.append_nil] at hread
  rw [parse, hread, Option.bind_some]
  rfl

theorem parse_canonicalize {v : Json} (hdistinct : v.Distinct)
    (hnumbers : v.Numbers fun n ↦ numerals n.digits = some (.num n)) {cs : List Char}
    (h : canonicalize v = some cs) : parse numerals (units cs) = some (.ofJson v.sorted) :=
  parse_of_reads (reads_write hdistinct hnumbers h)

theorem parse_stringify {v : Json} (hdistinct : v.Distinct)
    (hnumbers : v.Numbers fun n ↦ numerals n.digits = some (.num n)) :
    parse numerals (units (Value.stringify (.ofJson v))) = some (.ofJson v) :=
  parse_of_reads (reads_stringify hdistinct hnumbers)

end JsonParse

end Servanda
