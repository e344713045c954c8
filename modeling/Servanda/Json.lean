import Mathlib.Data.List.Sort
import Mathlib.Order.Lex
import Mathlib.Data.List.Lex
import Servanda.Primitives
import Servanda.Unicode

namespace Servanda

open Unicode

/-- A string of the program: its UTF-16 code units. -/
abbrev Text := List CodeUnit

instance lawfulBEqText : LawfulBEq Text := inferInstance

def text (s : String) : Text := units s.toList

/-- A finite number, as the text `Number::toString` gives it. -/
structure JsNumber where
  digits : List Char
  numeric : digits ≠ [] ∧ ∀ c ∈ digits, c.isDigit ∨ c ∈ ['.', '+', '-', 'e']
  deriving DecidableEq

instance decidableNumeric (cs : List Char) :
    Decidable (∀ c ∈ cs, c.isDigit ∨ c ∈ ['.', '+', '-', 'e']) := List.decidableBAll _ cs

def JsNumber.ofNat (n : ℕ) : JsNumber where
  digits := Nat.toDigits 10 n
  numeric := ⟨Nat.toDigits_ne_nil, fun _ hc ↦
    .inl (Nat.isDigit_of_mem_toDigits (by decide) (by decide) hc)⟩

inductive Json
  | null
  | bool (b : Bool)
  | num (n : JsNumber)
  | str (s : Text)
  | arr (items : List Json)
  | obj (members : List (Text × Json))

/-- The members of an object, in the order the object lists them. -/
abbrev Members := List (Text × Json)

namespace Members

def keys (ms : Members) : List Text := ms.map Prod.fst

def get? (ms : Members) (key : Text) : Option Json := ms.lookup key

/-- `o[key] = value` on an object that has no accessor under that name. -/
def put (ms : Members) (key : Text) (value : Json) : Members :=
  if key ∈ ms.keys then ms.map fun m ↦ if m.1 = key then (key, value) else m
  else ms ++ [(key, value)]

def delete (ms : Members) (key : Text) : Members := ms.filter (·.1 ≠ key)

def protoKey : Text := text "__proto__"

/-- `o[key] = value` on an object literal. Under `__proto__` it sets the prototype, and the object
gets no member. -/
def assign (ms : Members) (key : Text) (value : Json) : Members :=
  if key = protoKey then ms else ms.put key value

end Members

namespace Json

def isObject : Json → Bool
  | .obj _ => true
  | _ => false

/-- `o[key]`: a value that is no object has no such member. -/
def member (v : Json) (key : Text) : Option Json :=
  match v with
  | .obj members => Members.get? members key
  | _ => none

theorem induction {P : Json → Prop} (null : P .null) (bool : ∀ b, P (.bool b))
    (num : ∀ n, P (.num n)) (str : ∀ s, P (.str s))
    (arr : ∀ items, (∀ v ∈ items, P v) → P (.arr items))
    (obj : ∀ members, (∀ m ∈ members, P m.2) → P (.obj members)) (v : Json) : P v := by
  refine @Json.rec P (fun items ↦ ∀ v ∈ items, P v) (fun members ↦ ∀ m ∈ members, P m.2)
    (fun m ↦ P m.2) null bool num str arr obj ?_ ?_ ?_ ?_ ?_ v
  · exact List.forall_mem_nil _
  · exact fun v items hv hitems ↦ List.forall_mem_cons.2 ⟨hv, hitems⟩
  · exact List.forall_mem_nil _
  · exact fun m members hm hmembers ↦ List.forall_mem_cons.2 ⟨hm, hmembers⟩
  · exact fun _ _ h ↦ h

end Json

/-- A code unit in a JSON string: the short escapes, the other controls and lone surrogates as
`\u` and four digits, and the rest as they are. -/
def quoteUnit (u : CodeUnit) : List Char :=
  if u = 0x22 then ['\\', '"']
  else if u = 0x5C then ['\\', '\\']
  else if u = 0x08 then ['\\', 'b']
  else if u = 0x09 then ['\\', 't']
  else if u = 0x0A then ['\\', 'n']
  else if u = 0x0C then ['\\', 'f']
  else if u = 0x0D then ['\\', 'r']
  else if u.toNat < 0x20 || isHigh u || isLow u then '\\' :: 'u' :: hexText u
  else [Char.ofNat u.toNat]

def quoteUnits : Text → List Char
  | [] => []
  | [u] => quoteUnit u
  | u :: v :: rest =>
    if isHigh u && isLow v then pairScalar u v :: quoteUnits rest
    else quoteUnit u ++ quoteUnits (v :: rest)

def serializeString (s : Text) : List Char := '"' :: quoteUnits s ++ ['"']

def maxCanonicalizationDepth : ℕ := 256

/-- Pieces with commas between them. -/
def commas (pieces : List (List Char)) : List Char := [','].intercalate pieces

def sortKeys {α : Type} (members : List (Text × α)) : List (Text × α) :=
  members.insertionSort fun m m' ↦ m.1 ≤ m'.1

def writeMember (m : Text × List Char) : List Char := serializeString m.1 ++ ':' :: m.2

mutual

/-- `none` where the value nests too deep to be canonicalized. -/
def write (depth : ℕ) : Json → Option (List Char)
  | .null => if maxCanonicalizationDepth < depth then none else some "null".toList
  | .bool b =>
    if maxCanonicalizationDepth < depth then none
    else some (if b then "true".toList else "false".toList)
  | .num n => if maxCanonicalizationDepth < depth then none else some n.digits
  | .str s => if maxCanonicalizationDepth < depth then none else some (serializeString s)
  | .arr items =>
    if maxCanonicalizationDepth < depth then none
    else (writeItems (depth + 1) items).map fun pieces ↦ '[' :: commas pieces ++ [']']
  | .obj members =>
    if maxCanonicalizationDepth < depth then none
    else (writeMembers (depth + 1) members).map fun written ↦
      '{' :: commas ((sortKeys written).map writeMember) ++ ['}']

def writeItems (depth : ℕ) : List Json → Option (List (List Char))
  | [] => some []
  | v :: items =>
    match write depth v, writeItems depth items with
    | some piece, some pieces => some (piece :: pieces)
    | _, _ => none

def writeMembers (depth : ℕ) : List (Text × Json) → Option (List (Text × List Char))
  | [] => some []
  | (key, v) :: members =>
    match write depth v, writeMembers depth members with
    | some piece, some written => some ((key, piece) :: written)
    | _, _ => none

end

def canonicalize (v : Json) : Option (List Char) := write 0 v

/-- `none` where the source throws `JcsDepthExceeded`. -/
def canonicalBytes (v : Json) : Option (List UInt8) := (canonicalize v).map encodeUtf8

/-- How many octets a piece of canonical text is in UTF-8. -/
def octetsOf (cs : List Char) : ℕ := (encodeUtf8 cs).length

@[simp]
theorem octetsOf_nil : octetsOf [] = 0 := rfl

@[simp]
theorem octetsOf_append (cs ds : List Char) : octetsOf (cs ++ ds) = octetsOf cs + octetsOf ds := by
  simp [octetsOf, encodeUtf8]

theorem octetsOf_cons (c : Char) (cs : List Char) :
    octetsOf (c :: cs) = octetsOf [c] + octetsOf cs := octetsOf_append [c] cs

theorem octetsOf_commas (pieces : List (List Char)) :
    octetsOf (commas pieces) = (pieces.map octetsOf).sum + (pieces.length - 1) := by
  have hcomma : octetsOf [','] = 1 := by decide
  induction pieces with
  | nil => rfl
  | cons piece pieces ih =>
    cases pieces with
    | nil => simp [commas]
    | cons next pieces =>
      have hcons : commas (piece :: next :: pieces) = piece ++ (',' :: commas (next :: pieces)) := by
        simp [commas, List.intercalate]
      rw [hcons, octetsOf_append, octetsOf_cons, ih, hcomma]
      simp only [List.map_cons, List.sum_cons, List.length_cons]
      omega

/-- The octets of an object: its braces, its commas and its members, in any order. -/
theorem octetsOf_object (written : List (Text × List Char)) :
    octetsOf ('{' :: commas ((sortKeys written).map writeMember) ++ ['}']) =
      2 + (written.length - 1) + (written.map fun m ↦ octetsOf (writeMember m)).sum := by
  have hperm : (sortKeys written).Perm written := List.perm_insertionSort _ _
  have hsum : ((sortKeys written).map fun m ↦ octetsOf (writeMember m)).sum =
      (written.map fun m ↦ octetsOf (writeMember m)).sum := (hperm.map _).sum_eq
  have hopen : octetsOf ['{'] = 1 := by decide
  have hclose : octetsOf ['}'] = 1 := by decide
  rw [octetsOf_append, octetsOf_cons, octetsOf_commas, hopen, hclose, List.map_map, List.length_map,
    hperm.length_eq]
  simp only [Function.comp_def, hsum]
  omega

theorem writeMembers_append (depth : ℕ) (ms ms' : Members) :
    writeMembers depth (ms ++ ms') = (writeMembers depth ms).bind fun written ↦
      (writeMembers depth ms').map (written ++ ·) := by
  induction ms with
  | nil => simp [writeMembers]
  | cons m ms ih =>
    obtain ⟨key, v⟩ := m
    simp only [List.cons_append, writeMembers, ih]
    cases write depth v with
    | none => rfl
    | some piece =>
      cases writeMembers depth ms with
      | none => rfl
      | some written =>
        cases writeMembers depth ms' <;> rfl

theorem canonicalBytes_object (ms : Members) : canonicalBytes (.obj ms) =
    (writeMembers 1 ms).map fun written ↦
      encodeUtf8 ('{' :: commas ((sortKeys written).map writeMember) ++ ['}']) := by
  rw [canonicalBytes, canonicalize, write, if_neg (by decide), Option.map_map]
  rfl

theorem length_writeMembers {depth : ℕ} {ms : Members} {written : List (Text × List Char)}
    (h : writeMembers depth ms = some written) : written.length = ms.length := by
  induction ms generalizing written with
  | nil =>
    rw [writeMembers, Option.some.injEq] at h
    exact h ▸ rfl
  | cons m ms ih =>
    obtain ⟨key, v⟩ := m
    rw [writeMembers] at h
    cases hv : write depth v with
    | none => simp [hv] at h
    | some piece =>
      cases hms : writeMembers depth ms with
      | none => simp [hv, hms] at h
      | some rest =>
        simp only [hv, hms, Option.some.injEq] at h
        rw [← h, List.length_cons, List.length_cons, ih hms]

/-- A member more makes an object longer by that member and a comma. -/
theorem canonicalBytes_insert (before : Members) (key : Text) {after : Members} {v : Json}
    {piece : List Char} {bytes : List UInt8} (hbefore : before ≠ []) (hv : write 1 v = some piece)
    (h : canonicalBytes (.obj (before ++ after)) = some bytes) :
    ∃ bytes', canonicalBytes (.obj (before ++ (key, v) :: after)) = some bytes' ∧
      bytes'.length = bytes.length + octetsOf (writeMember (key, piece)) + 1 := by
  rw [canonicalBytes_object, writeMembers_append] at h
  cases hfirst : writeMembers 1 before with
  | none => simp [hfirst] at h
  | some first =>
    cases hlast : writeMembers 1 after with
    | none => simp [hfirst, hlast] at h
    | some last =>
      simp only [hfirst, hlast, Option.bind_some, Option.map_some, Option.some.injEq] at h
      have hinserted : writeMembers 1 (before ++ (key, v) :: after) =
          some (first ++ (key, piece) :: last) := by
        simp [writeMembers_append, writeMembers, hfirst, hlast, hv]
      refine ⟨_, by rw [canonicalBytes_object, hinserted, Option.map_some], ?_⟩
      have hlength := octetsOf_object (first ++ last)
      have hlength' := octetsOf_object (first ++ (key, piece) :: last)
      have hfirst' := length_writeMembers hfirst
      have hpos := List.length_pos_of_ne_nil hbefore
      rw [← h]
      simp only [octetsOf, List.map_append, List.map_cons, List.sum_append, List.sum_cons,
        List.length_append, List.length_cons] at hlength hlength' ⊢
      omega

/-- A code unit that stands for itself in a JSON string, and is one octet. -/
def isPlain (u : CodeUnit) : Prop := 0x20 ≤ u.toNat ∧ u.toNat < 0x80 ∧ u ≠ 0x22 ∧ u ≠ 0x5C

theorem octetsOf_quoteUnit {u : CodeUnit} (h : isPlain u) : octetsOf (quoteUnit u) = 1 := by
  obtain ⟨hlow, hhigh, hquote, hslash⟩ := h
  have hne : ∀ v : CodeUnit, v.toNat < 0x20 → u ≠ v := by
    intro v hv heq
    rw [heq] at hlow
    omega
  have hsurrogate : (u.toNat < 0x20 || isHigh u || isLow u) = false := by
    simp only [isHigh, isLow, Bool.or_eq_false_iff, Bool.and_eq_false_iff, decide_eq_false_iff_not]
    omega
  have hunit : quoteUnit u = [Char.ofNat u.toNat] := by
    simp only [quoteUnit, hquote, hslash, if_false]
    rw [if_neg (hne 0x08 (by decide)), if_neg (hne 0x09 (by decide)), if_neg (hne 0x0A (by decide)),
      if_neg (hne 0x0C (by decide)), if_neg (hne 0x0D (by decide)), hsurrogate]
    rfl
  have hscalar : (Char.ofNat u.toNat).toNat = u.toNat := toNat_ofNat (by omega)
  rw [hunit, octetsOf, encodeUtf8, List.flatMap_singleton, utf8EncodeChar_one (by omega)]
  rfl

theorem octetsOf_serializeString {s : Text} (h : ∀ u ∈ s, isPlain u) :
    octetsOf (serializeString s) = s.length + 2 := by
  have hunits : octetsOf (quoteUnits s) = s.length := by
    induction s with
    | nil => rfl
    | cons u s ih =>
      have hu := h u List.mem_cons_self
      have hs := ih fun v hv ↦ h v (List.mem_cons_of_mem _ hv)
      have hhigh : isHigh u = false := by
        obtain ⟨-, hhigh, -⟩ := hu
        simp only [isHigh, Bool.and_eq_false_iff, decide_eq_false_iff_not]
        omega
      cases s with
      | nil => simpa [quoteUnits] using octetsOf_quoteUnit hu
      | cons v s =>
        have hcons : quoteUnits (u :: v :: s) = quoteUnit u ++ quoteUnits (v :: s) := by
          simp [quoteUnits, hhigh]
        rw [hcons, octetsOf_append, octetsOf_quoteUnit hu, hs]
        simp only [List.length_cons]
        omega
  have hquote : octetsOf ['"'] = 1 := by decide
  rw [serializeString, octetsOf_append, octetsOf_cons, hunits, hquote]
  omega

namespace Json

mutual

/-- How many containers nest inside each other in a value, below itself. -/
def height : Json → ℕ
  | .arr items => itemsHeight items
  | .obj members => membersHeight members
  | _ => 0

def itemsHeight : List Json → ℕ
  | [] => 0
  | v :: items => max (height v + 1) (itemsHeight items)

def membersHeight : List (Text × Json) → ℕ
  | [] => 0
  | (_, v) :: members => max (height v + 1) (membersHeight members)

end

end Json

theorem Json.itemsHeight_le_iff {items : List Json} {n : ℕ} :
    Json.itemsHeight items ≤ n ↔ ∀ v ∈ items, v.height + 1 ≤ n := by
  induction items with
  | nil => simp [itemsHeight]
  | cons v items ih => rw [itemsHeight, max_le_iff, ih, List.forall_mem_cons]

theorem Json.membersHeight_le_iff {members : Members} {n : ℕ} :
    Json.membersHeight members ≤ n ↔ ∀ m ∈ members, m.2.height + 1 ≤ n := by
  induction members with
  | nil => simp [membersHeight]
  | cons m members ih => rw [membersHeight, max_le_iff, ih, List.forall_mem_cons]

section Depth

variable {depth : ℕ} (hdepth : depth ≤ maxCanonicalizationDepth)

include hdepth

theorem writeItems_isSome_iff {items : List Json} (h : ∀ v ∈ items,
    (write (depth + 1) v).isSome ↔ depth + 1 + v.height ≤ maxCanonicalizationDepth) :
    (writeItems (depth + 1) items).isSome ↔
      depth + Json.itemsHeight items ≤ maxCanonicalizationDepth := by
  induction items with
  | nil => simpa [writeItems, Json.itemsHeight] using hdepth
  | cons v items ih =>
    have hv := h v List.mem_cons_self
    have hitems := ih fun v hv ↦ h v (List.mem_cons_of_mem _ hv)
    have hboth : (writeItems (depth + 1) (v :: items)).isSome ↔
        (write (depth + 1) v).isSome ∧ (writeItems (depth + 1) items).isSome := by
      rw [writeItems]
      cases write (depth + 1) v <;> cases writeItems (depth + 1) items <;> simp
    rw [hboth, hv, hitems, Json.itemsHeight]
    omega

theorem writeMembers_isSome_iff {members : Members} (h : ∀ m ∈ members,
    (write (depth + 1) m.2).isSome ↔ depth + 1 + m.2.height ≤ maxCanonicalizationDepth) :
    (writeMembers (depth + 1) members).isSome ↔
      depth + Json.membersHeight members ≤ maxCanonicalizationDepth := by
  induction members with
  | nil => simpa [writeMembers, Json.membersHeight] using hdepth
  | cons m members ih =>
    obtain ⟨key, v⟩ := m
    have hv := h (key, v) List.mem_cons_self
    have hmembers := ih fun m hm ↦ h m (List.mem_cons_of_mem _ hm)
    have hboth : (writeMembers (depth + 1) ((key, v) :: members)).isSome ↔
        (write (depth + 1) v).isSome ∧ (writeMembers (depth + 1) members).isSome := by
      rw [writeMembers]
      cases write (depth + 1) v <;> cases writeMembers (depth + 1) members <;> simp
    rw [hboth, hv, hmembers, Json.membersHeight]
    dsimp only
    omega

end Depth

/-- The canonicalizer refuses exactly the values that nest too deep. -/
theorem write_isSome_iff (v : Json) (depth : ℕ) :
    (write depth v).isSome ↔ depth + v.height ≤ maxCanonicalizationDepth := by
  induction v using Json.induction generalizing depth with
  | null | bool b | num n | str s =>
    by_cases hdepth : maxCanonicalizationDepth < depth
    · simp [write, hdepth, Json.height]
    · simpa [write, hdepth, Json.height] using not_lt.1 hdepth
  | arr items ih =>
    by_cases hdepth : maxCanonicalizationDepth < depth
    · simp only [write, hdepth, if_true, Json.height]
      simp
      omega
    · rw [write, if_neg hdepth, Option.isSome_map, Json.height]
      exact writeItems_isSome_iff (by omega) fun v hv ↦ ih v hv _
  | obj members ih =>
    by_cases hdepth : maxCanonicalizationDepth < depth
    · simp only [write, hdepth, if_true, Json.height]
      simp
      omega
    · rw [write, if_neg hdepth, Option.isSome_map, Json.height]
      exact writeMembers_isSome_iff (by omega) fun m hm ↦ ih m hm _

namespace Json

/-- The members of every object in a value have names of which `P` holds. -/
inductive Every (P : List Text → Prop) : Json → Prop
  | null : Every P .null
  | bool (b : Bool) : Every P (.bool b)
  | num (n : JsNumber) : Every P (.num n)
  | str (s : Text) : Every P (.str s)
  | arr {items : List Json} (h : ∀ v ∈ items, Every P v) : Every P (.arr items)
  | obj {members : Members} (hkeys : P members.keys) (h : ∀ m ∈ members, Every P m.2) :
      Every P (.obj members)

/-- No object lists a name twice. -/
abbrev Distinct : Json → Prop := Every List.Nodup

/-- No object has a member of its own under `__proto__`. -/
abbrev Protoless : Json → Prop := Every (Members.protoKey ∉ ·)

variable {P : List Text → Prop} {vs : List Json} {ms : Members}

theorem Every.items (h : Every P (.arr vs)) : ∀ v ∈ vs, Every P v := by
  cases h with
  | arr h => exact h

theorem Every.keys (h : Every P (.obj ms)) : P ms.keys := by
  cases h with
  | obj hkeys => exact hkeys

theorem Every.members (h : Every P (.obj ms)) : ∀ m ∈ ms, Every P m.2 := by
  cases h with
  | obj _ h => exact h

end Json

namespace Members

variable {ms : Members} {key : Text} {value : Json}

theorem keys_put : (ms.put key value).keys = if key ∈ ms.keys then ms.keys else ms.keys ++ [key] := by
  unfold put
  split
  · rw [keys, keys, List.map_map]
    apply List.map_congr_left
    intro m _
    by_cases hm : m.1 = key <;> simp [hm]
  · simp [keys]

theorem mem_put {m : Text × Json} (h : m ∈ ms.put key value) : m ∈ ms ∨ m.2 = value := by
  unfold put at h
  split at h
  · obtain ⟨n, hn, rfl⟩ := List.mem_map.1 h
    split
    · exact .inr rfl
    · exact .inl hn
  · obtain h | h := List.mem_append.1 h
    · exact .inl h
    · rw [List.mem_singleton.1 h]
      exact .inr rfl

theorem put_of_absent (h : key ∉ ms.keys) : ms.put key value = ms ++ [(key, value)] := if_neg h

theorem nodup_put (h : ms.keys.Nodup) : (ms.put key value).keys.Nodup := by
  rw [keys_put]
  split
  · exact h
  · next habsent => exact h.append (List.nodup_singleton _) (List.disjoint_singleton.2 habsent)

theorem get?_cons (k : Text) (rest : Members) :
    get? ((key, value) :: rest) k = if k = key then some value else get? rest k := by
  by_cases h : k = key
  · simp [get?, h]
  · have hbeq : (k == key) = false := by simpa using h
    simp [get?, List.lookup_cons, hbeq, h]

theorem mem_of_get? (h : get? ms key = some value) : (key, value) ∈ ms := by
  induction ms with
  | nil => cases h
  | cons m ms ih =>
    obtain ⟨k, v⟩ := m
    rw [get?_cons] at h
    split at h
    · next hkey =>
      rw [hkey, Option.some.inj h]
      exact List.mem_cons_self
    · exact List.mem_cons_of_mem _ (ih h)

theorem get?_of_mem (hnodup : ms.keys.Nodup) (h : (key, value) ∈ ms) : get? ms key = some value := by
  induction ms with
  | nil => cases h
  | cons m ms ih =>
    obtain ⟨k, v⟩ := m
    obtain ⟨habsent, hnodup⟩ := List.nodup_cons.1 hnodup
    rw [get?_cons]
    obtain heq | hmem := List.mem_cons.1 h
    · rw [Prod.mk.injEq] at heq
      rw [if_pos heq.1, heq.2]
    · have hne : key ≠ k := by
        rintro rfl
        exact habsent (List.mem_map.2 ⟨_, hmem, rfl⟩)
      rw [if_neg hne, ih hnodup hmem]

end Members

end Servanda
