import Mathlib.Data.List.Basic
import Mathlib.Tactic

/-!
Text as a sequence of UTF-16 code units, with its UTF-8 octets: what an encoder writes for it, and
what a decoder reads from any octets.
-/

namespace Servanda.Unicode

abbrev CodeUnit := BitVec 16

instance lawfulBEqCodeUnit : LawfulBEq CodeUnit := inferInstance

def isHigh (u : CodeUnit) : Bool := 0xD800 ≤ u.toNat && u.toNat < 0xDC00

def isLow (u : CodeUnit) : Bool := 0xDC00 ≤ u.toNat && u.toNat < 0xE000

def replacement : Char := '\uFFFD'

/-- The scalar a code unit is on its own: a lone surrogate is none, and is replaced. -/
def unitScalar (u : CodeUnit) : Char :=
  if isHigh u || isLow u then replacement else Char.ofNat u.toNat

def pairScalar (high low : CodeUnit) : Char :=
  Char.ofNat (0x10000 + (high.toNat - 0xD800) * 0x400 + (low.toNat - 0xDC00))

def scalars : List CodeUnit → List Char
  | [] => []
  | [u] => [unitScalar u]
  | u :: v :: rest =>
    if isHigh u && isLow v then pairScalar u v :: scalars rest
    else unitScalar u :: scalars (v :: rest)

def unitsOf (c : Char) : List CodeUnit :=
  if c.toNat < 0x10000 then [BitVec.ofNat 16 c.toNat]
  else [BitVec.ofNat 16 (0xD800 + (c.toNat - 0x10000) / 0x400),
    BitVec.ofNat 16 (0xDC00 + (c.toNat - 0x10000) % 0x400)]

def units (cs : List Char) : List CodeUnit := cs.flatMap unitsOf

def encodeUtf8 (cs : List Char) : List UInt8 := cs.flatMap String.utf8EncodeChar

/-- A decoder between two octets: the continuation octets it still waits for, the scalar so far,
and the bounds of the next octet. -/
structure Decoder where
  needed : ℕ
  point : ℕ
  lower : ℕ
  upper : ℕ

namespace Decoder

def start : Decoder := ⟨0, 0, 0x80, 0xBF⟩

/-- A first octet: the scalar it is, the sequence it opens, or an error. -/
def lead (b : ℕ) : List Char × Decoder :=
  if b ≤ 0x7F then ([Char.ofNat b], start)
  else if 0xC2 ≤ b ∧ b ≤ 0xDF then ([], ⟨1, b % 0x20, 0x80, 0xBF⟩)
  else if 0xE0 ≤ b ∧ b ≤ 0xEF then
    ([], ⟨2, b % 0x10, if b = 0xE0 then 0xA0 else 0x80, if b = 0xED then 0x9F else 0xBF⟩)
  else if 0xF0 ≤ b ∧ b ≤ 0xF4 then
    ([], ⟨3, b % 0x08, if b = 0xF0 then 0x90 else 0x80, if b = 0xF4 then 0x8F else 0xBF⟩)
  else ([replacement], start)

/-- An octet out of bounds ends the sequence with an error and is read again as a first octet. -/
def step (d : Decoder) (b : ℕ) : List Char × Decoder :=
  if d.needed = 0 then lead b
  else if d.lower ≤ b ∧ b ≤ d.upper then
    let point := d.point * 0x40 + b % 0x40
    if d.needed = 1 then ([Char.ofNat point], start) else ([], ⟨d.needed - 1, point, 0x80, 0xBF⟩)
  else (replacement :: (lead b).1, (lead b).2)

def run (d : Decoder) : List UInt8 → List Char
  | [] => if d.needed = 0 then [] else [replacement]
  | b :: bytes => (d.step b.toNat).1 ++ (d.step b.toNat).2.run bytes

end Decoder

/-- A byte order mark in front is not part of the text. -/
def dropMark : List Char → List Char
  | [] => []
  | c :: cs => if c = '\uFEFF' then cs else c :: cs

def decodeUtf8 (bytes : List UInt8) : List Char := dropMark (Decoder.start.run bytes)

theorem char_valid (c : Char) : c.toNat < 0xD800 ∨ 0xDFFF < c.toNat ∧ c.toNat < 0x110000 := c.valid

theorem toNat_ofNat {n : ℕ} (h : n < 0xD800) : (Char.ofNat n).toNat = n := by
  rw [Char.ofNat, dif_pos (Or.inl h)]
  rfl

/-- A scalar is one code unit, or a pair of surrogates. -/
theorem unitsOf_cases (c : Char) :
    (∃ u, unitsOf c = [u] ∧ isHigh u = false ∧ isLow u = false ∧ u.toNat = c.toNat) ∨
      ∃ high low, unitsOf c = [high, low] ∧ isHigh high = true ∧ isLow low = true ∧
        0x10000 + (high.toNat - 0xD800) * 0x400 + (low.toNat - 0xDC00) = c.toNat := by
  have hvalid := char_valid c
  unfold unitsOf
  split
  · next hsmall =>
    have hunit : (BitVec.ofNat 16 c.toNat).toNat = c.toNat := by
      rw [BitVec.toNat_ofNat]
      omega
    refine .inl ⟨_, rfl, ?_, ?_, hunit⟩
    · simp only [isHigh, hunit, Bool.and_eq_false_iff, decide_eq_false_iff_not]
      omega
    · simp only [isLow, hunit, Bool.and_eq_false_iff, decide_eq_false_iff_not]
      omega
  · next hlarge =>
    have hhigh : (BitVec.ofNat 16 (0xD800 + (c.toNat - 0x10000) / 0x400)).toNat =
        0xD800 + (c.toNat - 0x10000) / 0x400 := by
      rw [BitVec.toNat_ofNat]
      omega
    have hlow : (BitVec.ofNat 16 (0xDC00 + (c.toNat - 0x10000) % 0x400)).toNat =
        0xDC00 + (c.toNat - 0x10000) % 0x400 := by
      rw [BitVec.toNat_ofNat]
      omega
    refine .inr ⟨_, _, rfl, ?_, ?_, ?_⟩
    · simp only [isHigh, hhigh, Bool.and_eq_true, decide_eq_true_eq]
      omega
    · simp only [isLow, hlow, Bool.and_eq_true, decide_eq_true_eq]
      omega
    · omega

theorem unitsOf_scalars (c : Char) (rest : List CodeUnit) :
    scalars (unitsOf c ++ rest) = c :: scalars rest := by
  obtain ⟨u, hunits, hhigh, hlow, hpoint⟩ | ⟨high, low, hunits, hhigh, hlow, hpoint⟩ :=
    unitsOf_cases c
  · have hscalar : unitScalar u = c := by simp [unitScalar, hhigh, hlow, hpoint, Char.ofNat_toNat]
    rw [hunits]
    cases rest with
    | nil => simp [scalars, hscalar]
    | cons v rest => simp [scalars, hhigh, hscalar]
  · simp [hunits, scalars, hhigh, hlow, pairScalar, hpoint, Char.ofNat_toNat]

@[simp]
theorem scalars_units (cs : List Char) : scalars (units cs) = cs := by
  induction cs with
  | nil => rfl
  | cons c cs ih =>
    rw [units, List.flatMap_cons, unitsOf_scalars]
    exact congrArg _ ih

theorem utf8EncodeChar_one {c : Char} (h : c.toNat ≤ 0x7F) :
    String.utf8EncodeChar c = [UInt8.ofNat c.toNat] := if_pos h

theorem utf8EncodeChar_two {c : Char} (h : 0x7F < c.toNat) (h' : c.toNat ≤ 0x7FF) :
    String.utf8EncodeChar c =
      [UInt8.ofNat (c.toNat / 0x40 % 0x20 + 0xC0), UInt8.ofNat (c.toNat % 0x40 + 0x80)] :=
  (if_neg (not_le.2 h)).trans (if_pos h')

theorem utf8EncodeChar_three {c : Char} (h : 0x7FF < c.toNat) (h' : c.toNat ≤ 0xFFFF) :
    String.utf8EncodeChar c = [UInt8.ofNat (c.toNat / 0x1000 % 0x10 + 0xE0),
      UInt8.ofNat (c.toNat / 0x40 % 0x40 + 0x80), UInt8.ofNat (c.toNat % 0x40 + 0x80)] :=
  have hone : 0x7F < c.toNat := by omega
  (if_neg (not_le.2 hone)).trans ((if_neg (not_le.2 h)).trans (if_pos h'))

theorem utf8EncodeChar_four {c : Char} (h : 0xFFFF < c.toNat) :
    String.utf8EncodeChar c = [UInt8.ofNat (c.toNat / 0x40000 % 0x08 + 0xF0),
      UInt8.ofNat (c.toNat / 0x1000 % 0x40 + 0x80), UInt8.ofNat (c.toNat / 0x40 % 0x40 + 0x80),
      UInt8.ofNat (c.toNat % 0x40 + 0x80)] :=
  have hone : 0x7F < c.toNat := by omega
  have htwo : 0x7FF < c.toNat := by omega
  (if_neg (not_le.2 hone)).trans ((if_neg (not_le.2 htwo)).trans (if_neg (not_le.2 h)))

namespace Decoder

variable {d : Decoder} {n : ℕ} {bytes : List UInt8}

theorem run_ofNat (hn : n < 256) : d.run (UInt8.ofNat n :: bytes) =
    (d.step n).1 ++ (d.step n).2.run bytes := by
  rw [run, UInt8.toNat_ofNat', Nat.mod_eq_of_lt hn]

theorem step_start : start.step n = lead n := if_pos rfl

theorem step_continue (hneeded : 1 < d.needed) (hlower : d.lower ≤ n) (hupper : n ≤ d.upper) :
    d.step n = ([], ⟨d.needed - 1, d.point * 0x40 + n % 0x40, 0x80, 0xBF⟩) := by
  unfold step
  rw [if_neg (by omega), if_pos ⟨hlower, hupper⟩, if_neg (by omega)]

theorem step_last (hneeded : d.needed = 1) (hlower : d.lower ≤ n) (hupper : n ≤ d.upper) :
    d.step n = ([Char.ofNat (d.point * 0x40 + n % 0x40)], start) := by
  unfold step
  rw [if_neg (by omega), if_pos ⟨hlower, hupper⟩, if_pos hneeded]

theorem run_utf8EncodeChar (c : Char) (bytes : List UInt8) :
    start.run (String.utf8EncodeChar c ++ bytes) = c :: start.run bytes := by
  have hvalid := char_valid c
  by_cases hone : c.toNat ≤ 0x7F
  · rw [utf8EncodeChar_one hone, List.singleton_append, run_ofNat (by omega)]
    have hstep : start.step c.toNat = ([c], start) := by
      rw [step_start, lead, if_pos hone, Char.ofNat_toNat]
    rw [hstep, List.singleton_append]
  by_cases htwo : c.toNat ≤ 0x7FF
  · rw [utf8EncodeChar_two (by omega) htwo]
    simp only [List.cons_append, List.nil_append]
    rw [run_ofNat (by omega)]
    have hlead : start.step (c.toNat / 0x40 % 0x20 + 0xC0) =
        ([], ⟨1, c.toNat / 0x40, 0x80, 0xBF⟩) := by
      rw [step_start, lead, if_neg (by omega), if_pos (by omega)]
      congr 2
      omega
    rw [hlead, List.nil_append, run_ofNat (by omega), step_last rfl (by simp) (by simp; omega)]
    have hpoint : c.toNat / 0x40 * 0x40 + (c.toNat % 0x40 + 0x80) % 0x40 = c.toNat := by omega
    simp only [hpoint, Char.ofNat_toNat, List.singleton_append]
  by_cases hthree : c.toNat ≤ 0xFFFF
  · rw [utf8EncodeChar_three (by omega) hthree]
    simp only [List.cons_append, List.nil_append]
    rw [run_ofNat (by omega)]
    obtain ⟨lower, upper, hlead, hlower, hupper⟩ : ∃ lower upper,
        start.step (c.toNat / 0x1000 % 0x10 + 0xE0) = ([], ⟨2, c.toNat / 0x1000, lower, upper⟩) ∧
        lower ≤ c.toNat / 0x40 % 0x40 + 0x80 ∧ c.toNat / 0x40 % 0x40 + 0x80 ≤ upper := by
      refine ⟨if c.toNat / 0x1000 % 0x10 + 0xE0 = 0xE0 then 0xA0 else 0x80,
        if c.toNat / 0x1000 % 0x10 + 0xE0 = 0xED then 0x9F else 0xBF, ?_, ?_, ?_⟩
      · rw [step_start, lead, if_neg (by omega), if_neg (by omega), if_pos (by omega)]
        congr 2
        omega
      · split <;> omega
      · split <;> omega
    rw [hlead, List.nil_append, run_ofNat (by omega), step_continue (by simp) hlower hupper,
      List.nil_append, run_ofNat (by omega), step_last rfl (by simp) (by simp; omega)]
    have hpoint : (c.toNat / 0x1000 * 0x40 + (c.toNat / 0x40 % 0x40 + 0x80) % 0x40) * 0x40 +
        (c.toNat % 0x40 + 0x80) % 0x40 = c.toNat := by omega
    simp only [hpoint, Char.ofNat_toNat, List.singleton_append]
  · rw [utf8EncodeChar_four (by omega)]
    simp only [List.cons_append, List.nil_append]
    rw [run_ofNat (by omega)]
    obtain ⟨lower, upper, hlead, hlower, hupper⟩ : ∃ lower upper,
        start.step (c.toNat / 0x40000 % 0x08 + 0xF0) = ([], ⟨3, c.toNat / 0x40000, lower, upper⟩) ∧
        lower ≤ c.toNat / 0x1000 % 0x40 + 0x80 ∧ c.toNat / 0x1000 % 0x40 + 0x80 ≤ upper := by
      refine ⟨if c.toNat / 0x40000 % 0x08 + 0xF0 = 0xF0 then 0x90 else 0x80,
        if c.toNat / 0x40000 % 0x08 + 0xF0 = 0xF4 then 0x8F else 0xBF, ?_, ?_, ?_⟩
      · rw [step_start, lead, if_neg (by omega), if_neg (by omega), if_neg (by omega),
          if_pos (by omega)]
        congr 2
        omega
      · split <;> omega
      · split <;> omega
    rw [hlead, List.nil_append, run_ofNat (by omega), step_continue (by simp) hlower hupper,
      List.nil_append, run_ofNat (by omega), step_continue (by simp) (by simp) (by simp; omega),
      List.nil_append, run_ofNat (by omega), step_last rfl (by simp) (by simp; omega)]
    have hpoint : ((c.toNat / 0x40000 * 0x40 + (c.toNat / 0x1000 % 0x40 + 0x80) % 0x40) * 0x40 +
        (c.toNat / 0x40 % 0x40 + 0x80) % 0x40) * 0x40 + (c.toNat % 0x40 + 0x80) % 0x40 =
        c.toNat := by omega
    simp only [hpoint, Char.ofNat_toNat, List.singleton_append]

theorem run_encodeUtf8 (cs : List Char) : start.run (encodeUtf8 cs) = cs := by
  induction cs with
  | nil => rfl
  | cons c cs ih =>
    rw [encodeUtf8, List.flatMap_cons, run_utf8EncodeChar]
    exact congrArg _ ih

end Decoder

def isContinuation (b : UInt8) : Bool := b &&& 0xC0 == 0x80

/-- The last position up to `n` at which a scalar starts. -/
def boundary (bytes : List UInt8) : ℕ → ℕ
  | 0 => 0
  | n + 1 => if isContinuation (bytes.getD (n + 1) 0) then boundary bytes n else n + 1

theorem isContinuation_iff (b : UInt8) : isContinuation b = true ↔ 128 ≤ b.toNat ∧ b.toNat < 192 := by
  have h : ∀ v : BitVec 8, (v &&& 0xC0#8) = 0x80#8 ↔ 128 ≤ v.toNat ∧ v.toNat < 192 := by decide
  rw [isContinuation, beq_iff_eq, ← UInt8.toBitVec_inj]
  exact h b.toBitVec

theorem isContinuation_ofNat {n : ℕ} (hn : n < 256) :
    isContinuation (UInt8.ofNat n) = true ↔ 128 ≤ n ∧ n < 192 := by
  rw [isContinuation_iff, UInt8.toNat_ofNat', Nat.mod_eq_of_lt hn]

/-- A scalar's octets: one that opens it, and continuation octets. -/
theorem utf8EncodeChar_shape (c : Char) : ∃ b tail, String.utf8EncodeChar c = b :: tail ∧
    isContinuation b = false ∧ ∀ t ∈ tail, isContinuation t = true := by
  have htail : ∀ n, isContinuation (UInt8.ofNat (n % 0x40 + 0x80)) = true := fun n ↦
    (isContinuation_ofNat (by omega)).2 (by omega)
  have hopens : ∀ n, n < 256 → (n < 128 ∨ 192 ≤ n) → isContinuation (UInt8.ofNat n) = false := by
    intro n hn hout
    rw [← Bool.not_eq_true, isContinuation_ofNat hn]
    omega
  by_cases hone : c.toNat ≤ 0x7F
  · exact ⟨_, _, utf8EncodeChar_one hone, hopens _ (by omega) (by omega), List.forall_mem_nil _⟩
  by_cases htwo : c.toNat ≤ 0x7FF
  · exact ⟨_, _, utf8EncodeChar_two (by omega) htwo, hopens _ (by omega) (by omega),
      List.forall_mem_singleton.2 (htail _)⟩
  by_cases hthree : c.toNat ≤ 0xFFFF
  · exact ⟨_, _, utf8EncodeChar_three (by omega) hthree, hopens _ (by omega) (by omega),
      List.forall_mem_cons.2 ⟨htail _, List.forall_mem_singleton.2 (htail _)⟩⟩
  · exact ⟨_, _, utf8EncodeChar_four (by omega), hopens _ (by omega) (by omega),
      List.forall_mem_cons.2 ⟨htail _, List.forall_mem_cons.2
        ⟨htail _, List.forall_mem_singleton.2 (htail _)⟩⟩⟩

theorem boundary_le (bytes : List UInt8) (n : ℕ) : boundary bytes n ≤ n := by
  induction n with
  | zero => rfl
  | succ n ih =>
    unfold boundary
    split <;> omega

theorem boundary_inside {b : UInt8} {tail : List UInt8} (rest : List UInt8)
    (htail : ∀ t ∈ tail, isContinuation t = true) {n : ℕ} (hn : n ≤ tail.length) :
    boundary (b :: tail ++ rest) n = 0 := by
  induction n with
  | zero => rfl
  | succ n ih =>
    have hget : (b :: tail ++ rest).getD (n + 1) 0 = tail[n] := by
      have hlt : n < tail.length := by omega
      simp [List.getElem?_append_left hlt, hlt]
    rw [boundary, hget, if_pos (htail _ (List.getElem_mem _)), ih (by omega)]

theorem boundary_beyond (scalar : List UInt8) {b : UInt8} {rest : List UInt8}
    (hb : isContinuation b = false) (n : ℕ) :
    boundary (scalar ++ b :: rest) (scalar.length + n) = scalar.length + boundary (b :: rest) n := by
  induction n with
  | zero =>
    cases scalar with
    | nil => rfl
    | cons s scalar => simp [boundary, hb]
  | succ n ih =>
    have hget : (scalar ++ b :: rest).getD (scalar.length + n + 1) 0 =
        (b :: rest).getD (n + 1) 0 := by
      rw [List.getD_eq_getElem?_getD, add_assoc, List.getElem?_append_right (Nat.le_add_right _ _),
        Nat.add_sub_cancel_left, List.getD_eq_getElem?_getD]
    rw [← add_assoc, boundary, boundary, hget]
    split
    · exact ih
    · rw [add_assoc]

theorem encodeUtf8_cons (c : Char) (cs : List Char) :
    encodeUtf8 (c :: cs) = String.utf8EncodeChar c ++ encodeUtf8 cs := by simp [encodeUtf8]

/-- A position lies inside the first scalar, or as far beyond it as its boundary does. -/
theorem boundary_cases (c : Char) (cs : List Char) {n : ℕ} (hn : n < (encodeUtf8 (c :: cs)).length) :
    n < (String.utf8EncodeChar c).length ∧ boundary (encodeUtf8 (c :: cs)) n = 0 ∨
      ∃ m < (encodeUtf8 cs).length, n = (String.utf8EncodeChar c).length + m ∧
        boundary (encodeUtf8 (c :: cs)) n =
          (String.utf8EncodeChar c).length + boundary (encodeUtf8 cs) m := by
  obtain ⟨b, tail, hscalar, -, htail⟩ := utf8EncodeChar_shape c
  have hsize : (String.utf8EncodeChar c).length = tail.length + 1 := by
    rw [hscalar, List.length_cons]
  rw [encodeUtf8_cons] at hn ⊢
  by_cases hinside : n ≤ tail.length
  · refine .inl ⟨by omega, ?_⟩
    rw [hscalar, boundary_inside _ htail hinside]
  · obtain ⟨m, rfl⟩ : ∃ m, n = (String.utf8EncodeChar c).length + m :=
      ⟨n - (tail.length + 1), by omega⟩
    rw [List.length_append] at hn
    cases cs with
    | nil => simp [encodeUtf8] at hn
    | cons d ds =>
      obtain ⟨b', tail', hscalar', hb', -⟩ := utf8EncodeChar_shape d
      have hnext : encodeUtf8 (d :: ds) = b' :: (tail' ++ encodeUtf8 ds) := by
        rw [encodeUtf8_cons, hscalar', List.cons_append]
      refine .inr ⟨m, by omega, rfl, ?_⟩
      rw [hnext, boundary_beyond _ hb']

/-- Octets cut at a boundary are those of the scalars in front of it, and with the next scalar there
are too many. -/
theorem take_boundary (cs : List Char) {n : ℕ} (hn : n < (encodeUtf8 cs).length) :
    ∃ k, (encodeUtf8 cs).take (boundary (encodeUtf8 cs) n) = encodeUtf8 (cs.take k) ∧
      n < (encodeUtf8 (cs.take (k + 1))).length := by
  induction cs generalizing n with
  | nil => simp [encodeUtf8] at hn
  | cons c cs ih =>
    obtain ⟨hinside, hzero⟩ | ⟨m, hm, rfl, hbeyond⟩ := boundary_cases c cs hn
    · refine ⟨0, by rw [hzero]; rfl, ?_⟩
      rw [List.take_succ_cons, encodeUtf8_cons, List.length_append]
      omega
    · obtain ⟨k, hk, hnext⟩ := ih hm
      refine ⟨k + 1, ?_, ?_⟩
      · rw [hbeyond, encodeUtf8_cons, List.take_append,
          List.take_of_length_le (Nat.le_add_right _ _), Nat.add_sub_cancel_left, hk,
          List.take_succ_cons, encodeUtf8_cons]
      · rw [List.take_succ_cons, encodeUtf8_cons, List.length_append]
        omega

/-- A boundary lies at most three octets back. -/
theorem le_boundary (cs : List Char) {n : ℕ} (hn : n < (encodeUtf8 cs).length) :
    n ≤ boundary (encodeUtf8 cs) n + 3 := by
  induction cs generalizing n with
  | nil => simp [encodeUtf8] at hn
  | cons c cs ih =>
    obtain ⟨hinside, -⟩ | ⟨m, hm, rfl, hbeyond⟩ := boundary_cases c cs hn
    · have hfour : (String.utf8EncodeChar c).length ≤ 4 := by
        rw [String.length_utf8EncodeChar]
        exact Char.utf8Size_le_four c
      omega
    · have hle := ih hm
      omega

theorem length_dropMark_le (cs : List Char) :
    (encodeUtf8 (dropMark cs)).length ≤ (encodeUtf8 cs).length := by
  cases cs with
  | nil => exact Nat.le_refl _
  | cons c cs =>
    simp only [dropMark]
    split
    · simp [encodeUtf8]
    · exact Nat.le_refl _

theorem le_length_dropMark (cs : List Char) :
    (encodeUtf8 cs).length ≤ (encodeUtf8 (dropMark cs)).length + 3 := by
  cases cs with
  | nil => exact Nat.zero_le _
  | cons c cs =>
    simp only [dropMark]
    split
    · next hmark =>
      have hsize : (String.utf8EncodeChar c).length = 3 := by
        rw [hmark]
        decide
      simp [encodeUtf8, hsize]
      omega
    · exact Nat.le_add_right _ _

/-- What is decoded from octets cut at a boundary has no more octets than the cut. -/
theorem length_decode_cut (cs : List Char) {n : ℕ} (hn : n < (encodeUtf8 cs).length) :
    (encodeUtf8 (decodeUtf8 ((encodeUtf8 cs).take (boundary (encodeUtf8 cs) n)))).length ≤ n := by
  obtain ⟨k, hk, -⟩ := take_boundary cs hn
  have hlength : (encodeUtf8 (cs.take k)).length ≤ n := by
    rw [← hk, List.length_take]
    exact (min_le_left _ _).trans (boundary_le _ n)
  rw [hk, decodeUtf8, Decoder.run_encodeUtf8]
  exact (length_dropMark_le _).trans hlength

/-- What is decoded from octets cut at a boundary is at most six octets short of the cut: what a
scalar would have taken, and a byte order mark. -/
theorem le_length_decode_cut (cs : List Char) {n : ℕ} (hn : n < (encodeUtf8 cs).length) :
    n ≤ (encodeUtf8 (decodeUtf8 ((encodeUtf8 cs).take (boundary (encodeUtf8 cs) n)))).length + 6 := by
  obtain ⟨k, hk, -⟩ := take_boundary cs hn
  have hlength : (encodeUtf8 (cs.take k)).length = boundary (encodeUtf8 cs) n := by
    rw [← hk, List.length_take]
    exact min_eq_left ((boundary_le _ n).trans hn.le)
  have hboundary := le_boundary cs hn
  have hmark := le_length_dropMark (cs.take k)
  rw [hk, decodeUtf8, Decoder.run_encodeUtf8]
  omega

/-- The code points of a text. A lone surrogate is one. -/
def codePoints : List CodeUnit → List ℕ
  | [] => []
  | [u] => [u.toNat]
  | u :: v :: rest =>
    if isHigh u && isLow v then
      (0x10000 + (u.toNat - 0xD800) * 0x400 + (v.toNat - 0xDC00)) :: codePoints rest
    else u.toNat :: codePoints (v :: rest)

def isSurrogate (c : ℕ) : Bool := 0xD800 ≤ c && c < 0xE000

/-- The scalar a code point is encoded as. -/
def scalarOf (c : ℕ) : Char := if isSurrogate c then replacement else Char.ofNat c

theorem unitScalar_eq (u : CodeUnit) : unitScalar u = scalarOf u.toNat := by
  have hsurrogate : (isHigh u || isLow u) = isSurrogate u.toNat := by
    rw [Bool.eq_iff_iff]
    simp only [isHigh, isLow, isSurrogate, Bool.or_eq_true, Bool.and_eq_true, decide_eq_true_eq]
    omega
  rw [unitScalar, scalarOf, hsurrogate]

theorem scalars_eq (s : List CodeUnit) : scalars s = (codePoints s).map scalarOf := by
  induction s using scalars.induct with
  | case1 => rfl
  | case2 u => simp [scalars, codePoints, unitScalar_eq]
  | case3 u v rest hpair ih =>
    have hsurrogate : isSurrogate (0x10000 + (u.toNat - 0xD800) * 0x400 + (v.toNat - 0xDC00)) =
        false := by
      simp only [isSurrogate, Bool.and_eq_false_iff, decide_eq_false_iff_not]
      omega
    simp [scalars, codePoints, hpair, ih, pairScalar, scalarOf, hsurrogate]
  | case4 u v rest hpair ih => simp [scalars, codePoints, hpair, ih, unitScalar_eq]

theorem codePoints_lt (s : List CodeUnit) : ∀ c ∈ codePoints s, c < 0x110000 := by
  induction s using codePoints.induct with
  | case1 => simp [codePoints]
  | case2 u =>
    have hu := u.isLt
    exact List.forall_mem_singleton.mpr (by omega)
  | case3 u v rest hpair ih =>
    have hhigh := u.isLt
    have hlow := v.isLt
    rw [codePoints, if_pos hpair]
    simp only [isHigh, isLow, Bool.and_eq_true, decide_eq_true_eq] at hpair
    exact List.forall_mem_cons.mpr ⟨by omega, ih⟩
  | case4 u v rest hpair ih =>
    have hu := u.isLt
    rw [codePoints, if_neg hpair]
    exact List.forall_mem_cons.mpr ⟨by omega, ih⟩

theorem codePoints_unitsOf (c : Char) (rest : List CodeUnit) :
    codePoints (unitsOf c ++ rest) = c.toNat :: codePoints rest := by
  obtain ⟨u, hunits, hhigh, hlow, hpoint⟩ | ⟨high, low, hunits, hhigh, hlow, hpoint⟩ :=
    unitsOf_cases c
  · rw [hunits]
    cases rest with
    | nil => simp [codePoints, hpoint]
    | cons v rest => simp [codePoints, hhigh, hpoint]
  · simp [hunits, codePoints, hhigh, hlow, hpoint]

theorem codePoints_units (cs : List Char) : codePoints (units cs) = cs.map Char.toNat := by
  induction cs with
  | nil => rfl
  | cons c cs ih =>
    rw [units, List.flatMap_cons, codePoints_unitsOf, List.map_cons]
    exact congrArg _ ih

end Servanda.Unicode
