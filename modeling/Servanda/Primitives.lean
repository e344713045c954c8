import Servanda.Calendar

namespace Servanda

/-- Values of one width are ordered as the hex texts that spell them. -/
instance BitVec.linearOrder (w : ℕ) : LinearOrder (BitVec w) where
  le_refl := BitVec.le_refl
  le_trans _ _ _ := BitVec.le_trans
  le_antisymm _ _ := BitVec.le_antisymm
  le_total := BitVec.le_total
  lt_iff_le_not_ge _ _ := by simp only [BitVec.lt_def, BitVec.le_def]; omega
  toDecidableLE := inferInstance
  toDecidableEq := inferInstance
  toDecidableLT := inferInstance

abbrev Sha256Hex := BitVec 256

abbrev PublicKeyHex := BitVec 256

instance lawfulBEqPublicKeyHex : LawfulBEq PublicKeyHex := inferInstance

abbrev SignatureHex := BitVec 512

instance neZeroTen : NeZero 10 := ⟨by decide⟩

abbrev Digits := List (Fin 10)

def Digits.toNat (ds : Digits) : ℕ := ds.foldl (fun n d ↦ 10 * n + d.val) 0

def hexDigit (n : ℕ) : Char := if n < 10 then Char.ofNat (48 + n) else Char.ofNat (87 + n)

def hexText {w : ℕ} (b : BitVec w) : List Char :=
  (List.range (w / 4)).map fun i ↦ hexDigit (b.toNat / 16 ^ (w / 4 - 1 - i) % 16)

/-- A number as decimal text, padded with zeros to at least the width (`padStart`). -/
def padStart (width n : ℕ) : List Char :=
  let ds := Nat.toDigits 10 n
  List.replicate (width - ds.length) '0' ++ ds

inductive Zone
  | utc
  | offset (east : Bool) (hours minutes : ℕ)
  deriving DecidableEq, Repr

/-- Milliseconds by which local time runs ahead of UTC. -/
def Zone.ahead : Zone → ℤ
  | .utc => 0
  | .offset true h m => (h * 60 + m) * 60000
  | .offset false h m => -((h * 60 + m) * 60000)

def Zone.InRange : Zone → Prop
  | .utc => True
  | .offset _ h m => h ≤ 23 ∧ m ≤ 59

instance : DecidablePred Zone.InRange
  | .utc => inferInstanceAs (Decidable True)
  | .offset _ h m => inferInstanceAs (Decidable (h ≤ 23 ∧ m ≤ 59))

/-- A timestamp the `Rfc3339` schema accepts, by its parts: the text has the RFC 3339 form and
`Date.parse` reads a number from it. No fraction digits stand for an absent fraction. -/
structure Rfc3339 where
  year : ℕ
  month : ℕ
  day : ℕ
  hour : ℕ
  minute : ℕ
  second : ℕ
  fraction : Digits
  zone : Zone
  parseable : year ≤ 9999 ∧ (1 ≤ month ∧ month ≤ 12) ∧ (1 ≤ day ∧ day ≤ 31) ∧
    (hour ≤ 23 ∨ hour = 24 ∧ minute = 0 ∧ second = 0 ∧ ∀ d ∈ fraction, d = 0) ∧
    minute ≤ 59 ∧ second ≤ 59 ∧ zone.InRange
  deriving DecidableEq

namespace Rfc3339

def text (t : Rfc3339) : List Char :=
  padStart 4 t.year ++ '-' :: padStart 2 t.month ++ '-' :: padStart 2 t.day ++
  'T' :: padStart 2 t.hour ++ ':' :: padStart 2 t.minute ++ ':' :: padStart 2 t.second ++
  (if t.fraction = [] then [] else '.' :: t.fraction.map fun d ↦ hexDigit d.val) ++
  match t.zone with
  | .utc => ['Z']
  | .offset east h m => (if east then '+' else '-') :: padStart 2 h ++ ':' :: padStart 2 m

/-- Milliseconds of the fraction: its first three digits, the rest dropped. -/
def millis (t : Rfc3339) : ℕ := Digits.toNat ((t.fraction ++ [0, 0, 0]).take 3)

end Rfc3339

open Calendar

/-- Milliseconds since the epoch. The schema admits only texts that have them. -/
def Date.parse (t : Rfc3339) : ℤ :=
  makeDay t.year (t.month - 1) t.day * msPerDay +
    (((t.hour * 60 + t.minute) * 60 + t.second) * 1000 + t.millis : ℕ) - t.zone.ahead

theorem Zone.ahead_bound {z : Zone} (h : z.InRange) : |z.ahead| < msPerDay := by
  unfold msPerDay
  cases z with
  | utc => simp [ahead]
  | offset east hours minutes =>
    obtain ⟨h₁, h₂⟩ := h
    cases east <;> simp only [ahead, abs_lt] <;> omega

theorem Rfc3339.millis_lt (t : Rfc3339) : t.millis < 1000 := by
  have hl : ((t.fraction ++ [0, 0, 0]).take 3).length = 3 := by simp
  unfold millis
  match (t.fraction ++ [0, 0, 0]).take 3, hl with
  | [a, b, c], _ => simp only [Digits.toNat, List.foldl_cons, List.foldl_nil]; omega

theorem Date.parse_bound (t : Rfc3339) : |Date.parse t| ≤ 300000000000000 := by
  obtain ⟨hy, ⟨hm₁, hm₂⟩, ⟨hd₁, hd₂⟩, hh, hmin, hs, hz⟩ := t.parseable
  have hz' := Zone.ahead_bound hz
  have hb := daysBeforeMonth_bound (isLeap ((t.year : ℤ) + ((t.month : ℤ) - 1) / 12))
    (((t.month : ℤ) - 1) % 12)
  have hml := t.millis_lt
  have hhour : t.hour ≤ 24 := by omega
  rw [abs_lt] at hz'
  rw [abs_le]
  unfold Date.parse makeDay dayFromYear
  unfold msPerDay at hz' ⊢
  push_cast
  constructor <;> omega

/-- An ISO 8601 duration the schema accepts: at least one component, each a run of digits. -/
structure Iso8601Duration where
  years : Option Digits := none
  months : Option Digits := none
  weeks : Option Digits := none
  days : Option Digits := none
  hours : Option Digits := none
  minutes : Option Digits := none
  /-- The whole seconds and the digits after the point, none where there is no point. -/
  seconds : Option (Digits × Digits) := none
  wellFormed : (∀ ds ∈ [years, months, weeks, days, hours, minutes, seconds.map Prod.fst].reduceOption,
      ds ≠ []) ∧
    [years, months, weeks, days, hours, minutes, seconds.map Prod.fst].reduceOption ≠ []
  deriving DecidableEq

end Servanda
