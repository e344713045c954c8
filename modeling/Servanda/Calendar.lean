import Mathlib.Data.Int.Log
import Mathlib.Data.Rat.Floor

namespace Servanda.Calendar

/-- Days from the epoch to the first day of a year, in the proleptic Gregorian calendar. -/
def dayFromYear (y : ℤ) : ℤ :=
  365 * (y - 1970) + (y - 1969) / 4 - (y - 1901) / 100 + (y - 1601) / 400

def isLeap (y : ℤ) : Bool := y % 4 == 0 && (y % 100 != 0 || y % 400 == 0)

def cumulativeDays : List ℤ := [0, 31, 59, 90, 120, 151, 181, 212, 243, 273, 304, 334]

/-- Days of a year that precede a month, the months counted from zero. -/
def daysBeforeMonth (leap : Bool) (m : ℤ) : ℤ :=
  cumulativeDays.getD m.toNat 0 + if leap && decide (2 ≤ m) then 1 else 0

theorem cumulativeDays_bound (n : ℕ) :
    0 ≤ cumulativeDays.getD n 0 ∧ cumulativeDays.getD n 0 ≤ 334 := by
  by_cases h : n < 12
  · have hall : ∀ i : Fin 12, 0 ≤ cumulativeDays.getD i 0 ∧ cumulativeDays.getD i 0 ≤ 334 := by
      decide
    exact hall ⟨n, h⟩
  · have hnone : cumulativeDays.getD n 0 = 0 := by
      rw [List.getD_eq_getElem?_getD, List.getElem?_eq_none (Nat.not_lt.mp h), Option.getD_none]
    rw [hnone]
    exact ⟨le_rfl, by decide⟩

theorem daysBeforeMonth_bound (leap : Bool) (m : ℤ) :
    0 ≤ daysBeforeMonth leap m ∧ daysBeforeMonth leap m ≤ 335 := by
  have h := cumulativeDays_bound m.toNat
  unfold daysBeforeMonth
  split_ifs <;> omega

/-- The day number of a date. Months and days outside their ranges carry over. -/
def makeDay (y m d : ℤ) : ℤ :=
  let ym := y + m / 12
  dayFromYear ym + daysBeforeMonth (isLeap ym) (m % 12) + (d - 1)

/-- The year a day lies in: an estimate by the mean year, off by at most one. -/
def yearFromDay (day : ℤ) : ℤ :=
  let y := 1970 + day * 400 / 146097
  if day < dayFromYear y then y - 1 else if dayFromYear (y + 1) ≤ day then y + 1 else y

def monthFromDay (day : ℤ) : ℤ :=
  let y := yearFromDay day
  let within := day - dayFromYear y
  (([1, 2, 3, 4, 5, 6, 7, 8, 9, 10, 11] : List ℤ).filter fun m ↦
    daysBeforeMonth (isLeap y) m ≤ within).length

def dateFromDay (day : ℤ) : ℤ :=
  let y := yearFromDay day
  day - dayFromYear y - daysBeforeMonth (isLeap y) (monthFromDay day) + 1

def msPerDay : ℤ := 86400000

def maxTime : ℤ := 8640000000000000

/-- A time value, or `none` where the number is out of range and the date is invalid. -/
def timeClip (t : ℚ) : Option ℤ :=
  if |t| ≤ maxTime then some (if 0 ≤ t then ⌊t⌋ else ⌈t⌉) else none

theorem timeClip_int {t : ℤ} (h : |t| ≤ maxTime) : timeClip t = some t := by
  have h' : |(t : ℚ)| ≤ (maxTime : ℚ) := by exact_mod_cast h
  simp [timeClip, h']

/-- The binary64 number nearest to a rational, ties to even. Overflow and subnormal numbers are
left out: the results that matter lie far inside the range. -/
def binary64 (q : ℚ) : ℚ :=
  if q.den = 1 ∧ q.num.natAbs ≤ 2 ^ 53 then q
  else
    let ulp : ℚ := (2 : ℚ) ^ (Int.log 2 |q| - 52)
    let low := ⌊q / ulp⌋
    let rest := q / ulp - low
    let n := if rest < 1 / 2 then low else if 1 / 2 < rest then low + 1
      else if low % 2 = 0 then low else low + 1
    n * ulp

theorem binary64_int {n : ℤ} (h : n.natAbs ≤ 2 ^ 53) : binary64 n = n := if_pos ⟨rfl, h⟩

end Servanda.Calendar
