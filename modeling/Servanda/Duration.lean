import Servanda.Primitives

namespace Servanda

open Calendar

structure ParsedDuration where
  years : ℕ
  months : ℕ
  weeks : ℕ
  days : ℕ
  hours : ℕ
  minutes : ℕ
  /-- The number the seconds text reads as, a binary64 value. -/
  seconds : ℚ

def component (group : Option Digits) : ℕ := (group.map Digits.toNat).getD 0

def secondsValue : Option (Digits × Digits) → ℚ
  | none => 0
  | some (whole, fraction) =>
    binary64 (whole.toNat + (fraction.toNat : ℚ) / 10 ^ fraction.length)

def parseDuration (duration : Iso8601Duration) : ParsedDuration where
  years := component duration.years
  months := component duration.months
  weeks := component duration.weeks
  days := component duration.days
  hours := component duration.hours
  minutes := component duration.minutes
  seconds := secondsValue duration.seconds

/-- Years and months moved calendar-wise, the time of day kept. -/
def shiftMonths (start : ℤ) (years months : ℕ) : Option ℤ :=
  let day := start / msPerDay
  timeClip (makeDay (yearFromDay day + years) (monthFromDay day + months) (dateFromDay day) *
    msPerDay + start % msPerDay : ℤ)

/-- The fixed part of a duration in milliseconds, in the arithmetic of the source: the whole
components are exact wherever the end is a date at all, and the seconds round. -/
def fixedMs (d : ParsedDuration) : ℚ :=
  binary64 (binary64 ((((d.weeks * 7 + d.days) * 86400 + d.hours * 3600 + d.minutes * 60 : ℕ) : ℚ) +
    d.seconds) * 1000)

/-- The instant a duration after another, or `none` where it is no date (`NaN`). -/
def addDuration (start : ℤ) (duration : Iso8601Duration) : Option ℤ :=
  let d := parseDuration duration
  let shifted := if d.years ≠ 0 ∨ d.months ≠ 0 then shiftMonths start d.years d.months else some start
  shifted.bind fun out ↦ timeClip (binary64 (out + fixedMs d))

def reaches (t : ℤ) (d : Option ℤ) : Bool := d.any fun e ↦ decide (e ≤ t)

def precedes (t : ℤ) (d : Option ℤ) : Bool := d.any fun e ↦ decide (t < e)

def P5D : Iso8601Duration := { days := some [5], wellFormed := by decide }

def P30D : Iso8601Duration := { days := some [3, 0], wellFormed := by decide }

theorem fixedMs_P30D : fixedMs (parseDuration P30D) = ((30 * msPerDay : ℤ) : ℚ) := by
  have h₁ : binary64 ((2592000 : ℤ) : ℚ) = ((2592000 : ℤ) : ℚ) := binary64_int (by decide)
  have h₂ : binary64 ((2592000000 : ℤ) : ℚ) = ((2592000000 : ℤ) : ℚ) := binary64_int (by decide)
  have hp : parseDuration P30D = ⟨0, 0, 0, 30, 0, 0, 0⟩ := rfl
  rw [hp]
  norm_num [fixedMs, msPerDay] at h₁ h₂ ⊢
  rw [h₁]
  norm_num [h₂]

/-- A duration of no years or months moves an instant by its fixed part, where that is exact. -/
theorem addDuration_fixed {start ms : ℤ} {d : Iso8601Duration}
    (hshift : (parseDuration d).years = 0 ∧ (parseDuration d).months = 0)
    (hfixed : fixedMs (parseDuration d) = (ms : ℚ)) (h : (start + ms).natAbs ≤ 2 ^ 53) :
    addDuration start d = timeClip ((start + ms : ℤ) : ℚ) := by
  have hend : (start : ℚ) + fixedMs (parseDuration d) = ((start + ms : ℤ) : ℚ) := by
    rw [hfixed]
    push_cast
    ring
  simp only [addDuration, hshift, ne_eq, not_true_eq_false, or_self, if_false, Option.bind_some,
    hend]
  rw [binary64_int h]

theorem addDuration_P30D {start : ℤ} (h : |start| ≤ 300000000000000) :
    addDuration start P30D = some (start + 30 * msPerDay) := by
  rw [abs_le] at h
  rw [addDuration_fixed ⟨rfl, rfl⟩ fixedMs_P30D (by unfold msPerDay; omega), timeClip_int]
  rw [abs_le]
  unfold msPerDay maxTime
  omega

end Servanda
