import Servanda.Envelope

namespace Servanda

namespace Calendar

theorem dayFromYear_estimate (day : ℤ) : dayFromYear (1970 + day * 400 / 146097 - 1) ≤ day ∧
    day < dayFromYear (1970 + day * 400 / 146097 + 2) := by
  unfold dayFromYear
  constructor <;> omega

/-- A day lies in its year. -/
theorem yearFromDay_spec (day : ℤ) :
    dayFromYear (yearFromDay day) ≤ day ∧ day < dayFromYear (yearFromDay day + 1) := by
  obtain ⟨hlow, hhigh⟩ := dayFromYear_estimate day
  unfold yearFromDay
  dsimp only
  split_ifs with hbefore hafter
  · exact ⟨hlow, by simpa using hbefore⟩
  · exact ⟨hafter, by rwa [add_assoc]⟩
  · exact ⟨not_lt.1 hbefore, not_le.1 hafter⟩

theorem dayFromYear_succ (y : ℤ) :
    dayFromYear (y + 1) = dayFromYear y + if isLeap y then 366 else 365 := by
  unfold dayFromYear isLeap
  simp only [Bool.and_eq_true, Bool.or_eq_true, beq_iff_eq, bne_iff_ne]
  split_ifs <;> omega

theorem dayFromYear_mono {y y' : ℤ} (h : y ≤ y') : dayFromYear y ≤ dayFromYear y' := by
  unfold dayFromYear
  omega

/-- Every day of a year lies in a month, at most thirty days after its first. -/
theorem month_bound : ∀ leap : Bool, ∀ n < (if leap then 366 else 365),
    let month := (([1, 2, 3, 4, 5, 6, 7, 8, 9, 10, 11] : List ℤ).filter fun m ↦
      daysBeforeMonth leap m ≤ (n : ℕ)).length
    0 ≤ n - daysBeforeMonth leap month ∧ n - daysBeforeMonth leap month ≤ 30 := by
  decide +kernel

theorem monthFromDay_bound (day : ℤ) : 0 ≤ monthFromDay day ∧ monthFromDay day ≤ 11 := by
  unfold monthFromDay
  have hle := List.length_filter_le (fun m ↦ decide (daysBeforeMonth (isLeap (yearFromDay day)) m ≤
    day - dayFromYear (yearFromDay day))) ([1, 2, 3, 4, 5, 6, 7, 8, 9, 10, 11] : List ℤ)
  refine ⟨Int.natCast_nonneg _, Int.ofNat_le.2 hle⟩

theorem dateFromDay_bound (day : ℤ) : 1 ≤ dateFromDay day ∧ dateFromDay day ≤ 31 := by
  obtain ⟨hlow, hhigh⟩ := yearFromDay_spec day
  rw [dayFromYear_succ] at hhigh
  obtain ⟨n, hn⟩ := Int.eq_ofNat_of_zero_le (sub_nonneg.2 hlow)
  have hlt : n < if isLeap (yearFromDay day) then 366 else 365 := by
    split_ifs at hhigh ⊢ <;> omega
  obtain ⟨h₁, h₂⟩ := month_bound (isLeap (yearFromDay day)) n hlt
  unfold dateFromDay monthFromDay
  simp only [hn]
  constructor <;> omega

end Calendar

open Calendar Unicode

namespace Rfc3339

theorem digit?_digitChar : ∀ d < 10, (digit? (Nat.digitChar d)).map Fin.val = some d := by decide

/-- Decimal digits spell the number they come from. -/
theorem digits?_toDigits (n : ℕ) : ∃ ds, digits? (Nat.toDigits 10 n) = some ds ∧ ds.toNat = n := by
  induction n using Nat.strong_induction_on with
  | _ n ih =>
    by_cases h : n < 10
    · obtain ⟨d, hd, hval⟩ := Option.map_eq_some_iff.1 (digit?_digitChar n h)
      refine ⟨[d], ?_, ?_⟩
      · rw [Nat.toDigits_of_lt_base h, digits?, List.mapM_cons, hd]
        rfl
      · simp [Digits.toNat, hval]
    · obtain ⟨ds, hds, hvalue⟩ := ih (n / 10) (by omega)
      obtain ⟨d, hd, hval⟩ := Option.map_eq_some_iff.1 (digit?_digitChar (n % 10) (by omega))
      refine ⟨ds ++ [d], ?_, ?_⟩
      · rw [digits?] at hds
        rw [Nat.toDigits_of_base_le (by decide) (not_lt.1 h), digits?, List.mapM_append, hds]
        simp [hd]
      · rw [Digits.toNat] at hvalue
        rw [Digits.toNat, List.foldl_append, hvalue, List.foldl_cons, List.foldl_nil, hval]
        omega

theorem digits?_zeros {cs : List Char} {ds : Digits} (k : ℕ) (h : digits? cs = some ds) :
    ∃ ds', digits? (List.replicate k '0' ++ cs) = some ds' ∧ ds'.toNat = ds.toNat := by
  induction k with
  | zero => exact ⟨ds, h, rfl⟩
  | succ k ih =>
    obtain ⟨ds', hds', hvalue⟩ := ih
    refine ⟨0 :: ds', ?_, by rw [← hvalue]; rfl⟩
    rw [digits?] at hds'
    rw [List.replicate_succ, List.cons_append, digits?, List.mapM_cons, hds']
    rfl

/-- A padded number of at most `width` digits is read back. -/
theorem padStart_spec {width n : ℕ} (h : n < 10 ^ width) (hwidth : 0 < width) :
    (padStart width n).length = width ∧
      ∃ ds, digits? (padStart width n) = some ds ∧ ds.toNat = n := by
  obtain ⟨ds, hds, hvalue⟩ := digits?_toDigits n
  obtain ⟨ds', hds', hvalue'⟩ := digits?_zeros (width - (Nat.toDigits 10 n).length) hds
  have hle : (Nat.toDigits 10 n).length ≤ width := (Nat.length_toDigits_le_iff (by decide) hwidth).2 h
  refine ⟨?_, ds', hds', hvalue'.trans hvalue⟩
  simp only [padStart, List.length_append, List.length_replicate]
  omega

theorem digits?_two {n : ℕ} (h : n < 100) :
    ∃ a b ds, padStart 2 n = [a, b] ∧ digits? [a, b] = some ds ∧ ds.toNat = n := by
  obtain ⟨hlength, ds, hds, hvalue⟩ := padStart_spec h (by decide : 0 < 2)
  obtain ⟨a, b, hab⟩ := List.length_eq_two.1 hlength
  exact ⟨a, b, ds, hab, hab ▸ hds, hvalue⟩

theorem digits?_four {n : ℕ} (h : n < 10000) :
    ∃ a b c d ds, padStart 4 n = [a, b, c, d] ∧ digits? [a, b, c, d] = some ds ∧ ds.toNat = n := by
  obtain ⟨hlength, ds, hds, hvalue⟩ := padStart_spec h (by decide : 0 < 4)
  match hcs : padStart 4 n, hlength with
  | [a, b, c, d], _ => exact ⟨a, b, c, d, ds, rfl, hcs ▸ hds, hvalue⟩

/-- A timestamp to the second in UTC is read back from its text. -/
theorem ofText?_text {t : Rfc3339} (hfraction : t.fraction = []) (hzone : t.zone = .utc) :
    ofText? t.text = some t := by
  obtain ⟨year, month, day, hour, minute, second, fraction, zone, parseable⟩ := t
  obtain rfl : fraction = [] := hfraction
  obtain rfl : zone = .utc := hzone
  have hbounds := parseable
  obtain ⟨hyear, ⟨-, hmonth⟩, ⟨-, hday⟩, hhour, hminute, hsecond, -⟩ := hbounds
  obtain ⟨y₁, y₂, y₃, y₄, ys, hy, hys, hyv⟩ := digits?_four (show year < 10000 by omega)
  obtain ⟨o₁, o₂, os, ho, hos, hov⟩ := digits?_two (show month < 100 by omega)
  obtain ⟨d₁, d₂, ds, hd, hds, hdv⟩ := digits?_two (show day < 100 by omega)
  obtain ⟨h₁, h₂, hs, hh, hhs, hhv⟩ := digits?_two (show hour < 100 by omega)
  obtain ⟨m₁, m₂, ms, hm, hms, hmv⟩ := digits?_two (show minute < 100 by omega)
  obtain ⟨s₁, s₂, ss, hsec, hss, hsv⟩ := digits?_two (show second < 100 by omega)
  have htext : text ⟨year, month, day, hour, minute, second, [], .utc, parseable⟩ =
      [y₁, y₂, y₃, y₄, '-', o₁, o₂, '-', d₁, d₂, 'T', h₁, h₂, ':', m₁, m₂, ':', s₁, s₂, 'Z'] := by
    simp [text, hy, ho, hd, hh, hm, hsec]
  have hhour' : hour ≤ 23 ∨ hour = 24 ∧ minute = 0 ∧ second = 0 := by simpa using hhour
  rw [htext]
  simp [ofText?, field?, fraction?, zone?, hys, hos, hds, hhs, hms, hss, hyv, hov, hdv, hhv, hmv, hsv,
    parseable, hhour']

end Rfc3339

/-- The year of an ISO date: outside 0 to 9999 it has a sign and six digits. -/
def isoYear (y : ℤ) : List Char :=
  if 0 ≤ y ∧ y ≤ 9999 then padStart 4 y.toNat
  else (if y < 0 then '-' else '+') :: padStart 6 y.natAbs

/-- The text of a time value. On any other number the source throws. -/
def toISOString (t : ℤ) (_ht : |t| ≤ maxTime) : List Char :=
  let day := t / msPerDay
  let time := (t % msPerDay).toNat
  isoYear (yearFromDay day) ++ '-' :: padStart 2 (monthFromDay day + 1).toNat ++ '-' ::
    padStart 2 (dateFromDay day).toNat ++ 'T' :: padStart 2 (time / 3600000) ++ ':' ::
    padStart 2 (time / 60000 % 60) ++ ':' :: padStart 2 (time / 1000 % 60) ++ '.' ::
    padStart 3 (time % 1000) ++ ['Z']

/-- A text without the milliseconds before its final `Z`. -/
def dropMillis (cs : List Char) : List Char :=
  match cs.drop (cs.length - 5) with
  | ['.', a, b, c, 'Z'] =>
    if a.isDigit && b.isDigit && c.isDigit then cs.take (cs.length - 5) ++ ['Z'] else cs
  | _ => cs

/-- The latest time a mail date may have, the start of the year 3000. -/
def maxMailTime : ℤ := 32503680000000

section

variable {t : ℤ} (h : 0 ≤ t ∧ t ≤ maxMailTime)

include h

theorem abs_le_maxTime : |t| ≤ maxTime := by
  unfold maxMailTime at h
  unfold maxTime
  rw [abs_le]
  omega

theorem yearFromDay_mail :
    0 ≤ yearFromDay (t / msPerDay) ∧ yearFromDay (t / msPerDay) ≤ 9999 := by
  obtain ⟨hlow, hhigh⟩ := yearFromDay_spec (t / msPerDay)
  unfold maxMailTime at h
  have hday : 0 ≤ t / msPerDay ∧ t / msPerDay ≤ 376200 := by
    unfold msPerDay
    omega
  constructor
  · by_contra hneg
    have hle := dayFromYear_mono (show yearFromDay (t / msPerDay) + 1 ≤ 0 by omega)
    have hzero : dayFromYear 0 = -719528 := by decide
    omega
  · by_contra hlate
    have hle := dayFromYear_mono (show 10000 ≤ yearFromDay (t / msPerDay) by omega)
    have hlast : dayFromYear 10000 = 2932897 := by decide
    omega

end

/-- The second a time value falls into. -/
def secondOf (t : ℤ) (h : 0 ≤ t ∧ t ≤ maxMailTime) : Rfc3339 where
  year := (yearFromDay (t / msPerDay)).toNat
  month := (monthFromDay (t / msPerDay) + 1).toNat
  day := (dateFromDay (t / msPerDay)).toNat
  hour := (t % msPerDay).toNat / 3600000
  minute := (t % msPerDay).toNat / 60000 % 60
  second := (t % msPerDay).toNat / 1000 % 60
  fraction := []
  zone := .utc
  parseable := by
    have hyear := yearFromDay_mail h
    have hmonth := monthFromDay_bound (t / msPerDay)
    have hdate := dateFromDay_bound (t / msPerDay)
    have htime : (t % msPerDay).toNat < 86400000 := by
      unfold msPerDay
      omega
    refine ⟨by omega, by omega, by omega, .inl (by omega), by omega, by omega, trivial⟩

theorem isDigit_of_mem_padStart {width n : ℕ} {c : Char} (h : c ∈ padStart width n) :
    c.isDigit = true := by
  obtain hzero | hdigit := List.mem_append.1 h
  · rw [List.eq_of_mem_replicate hzero]
    rfl
  · exact Nat.isDigit_of_mem_toDigits (by decide) (by decide) hdigit

theorem dropMillis_append (cs : List Char) {n : ℕ} (h : n < 1000) :
    dropMillis (cs ++ '.' :: padStart 3 n ++ ['Z']) = cs ++ ['Z'] := by
  obtain ⟨hthree, -⟩ := Rfc3339.padStart_spec (show n < 10 ^ 3 from h) (by decide)
  obtain ⟨a, b, c, habc⟩ := List.length_eq_three.1 hthree
  have hdigits : ∀ d ∈ [a, b, c], d.isDigit = true := fun d hd ↦
    isDigit_of_mem_padStart (habc ▸ hd)
  have hdigit : (a.isDigit && b.isDigit && c.isDigit) = true := by simpa [and_assoc] using hdigits
  have hlength : (cs ++ '.' :: [a, b, c] ++ ['Z']).length - 5 = cs.length := by simp
  have hassoc : cs ++ '.' :: [a, b, c] ++ ['Z'] = cs ++ ['.', a, b, c, 'Z'] := by simp
  rw [habc, dropMillis, hlength, hassoc, List.drop_left]
  simp [hdigit]

theorem dropMillis_toISOString {t : ℤ} (h : 0 ≤ t ∧ t ≤ maxMailTime) :
    dropMillis (toISOString t (abs_le_maxTime h)) = (secondOf t h).text := by
  have hyear := yearFromDay_mail h
  have hmillis : (t % msPerDay).toNat % 1000 < 1000 := Nat.mod_lt _ (by decide)
  rw [toISOString, dropMillis_append _ hmillis, Rfc3339.text, isoYear, if_pos hyear]
  simp [secondOf]

/-- A time value of a mail date has an RFC 3339 text to the second. -/
theorem isRfc3339_second {t : ℤ} (h : 0 ≤ t ∧ t ≤ maxMailTime) :
    isRfc3339 (units (dropMillis (toISOString t (abs_le_maxTime h)))) = true := by
  rw [isRfc3339, scalars_units, dropMillis_toISOString h, Rfc3339.ofText?_text rfl rfl,
    Option.isSome_some]

theorem Rfc3339.digits?_three {n : ℕ} (h : n < 1000) : ∃ a b c d₁ d₂ d₃,
    padStart 3 n = [a, b, c] ∧ digit? a = some d₁ ∧ digit? b = some d₂ ∧ digit? c = some d₃ := by
  obtain ⟨hlength, ds, hds, -⟩ := padStart_spec h (by decide : 0 < 3)
  obtain ⟨a, b, c, habc⟩ := List.length_eq_three.1 hlength
  rw [habc] at hds
  cases ha : digit? a <;> cases hb : digit? b <;> cases hc : digit? c <;>
    simp [digits?, ha, hb, hc] at hds
  exact ⟨a, b, c, _, _, _, habc, ha, hb, hc⟩

/-- The platform's text of a time has the RFC 3339 form where its year has four digits. -/
theorem isRfc3339_toISOString_iff {t : ℤ} (ht : |t| ≤ maxTime) :
    isRfc3339 (units (toISOString t ht)) = true ↔
      0 ≤ yearFromDay (t / msPerDay) ∧ yearFromDay (t / msPerDay) ≤ 9999 := by
  have hmonth := monthFromDay_bound (t / msPerDay)
  have hdate := dateFromDay_bound (t / msPerDay)
  have htime : (t % msPerDay).toNat < 86400000 := by
    unfold msPerDay
    omega
  rw [isRfc3339, scalars_units, toISOString]
  by_cases hyear : 0 ≤ yearFromDay (t / msPerDay) ∧ yearFromDay (t / msPerDay) ≤ 9999
  · refine iff_of_true ?_ hyear
    generalize yearFromDay (t / msPerDay) = y at hyear ⊢
    obtain ⟨y₁, y₂, y₃, y₄, ys, hy, hys, hyv⟩ := Rfc3339.digits?_four (show y.toNat < 10000 by omega)
    obtain ⟨o₁, o₂, os, ho, hos, hov⟩ :=
      Rfc3339.digits?_two (show (monthFromDay (t / msPerDay) + 1).toNat < 100 by omega)
    obtain ⟨d₁, d₂, ds, hd, hds, hdv⟩ :=
      Rfc3339.digits?_two (show (dateFromDay (t / msPerDay)).toNat < 100 by omega)
    obtain ⟨h₁, h₂, hs, hh, hhs, hhv⟩ :=
      Rfc3339.digits?_two (show (t % msPerDay).toNat / 3600000 < 100 by omega)
    obtain ⟨m₁, m₂, ms, hm, hms, hmv⟩ :=
      Rfc3339.digits?_two (show (t % msPerDay).toNat / 60000 % 60 < 100 by omega)
    obtain ⟨s₁, s₂, ss, hsec, hss, hsv⟩ :=
      Rfc3339.digits?_two (show (t % msPerDay).toNat / 1000 % 60 < 100 by omega)
    obtain ⟨f₁, f₂, f₃, e₁, e₂, e₃, hf, hf₁, hf₂, hf₃⟩ :=
      Rfc3339.digits?_three (show (t % msPerDay).toNat % 1000 < 1000 by omega)
    have hzone : Rfc3339.digit? 'Z' = none := rfl
    have hfraction : Rfc3339.fraction? ['.', f₁, f₂, f₃, 'Z'] = some ([e₁, e₂, e₃], ['Z']) := by
      simp [Rfc3339.fraction?, Rfc3339.digits?, hf₁, hf₂, hf₃, hzone]
    have hparseable : y.toNat ≤ 9999 ∧
        (1 ≤ (monthFromDay (t / msPerDay) + 1).toNat ∧
          (monthFromDay (t / msPerDay) + 1).toNat ≤ 12) ∧
        (1 ≤ (dateFromDay (t / msPerDay)).toNat ∧ (dateFromDay (t / msPerDay)).toNat ≤ 31) ∧
        (t % msPerDay).toNat / 3600000 ≤ 23 ∧ (t % msPerDay).toNat / 60000 % 60 ≤ 59 ∧
          (t % msPerDay).toNat / 1000 % 60 ≤ 59 := by omega
    simp only [isoYear, if_pos hyear, hy, ho, hd, hh, hm, hsec, hf]
    simp [Rfc3339.ofText?, Rfc3339.field?, Rfc3339.zone?, hys, hos, hds, hhs, hms, hss, hyv, hov,
      hdv, hhv, hmv, hsv, hfraction, hparseable, Zone.InRange]
  · refine iff_of_false ?_ hyear
    obtain ⟨sign, n, hsign, hiso⟩ : ∃ sign n, Rfc3339.digit? sign = none ∧
        isoYear (yearFromDay (t / msPerDay)) = sign :: padStart 6 n := by
      refine ⟨_, _, ?_, if_neg hyear⟩
      split_ifs <;> rfl
    have hnone : ∀ rest, Rfc3339.field? (sign :: rest) 0 4 = none := by
      intro rest
      simp [Rfc3339.field?, Rfc3339.digits?, hsign]
    rw [hiso]
    simp [Rfc3339.ofText?, hnone]

end Servanda
