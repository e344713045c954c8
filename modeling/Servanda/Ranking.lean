import Servanda.Register
import Servanda.Strides
import Mathlib.Algebra.Order.Field.Rat
import Mathlib.Tactic.Positivity

/-!
The ranking with its arithmetic a parameter: each operation of the source is followed by `round`,
the nearest binary64 number where the node ranks and nothing at all where the score is exact.
-/

namespace Servanda.Ranking

structure RankInput where
  since : Rfc3339
  due : Option Rfc3339
  blockingCount : ℕ
  deriving DecidableEq

def RankInput.ofKey (key : OrderingKey) : RankInput := ⟨key.since, key.due, key.blockingCount⟩

section Rounding

variable (round : ℚ → ℚ)

def band (b : ℕ) (weight : ℚ) : Rank :=
  let clamped := min (max weight 0) (bandStride - 1)
  ⟨b, clamped, round (b * bandStride + clamped)⟩

def ageDays (item : RankInput) (now : ℤ) : ℚ :=
  max 0 (round (((now - Date.parse item.since : ℤ) : ℚ) / 86400000))

def daysToDue (due : Rfc3339) (now : ℤ) : ℚ := round (((Date.parse due - now : ℤ) : ℚ) / 86400000)

def rank (item : RankInput) (now : ℤ) : Rank :=
  let ageWeight := round (ageDays round item now * (1 + item.blockingCount))
  match item.due with
  | none => band round bandUndated ageWeight
  | some due =>
    let daysToDue := daysToDue round due now
    if daysToDue < 0 then
      band round bandOverdue (round (-daysToDue * (1 + item.blockingCount)))
    else if daysToDue ≤ dueSoonHorizonDays then
      band round bandDueSoon
        (round (round (dueSoonHorizonDays - daysToDue) * (1 + item.blockingCount)))
    else band round bandUndated ageWeight

/-- The register ranks by it, rounding to binary64. -/
theorem rank_binary64 (key : OrderingKey) (now : Rfc3339) :
    rank Calendar.binary64 (.ofKey key) (Date.parse now) = Servanda.rank key now := by
  unfold rank Servanda.rank RankInput.ofKey
  cases key.due <;> rfl

end Rounding

/-- The days that count for an item inside its band: how late it is, how far inside the horizon,
and its age where no date raises it. -/
def standing (item : RankInput) (now : ℤ) : ℚ :=
  match item.due with
  | none => ageDays id item now
  | some due =>
    if daysToDue id due now < 0 then -daysToDue id due now
    else if daysToDue id due now ≤ dueSoonHorizonDays then
      dueSoonHorizonDays - daysToDue id due now
    else ageDays id item now

/-- The band of an item, by its date alone. -/
def bandOf (item : RankInput) (now : ℤ) : ℕ :=
  match item.due with
  | none => bandUndated
  | some due =>
    if daysToDue id due now < 0 then bandOverdue
    else if daysToDue id due now ≤ dueSoonHorizonDays then bandDueSoon
    else bandUndated

/-- An exact rank is one clamp and one stride, whichever branch made it. -/
theorem rank_eq (item : RankInput) (now : ℤ) : rank id item now =
    band id (bandOf item now) (standing item now * (1 + item.blockingCount)) := by
  unfold rank bandOf standing
  cases item.due with
  | none => rfl
  | some due =>
    dsimp only
    split_ifs <;> rfl

theorem rank_band (item : RankInput) (now : ℤ) : (rank id item now).band = bandOf item now := by
  rw [rank_eq]
  rfl

theorem rank_weight (item : RankInput) (now : ℤ) : (rank id item now).weight =
    Strides.clamp bandStride (standing item now * (1 + item.blockingCount)) := by
  rw [rank_eq]
  rfl

theorem rank_score (item : RankInput) (now : ℤ) : (rank id item now).score =
    Strides.encode bandStride (rank id item now).band (rank id item now).weight := by
  rw [rank_eq]
  rfl

theorem one_le_bandStride : 1 ≤ bandStride := by
  unfold bandStride
  norm_num

theorem weight_nonneg (item : RankInput) (now : ℤ) : 0 ≤ (rank id item now).weight := by
  rw [rank_weight]
  exact Strides.clamp_nonneg one_le_bandStride _

theorem weight_lt (item : RankInput) (now : ℤ) : (rank id item now).weight < bandStride := by
  rw [rank_weight]
  exact Strides.clamp_lt _ _

theorem standing_nonneg (item : RankInput) (now : ℤ) : 0 ≤ standing item now := by
  unfold standing
  cases item.due with
  | none => exact le_max_left _ _
  | some due =>
    dsimp only
    split_ifs with h₁ h₂
    · linarith
    · linarith
    · exact le_max_left _ _

variable {item other : RankInput} {now later : ℤ}

/-- The score orders as band and clamped weight do. -/
theorem score_lt_iff : (rank id item now).score < (rank id other later).score ↔
    toLex ((rank id item now).band, (rank id item now).weight) <
      toLex ((rank id other later).band, (rank id other later).weight) := by
  rw [rank_score item, rank_score other]
  exact Strides.encode_lt_iff (weight_nonneg item now) (weight_lt item now)
    (weight_nonneg other later) (weight_lt other later)

/-- Inside a band, more days and more blocked items never score less. -/
theorem score_mono (hband : (rank id item now).band = (rank id other later).band)
    (hdays : standing item now ≤ standing other later)
    (hcount : item.blockingCount ≤ other.blockingCount) :
    (rank id item now).score ≤ (rank id other later).score := by
  have hcount' : (1 + item.blockingCount : ℚ) ≤ 1 + other.blockingCount := by
    exact_mod_cast Nat.add_le_add_left hcount 1
  have hweight := mul_le_mul hdays hcount' (by positivity) (standing_nonneg other later)
  rw [rank_score item, rank_score other, hband, rank_weight item, rank_weight other]
  exact Strides.encode_mono _ _ (Strides.clamp_mono _ hweight)

theorem bandOf_undated (h : item.due = none) : bandOf item now = bandUndated := by
  unfold bandOf
  rw [h]

theorem bandOf_pos {due : Rfc3339} (h : item.due = some due)
    (hdays : daysToDue id due now ≤ dueSoonHorizonDays) : bandUndated < bandOf item now := by
  unfold bandOf
  rw [h]
  dsimp only
  split_ifs <;> decide

/-- An item no date raises counts its age. -/
theorem standing_of_undated (h : bandOf item now = bandUndated) :
    standing item now = ageDays id item now := by
  unfold bandOf at h
  unfold standing
  cases hdue : item.due with
  | none => rfl
  | some due =>
    simp only [hdue] at h ⊢
    split_ifs at h ⊢
    · cases h
    · cases h
    · rfl

/-- In one raised band, the item due sooner stands at least as high. -/
theorem standing_mono {due due' : Rfc3339} (hdue : item.due = some due)
    (hdue' : other.due = some due') (hband : bandOf item now = bandOf other later)
    (hraised : bandOf item now ≠ bandUndated)
    (hdays : daysToDue id due' later ≤ daysToDue id due now) :
    standing item now ≤ standing other later := by
  unfold bandOf at hband hraised
  unfold standing
  simp only [hdue, hdue'] at hband hraised ⊢
  split_ifs at hband hraised ⊢ <;> first | exact absurd rfl hraised | linarith | cases hband

/-- What the bands promise of two items ranked at one instant, and of each as time passes. -/
structure BandsKept (a b : RankInput) (now : ℤ) : Prop where
  /-- The score orders as band and clamped weight do. -/
  ordered : (rank id a now).score > (rank id b now).score ↔
    toLex ((rank id a now).band, (rank id a now).weight) >
      toLex ((rank id b now).band, (rank id b now).weight)
  /-- No age and no count lifts an undated item over one that a date raises. -/
  undated_below : a.due = none → ∀ due, b.due = some due →
    daysToDue id due now ≤ dueSoonHorizonDays → (rank id a now).score < (rank id b now).score
  age_mono : ∀ later, bandOf a now = bandUndated → bandOf b later = bandUndated →
    ageDays id a now ≤ ageDays id b later → a.blockingCount ≤ b.blockingCount →
      (rank id a now).score ≤ (rank id b later).score
  lateness_mono : ∀ later due due', a.due = some due → b.due = some due' →
    (rank id a now).band = (rank id b later).band → (rank id a now).band ≠ bandUndated →
      daysToDue id due' later ≤ daysToDue id due now → a.blockingCount ≤ b.blockingCount →
        (rank id a now).score ≤ (rank id b later).score
  /-- Time does not escalate what has no date. -/
  undated_stays : a.due = none → ∀ later ≥ now, (rank id a later).band = bandUndated ∧
    (rank id a now).score ≤ (rank id a later).score ∧ (rank id a later).score < bandStride

theorem ageDays_mono (item : RankInput) (h : now ≤ later) :
    ageDays id item now ≤ ageDays id item later := by
  have hcast : ((now - Date.parse item.since : ℤ) : ℚ) ≤ (later - Date.parse item.since : ℤ) := by
    exact_mod_cast sub_le_sub_right h _
  exact max_le_max_left _ (div_le_div_of_nonneg_right hcast (by norm_num))

theorem score_lt_stride (h : (rank id item now).band = bandUndated) :
    (rank id item now).score < bandStride := by
  rw [rank_score, h]
  simpa [Strides.encode, bandUndated] using weight_lt item now

theorem bandsKept (a b : RankInput) (now : ℤ) : BandsKept a b now where
  ordered := score_lt_iff
  undated_below hnone due hdue hdays := by
    rw [score_lt_iff, Prod.Lex.toLex_lt_toLex]
    left
    rw [rank_band, rank_band, bandOf_undated hnone]
    exact bandOf_pos hdue hdays
  age_mono later ha hb hage hcount := by
    refine score_mono ?_ ?_ hcount
    · rw [rank_band, rank_band, ha, hb]
    · rwa [standing_of_undated ha, standing_of_undated hb]
  lateness_mono later due due' ha hb hband hraised hdays hcount := by
    refine score_mono hband ?_ hcount
    rw [rank_band, rank_band] at hband
    rw [rank_band] at hraised
    exact standing_mono ha hb hband hraised hdays
  undated_stays hnone later hlater := by
    have hnow : bandOf a now = bandUndated := bandOf_undated hnone
    have hthen : bandOf a later = bandUndated := bandOf_undated hnone
    have hband : (rank id a later).band = bandUndated := by rw [rank_band, hthen]
    refine ⟨hband, score_mono ?_ ?_ le_rfl, score_lt_stride hband⟩
    · rw [rank_band, rank_band, hnow, hthen]
    · rw [standing_of_undated hnow, standing_of_undated hthen]
      exact ageDays_mono a hlater

end Servanda.Ranking
