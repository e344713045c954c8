import Mathlib.Algebra.Order.Ring.Defs
import Mathlib.Data.Prod.Lex
import Mathlib.Tactic.Linarith

namespace Servanda.Strides

variable {K : Type*} [CommRing K] [LinearOrder K] [IsStrictOrderedRing K]

/-- A weight held between zero and one below the stride. -/
def clamp (stride weight : K) : K := min (max weight 0) (stride - 1)

/-- Two keys in one number: the class counts in strides, the weight inside one. -/
def encode (stride : K) (c : ℕ) (weight : K) : K := c * stride + weight

omit [IsStrictOrderedRing K] in
theorem clamp_mono (stride : K) {v w : K} (h : v ≤ w) : clamp stride v ≤ clamp stride w :=
  min_le_min_right _ (max_le_max_right _ h)

theorem clamp_nonneg {stride : K} (h : 1 ≤ stride) (w : K) : 0 ≤ clamp stride w :=
  le_min (le_max_right _ _) (by linarith)

theorem clamp_lt (stride w : K) : clamp stride w < stride :=
  (min_le_right _ _).trans_lt (by linarith)

theorem encode_mono (stride : K) (c : ℕ) {v w : K} (h : v ≤ w) :
    encode stride c v ≤ encode stride c w := by
  unfold encode
  linarith

variable {stride v w : K} {b c : ℕ}

/-- A lower class stays below a higher one, whatever the weights inside their strides. -/
theorem encode_lt_of_lt (hs : 0 ≤ stride) (hv : v < stride) (hw : 0 ≤ w) (h : b < c) :
    encode stride b v < encode stride c w := by
  have hcast : (b : K) + 1 ≤ c := by exact_mod_cast h
  have := mul_le_mul_of_nonneg_right hcast hs
  unfold encode
  linarith

/-- The number orders as the pair does, class first. -/
theorem encode_lt_iff (hv : 0 ≤ v) (hv' : v < stride) (hw : 0 ≤ w) (hw' : w < stride) :
    encode stride b v < encode stride c w ↔ toLex (b, v) < toLex (c, w) := by
  have hs : 0 ≤ stride := hv.trans hv'.le
  rw [Prod.Lex.toLex_lt_toLex]
  rcases lt_trichotomy b c with h | rfl | h
  · exact iff_of_true (encode_lt_of_lt hs hv' hw h) (.inl h)
  · simp [encode]
  · refine iff_of_false (encode_lt_of_lt hs hw' hv h).not_gt ?_
    rintro (h' | ⟨h', -⟩)
    · exact h.not_gt h'
    · exact h.ne' h'

end Servanda.Strides
