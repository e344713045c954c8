import Mathlib.Data.List.DropRight
import Servanda.Unicode

/-!
A sequence read as lines, the pieces that a separator ends, and the lines of octets against the
lines of the text they decode to.
-/

namespace Servanda.Lines

section Separated

variable {α : Type*} [DecidableEq α] {sep : α} {l m : List α}

/-- The lines of a sequence, each without the separator that ends it. What follows the last
separator is no line yet. -/
def lines (sep : α) (l : List α) : List (List α) := (l.splitOn sep).dropLast

/-- A sequence as far as its last separator. -/
def whole (sep : α) (l : List α) : List α := l.rdropWhile (· ≠ sep)

/-- A sequence with nothing after its last separator. -/
def Ended (sep : α) (l : List α) : Prop := l = [] ∨ ∃ before, l = before ++ [sep]

theorem lines_append_cons (l m : List α) :
    lines sep (l ++ sep :: m) = l.splitOn sep ++ lines sep m := by
  rw [lines, List.splitOn_append_cons_self, List.dropLast_append_of_ne_nil (List.splitOn_ne_nil _ _),
    lines]

theorem lines_of_notMem (h : sep ∉ l) : lines sep l = [] := by
  rw [lines, List.splitOn_eq_singleton h, List.dropLast_singleton]

@[simp] theorem lines_nil : lines sep ([] : List α) = [] := lines_of_notMem List.not_mem_nil

theorem lines_snoc (l : List α) : lines sep (l ++ [sep]) = l.splitOn sep := by
  rw [lines_append_cons, lines_nil, List.append_nil]

namespace Ended

theorem lines_append (h : Ended sep l) (m : List α) :
    lines sep (l ++ m) = lines sep l ++ lines sep m := by
  obtain rfl | ⟨before, rfl⟩ := h
  · rw [lines_nil, List.nil_append, List.nil_append]
  · rw [List.append_assoc, List.singleton_append, lines_append_cons, lines_snoc]

theorem splitOn (h : Ended sep l) : l.splitOn sep = lines sep l ++ [[]] := by
  obtain rfl | ⟨before, rfl⟩ := h
  · simp
  · rw [lines_snoc, List.splitOn_append_cons_self, List.splitOn_nil]

omit [DecidableEq α] in
theorem append (h : Ended sep l) (h' : Ended sep m) : Ended sep (l ++ m) := by
  obtain rfl | ⟨before, rfl⟩ := h'
  · rwa [List.append_nil]
  · exact .inr ⟨l ++ before, (List.append_assoc _ _ _).symm⟩

end Ended

theorem whole_append (l : List α) : whole sep l ++ l.rtakeWhile (· ≠ sep) = l :=
  List.rdropWhile_append_rtakeWhile

theorem whole_isPrefix (l : List α) : whole sep l <+: l := ⟨_, whole_append l⟩

theorem whole_eq_nil_iff : whole sep l = [] ↔ sep ∉ l := by
  simp only [whole, List.rdropWhile_eq_nil_iff, ne_eq, decide_not, Bool.not_eq_true',
    decide_eq_false_iff_not]
  exact ⟨fun h hmem ↦ h sep hmem rfl, fun h x hx heq ↦ h (heq ▸ hx)⟩

theorem whole_ended (l : List α) : Ended sep (whole sep l) := by
  by_cases hnil : whole sep l = []
  · exact .inl hnil
  · have hlast := List.rdropWhile_last_not (fun x ↦ decide (x ≠ sep)) l hnil
    have hlast : (whole sep l).getLast hnil = sep := of_not_not fun h ↦ hlast (decide_eq_true h)
    refine .inr ⟨(whole sep l).dropLast, ?_⟩
    conv_lhs => rw [← List.dropLast_append_getLast hnil, hlast]

theorem Ended.whole (h : Ended sep l) : Lines.whole sep l = l := by
  obtain rfl | ⟨before, rfl⟩ := h
  · rfl
  · exact List.rdropWhile_concat_neg _ _ _ (by simp)

/-- The rest of a sequence after its last separator has none. -/
theorem notMem_drop_whole (l : List α) : sep ∉ l.drop (whole sep l).length := by
  have hdrop : l.drop (whole sep l).length = l.rtakeWhile (· ≠ sep) :=
    calc l.drop (whole sep l).length
        = (whole sep l ++ l.rtakeWhile (· ≠ sep)).drop (whole sep l).length := by
          rw [whole_append]
      _ = l.rtakeWhile (· ≠ sep) := List.drop_left
  rw [hdrop]
  intro hmem
  simpa using List.mem_rtakeWhile_imp hmem

end Separated

section Decoded

open Unicode

def newline : UInt8 := 0x0A

def newlineUnit : CodeUnit := 0x0A

/-- The text that octets decode to, a byte order mark included. -/
def decode (bytes : List UInt8) : List CodeUnit := units (Decoder.start.run bytes)

/-- A decoder that no octet below 0x80 continues, and no sequence brings to a scalar below 0x80. -/
structure Sound (d : Decoder) : Prop where
  lower : 0x80 ≤ d.lower
  upper : d.upper ≤ 0xBF
  opened : d.needed ≠ 0 → 2 ≤ d.point * 0x40 + (d.lower - 0x80)
  last : d.needed = 1 → 2 ≤ d.point

theorem start_sound : Sound .start := ⟨le_rfl, le_rfl, nofun, nofun⟩

theorem lead_sound (b : ℕ) : Sound (Decoder.lead b).2 := by
  unfold Decoder.lead
  split_ifs
  any_goals exact start_sound
  all_goals
    refine ⟨?_, ?_, fun _ ↦ ?_, fun h ↦ ?_⟩
    all_goals dsimp only at *
    all_goals omega

theorem ofNat_eq_newline {n : ℕ} (h : Char.ofNat n = '\n') : n = 10 := by
  have hten := congrArg Char.toNat h
  unfold Char.ofNat at hten
  by_cases hvalid : n.isValidChar
  · rw [dif_pos hvalid] at hten
    exact hten
  · rw [dif_neg hvalid] at hten
    cases hten

theorem lead_newline {b : ℕ} (h : '\n' ∈ (Decoder.lead b).1) : b = 10 := by
  unfold Decoder.lead at h
  split_ifs at h
  · exact ofNat_eq_newline (List.mem_singleton.mp h).symm
  all_goals simp [replacement] at h

theorem Sound.step {d : Decoder} (h : Sound d) (b : ℕ) :
    Sound (d.step b).2 ∧ ('\n' ∈ (d.step b).1 → b = 10) := by
  obtain ⟨hlower, hupper, hopened, hlast⟩ := h
  unfold Decoder.step
  split_ifs with hneeded hbounds hone
  · exact ⟨lead_sound b, lead_newline⟩
  · refine ⟨start_sound, fun hmem ↦ ?_⟩
    have hpoint := ofNat_eq_newline (List.mem_singleton.mp hmem).symm
    have htwo := hlast hone
    omega
  · refine ⟨⟨le_rfl, le_rfl, fun _ ↦ ?_, fun _ ↦ ?_⟩, nofun⟩
    all_goals
      have htwo := hopened hneeded
      dsimp only
      omega
  · refine ⟨lead_sound b, fun hmem ↦ lead_newline ?_⟩
    simpa [replacement] using hmem

theorem newline_of_mem_run {d : Decoder} (h : Sound d) {bytes : List UInt8}
    (hmem : '\n' ∈ d.run bytes) : newline ∈ bytes := by
  induction bytes generalizing d with
  | nil =>
    unfold Decoder.run at hmem
    split_ifs at hmem <;> simp [replacement] at hmem
  | cons b bytes ih =>
    obtain ⟨hstep, hnewline⟩ := h.step b.toNat
    rcases List.mem_append.mp hmem with hmem | hmem
    · have hb : b = newline := UInt8.toNat.inj (hnewline hmem)
      exact hb ▸ List.mem_cons_self
    · exact List.mem_cons_of_mem _ (ih hstep hmem)

/-- A newline ends whatever a decoder was reading. -/
theorem run_append_newline {d : Decoder} (h : Sound d) (l m : List UInt8) :
    d.run (l ++ newline :: m) = d.run l ++ '\n' :: Decoder.start.run m := by
  induction l generalizing d with
  | nil =>
    have hout : ¬(d.lower ≤ 10 ∧ 10 ≤ d.upper) := fun hbounds ↦ by
      have hlower := h.lower
      omega
    have hlead : Decoder.lead 10 = (['\n'], .start) := rfl
    have hten : newline.toNat = 10 := rfl
    rw [List.nil_append, Decoder.run, Decoder.run, Decoder.step, hten, hlead]
    split_ifs <;> rfl
  | cons b l ih => simp [Decoder.run, ih (h.step b.toNat).1]

theorem newline_mem_units {cs : List Char} (h : newlineUnit ∈ units cs) : '\n' ∈ cs := by
  obtain ⟨c, hc, hu⟩ := List.mem_flatMap.mp h
  have hten : c.toNat = 10 := by
    have hvalid := char_valid c
    have hunit : newlineUnit.toNat = 10 := rfl
    unfold unitsOf at hu
    split_ifs at hu with hsmall
    · rw [List.mem_singleton.mp hu, BitVec.toNat_ofNat] at hunit
      omega
    · rcases List.mem_pair.mp hu with hu | hu
      all_goals
        rw [hu, BitVec.toNat_ofNat] at hunit
        omega
  have hnewline : c = '\n' := Char.toNat_inj.mp hten
  exact hnewline ▸ hc

theorem decode_append_newline (l m : List UInt8) :
    decode (l ++ newline :: m) = decode l ++ newlineUnit :: decode m := by
  rw [decode, run_append_newline start_sound, units, List.flatMap_append, List.flatMap_cons]
  rfl

theorem newlineUnit_notMem_decode {l : List UInt8} (h : newline ∉ l) : newlineUnit ∉ decode l :=
  fun hmem ↦ h (newline_of_mem_run start_sound (newline_mem_units hmem))

/-- The decoded text splits where the octets do. -/
theorem splitOn_decode (l : List UInt8) :
    (decode l).splitOn newlineUnit = (l.splitOn newline).map decode := by
  generalize hn : l.length = n
  induction n using Nat.strong_induction_on generalizing l with
  | _ n ih =>
  by_cases hmem : newline ∈ l
  · obtain ⟨before, after, rfl, hbefore⟩ := List.eq_append_cons_of_mem hmem
    have hlength : after.length < n := by
      rw [List.length_append, List.length_cons] at hn
      omega
    rw [decode_append_newline, List.splitOn_append_cons_self, List.splitOn_append_cons_self,
      ih _ hlength _ rfl, List.splitOn_eq_singleton hbefore,
      List.splitOn_eq_singleton (newlineUnit_notMem_decode hbefore)]
    rfl
  · rw [List.splitOn_eq_singleton hmem, List.splitOn_eq_singleton (newlineUnit_notMem_decode hmem)]
    rfl

end Decoded

end Servanda.Lines
