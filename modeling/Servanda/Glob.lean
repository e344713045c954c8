import Servanda.Lines

/-!
Patterns for paths. A path is a sequence with a separator in it, and a pattern is read piece by
piece; what it matches is said in the components of the path.
-/

namespace Servanda.Glob

open Lines

variable {α : Type*} [DecidableEq α] {sep : α} {inLine : α → Bool}

/-- A piece of a pattern: any number of whole components, the rest of a line, a part of a
component, one character of it, or a character that stands for itself. -/
inductive Piece (α : Type*) where
  | directories
  | anything
  | segment
  | one
  | literal (c : α)
  deriving DecidableEq

def Piece.reads (sep : α) (inLine : α → Bool) : Piece α → List α → Bool
  | directories, s => whole sep s = s ∧ [] ∉ lines sep s
  | anything, s => s.all inLine
  | segment, s => sep ∉ s
  | one, s => s.length = 1 ∧ sep ∉ s
  | literal c, s => s = [c]

/-- Whether a pattern reads the whole of a path. -/
def reads (sep : α) (inLine : α → Bool) : List (Piece α) → List α → Bool
  | [], s => s.isEmpty
  | p :: ps, s => (List.range (s.length + 1)).any fun n ↦
      p.reads sep inLine (s.take n) && reads sep inLine ps (s.drop n)

section Pieces

variable {p : Piece α} {ps : List (Piece α)} {s word : List α} {c : α}

theorem reads_nil : reads sep inLine [] s = true ↔ s = [] := List.isEmpty_iff

theorem reads_cons : reads sep inLine (p :: ps) s = true ↔
    ∃ a b, s = a ++ b ∧ p.reads sep inLine a = true ∧ reads sep inLine ps b = true := by
  simp only [reads, List.any_eq_true, List.mem_range, Bool.and_eq_true]
  constructor
  · rintro ⟨n, -, hp, hps⟩
    exact ⟨_, _, (List.take_append_drop n s).symm, hp, hps⟩
  · rintro ⟨a, b, rfl, hp, hps⟩
    refine ⟨a.length, by simp, ?_, ?_⟩
    · rwa [List.take_left]
    · rwa [List.drop_left]

theorem reads_word : reads sep inLine (word.map .literal ++ ps) s = true ↔
    ∃ t, s = word ++ t ∧ reads sep inLine ps t = true := by
  induction word generalizing s with
  | nil => simp
  | cons c word ih =>
    rw [List.map_cons, List.cons_append, reads_cons]
    simp only [ih, Piece.reads, decide_eq_true_eq]
    constructor
    · rintro ⟨_, _, rfl, rfl, t, rfl, ht⟩
      exact ⟨t, rfl, ht⟩
    · rintro ⟨t, rfl, ht⟩
      exact ⟨[c], word ++ t, rfl, rfl, t, rfl, ht⟩

theorem reads_word_iff : reads sep inLine (word.map .literal) s = true ↔ s = word := by
  rw [← List.append_nil (word.map Piece.literal), reads_word]
  simp [reads_nil]

theorem reads_anything : reads sep inLine [.anything] s = true ↔ ∀ u ∈ s, inLine u = true := by
  rw [reads_cons]
  simp [reads_nil, Piece.reads]

theorem reads_segment : reads sep inLine [.segment] s = true ↔ sep ∉ s := by
  rw [reads_cons]
  simp [reads_nil, Piece.reads]

end Pieces

section Components

variable {ps : List (Piece α)} {s word : List α}

theorem notMem_of_mem_splitOn {w : List α} (h : w ∈ s.splitOn sep) : sep ∉ w := by
  induction hn : s.length using Nat.strong_induction_on generalizing s with
  | _ n ih =>
    by_cases hmem : sep ∈ s
    · obtain ⟨a, b, rfl, ha⟩ := List.eq_append_cons_of_mem hmem
      rw [List.splitOn_append_cons_self_of_not_mem ha] at h
      obtain rfl | h := List.mem_cons.1 h
      · exact ha
      · refine ih b.length ?_ h rfl
        rw [← hn, List.length_append, List.length_cons]
        omega
    · rw [List.splitOn_eq_singleton hmem] at h
      rwa [List.mem_singleton.1 h]

/-- What keeps the separator apart keeps the components apart. -/
theorem splitOn_map {f : α → α} (hf : ∀ u, f u = sep ↔ u = sep) (s : List α) :
    (s.map f).splitOn sep = (s.splitOn sep).map (List.map f) := by
  induction hn : s.length using Nat.strong_induction_on generalizing s with
  | _ n ih =>
    have hmap : ∀ t : List α, sep ∉ t → sep ∉ t.map f := fun t ht hmem ↦ by
      obtain ⟨u, hu, heq⟩ := List.mem_map.1 hmem
      exact ht ((hf u).1 heq ▸ hu)
    by_cases hmem : sep ∈ s
    · obtain ⟨a, b, rfl, ha⟩ := List.eq_append_cons_of_mem hmem
      have hshort : b.length < n := by
        rw [← hn, List.length_append, List.length_cons]
        omega
      rw [List.map_append, List.map_cons, (hf sep).2 rfl,
        List.splitOn_append_cons_self_of_not_mem (hmap a ha),
        List.splitOn_append_cons_self_of_not_mem ha, List.map_cons, ih b.length hshort b rfl]
    · rw [List.splitOn_eq_singleton hmem, List.splitOn_eq_singleton (hmap s hmem)]
      rfl

theorem splitOn_append (h : whole sep s = s) (t : List α) :
    (s ++ t).splitOn sep = lines sep s ++ t.splitOn sep := by
  have hended : Ended sep s := h ▸ whole_ended s
  obtain rfl | ⟨before, rfl⟩ := hended
  · simp
  · rw [List.append_assoc, List.singleton_append, List.splitOn_append_cons_self, lines_snoc]

/-- Components that stand before a path are whole components of it. -/
theorem reads_directories : reads sep inLine (.directories :: ps) s = true ↔
    ∃ before rest, s.splitOn sep = before ++ rest.splitOn sep ∧ [] ∉ before ∧
      reads sep inLine ps rest = true := by
  simp only [reads_cons, Piece.reads, decide_eq_true_eq]
  constructor
  · rintro ⟨a, b, rfl, ⟨hwhole, hnonempty⟩, hrest⟩
    exact ⟨lines sep a, b, splitOn_append hwhole b, hnonempty, hrest⟩
  · rintro ⟨before, rest, hsplit, hnonempty, hrest⟩
    have hjoin := congrArg ([sep].intercalate ·) hsplit
    by_cases hbefore : before = []
    · rw [hbefore, List.nil_append] at hjoin
      simp only [List.intercalate_splitOn] at hjoin
      exact ⟨[], s, rfl, ⟨rfl, by simp⟩, hjoin ▸ hrest⟩
    · have hparts : (([sep].intercalate before) ++ [sep]).splitOn sep = before ++ [[]] := by
        rw [List.splitOn_append_cons_self, List.splitOn_nil, List.splitOn_intercalate _ _ hbefore]
        exact fun w hw ↦ notMem_of_mem_splitOn (hsplit ▸ List.mem_append_left _ hw)
      have hended : Ended sep (([sep].intercalate before) ++ [sep]) := .inr ⟨_, rfl⟩
      have hlines : lines sep (([sep].intercalate before) ++ [sep]) = before := by
        rw [lines, hparts, List.dropLast_concat]
      refine ⟨_, rest, ?_, ⟨hended.whole, hlines.symm ▸ hnonempty⟩, hrest⟩
      have hwhole : (([sep].intercalate before ++ [sep]) ++ rest).splitOn sep = s.splitOn sep := by
        rw [splitOn_append hended.whole, hlines, hsplit]
      have hsame := congrArg ([sep].intercalate ·) hwhole
      simpa only [List.intercalate_splitOn] using hsame.symm

/-- A pattern for what is below a component, at any depth. -/
theorem reads_below (hword : sep ∉ word) :
    reads sep inLine (.directories :: ((word ++ [sep]).map .literal ++ [.anything])) s = true ↔
      ∃ before after, s.splitOn sep = before ++ word :: after ∧ [] ∉ before ∧ after ≠ [] ∧
        ∀ u ∈ [sep].intercalate after, inLine u = true := by
  simp only [reads_directories, reads_word, reads_anything]
  constructor
  · rintro ⟨before, _, hsplit, hnonempty, t, rfl, ht⟩
    rw [List.append_assoc, List.singleton_append,
      List.splitOn_append_cons_self_of_not_mem hword] at hsplit
    exact ⟨before, _, hsplit, hnonempty, List.splitOn_ne_nil _ _, by rwa [List.intercalate_splitOn]⟩
  · rintro ⟨before, after, hsplit, hnonempty, hafter, ht⟩
    refine ⟨before, word ++ sep :: [sep].intercalate after, ?_, hnonempty, _, ?_, ht⟩
    · rw [List.splitOn_append_cons_self_of_not_mem hword, List.splitOn_intercalate _ _ hafter,
        hsplit]
      refine fun w hw ↦ notMem_of_mem_splitOn (s := s) ?_
      rw [hsplit]
      exact List.mem_append_right _ (List.mem_cons_of_mem _ hw)
    · rw [List.append_assoc, List.singleton_append]

/-- A pattern for a last component, at any depth. -/
theorem reads_last {P : List α → Prop}
    (hps : ∀ t, sep ∉ t → (reads sep inLine ps t = true ↔ P t))
    (hfree : ∀ t, reads sep inLine ps t = true → sep ∉ t) :
    reads sep inLine (.directories :: ps) s = true ↔
      ∃ before last, s.splitOn sep = before ++ [last] ∧ [] ∉ before ∧ P last := by
  rw [reads_directories]
  constructor
  · rintro ⟨before, rest, hsplit, hnonempty, hrest⟩
    rw [List.splitOn_eq_singleton (hfree rest hrest)] at hsplit
    exact ⟨before, rest, hsplit, hnonempty, (hps rest (hfree rest hrest)).1 hrest⟩
  · rintro ⟨before, last, hsplit, hnonempty, hlast⟩
    have hmem : sep ∉ last := notMem_of_mem_splitOn (s := s) (by simp [hsplit])
    refine ⟨before, last, ?_, hnonempty, (hps last hmem).2 hlast⟩
    rw [List.splitOn_eq_singleton hmem, hsplit]

variable (hword : sep ∉ word)
include hword

theorem reads_name : reads sep inLine (.directories :: word.map .literal) s = true ↔
    ∃ before last, s.splitOn sep = before ++ [last] ∧ [] ∉ before ∧ last = word :=
  reads_last (fun _ _ ↦ reads_word_iff) fun _ ht ↦ reads_word_iff.1 ht ▸ hword

theorem reads_start :
    reads sep inLine (.directories :: (word.map .literal ++ [.segment])) s = true ↔
      ∃ before last, s.splitOn sep = before ++ [last] ∧ [] ∉ before ∧ word <+: last := by
  refine reads_last (fun t ht ↦ ?_) fun t ht ↦ ?_
  · rw [reads_word]
    constructor
    · rintro ⟨rest, rfl, -⟩
      exact List.prefix_append _ _
    · rintro ⟨rest, rfl⟩
      exact ⟨rest, rfl, reads_segment.2 fun hmem ↦ ht (List.mem_append_right _ hmem)⟩
  · obtain ⟨rest, rfl, hrest⟩ := reads_word.1 ht
    exact fun hmem ↦ (List.mem_append.1 hmem).elim hword (reads_segment.1 hrest)

theorem reads_end :
    reads sep inLine (.directories :: .segment :: word.map .literal) s = true ↔
      ∃ before last, s.splitOn sep = before ++ [last] ∧ [] ∉ before ∧ word <:+ last := by
  refine reads_last (fun t ht ↦ ?_) fun t ht ↦ ?_
  · simp only [reads_cons, Piece.reads, reads_word_iff, decide_eq_true_eq]
    constructor
    · rintro ⟨front, _, rfl, -, rfl⟩
      exact List.suffix_append _ _
    · rintro ⟨front, rfl⟩
      exact ⟨front, word, rfl, fun hmem ↦ ht (List.mem_append_left _ hmem), rfl⟩
  · obtain ⟨front, rest, rfl, hfront, hrest⟩ := reads_cons.1 ht
    have hfront : sep ∉ front := by simpa [Piece.reads] using hfront
    rw [reads_word_iff.1 hrest]
    exact fun hmem ↦ (List.mem_append.1 hmem).elim hfront hword

theorem reads_inside :
    reads sep inLine (.directories :: .segment :: (word.map .literal ++ [.segment])) s = true ↔
      ∃ before last, s.splitOn sep = before ++ [last] ∧ [] ∉ before ∧ word <:+: last := by
  refine reads_last (fun t ht ↦ ?_) fun t ht ↦ ?_
  · simp only [@reads_cons _ _ _ _ .segment (word.map .literal ++ [.segment]), Piece.reads,
      reads_word, decide_eq_true_eq]
    constructor
    · rintro ⟨front, _, rfl, -, rest, rfl, -⟩
      exact ⟨front, rest, List.append_assoc _ _ _⟩
    · rintro ⟨front, rest, rfl⟩
      refine ⟨front, word ++ rest, List.append_assoc _ _ _, fun hmem ↦ ht ?_, rest, rfl,
        reads_segment.2 fun hmem ↦ ht (List.mem_append_right _ hmem)⟩
      exact List.mem_append_left _ (List.mem_append_left _ hmem)
  · obtain ⟨front, rest, rfl, hfront, hrest⟩ := reads_cons.1 ht
    have hfront : sep ∉ front := by simpa [Piece.reads] using hfront
    obtain ⟨after, rfl, hafter⟩ := reads_word.1 hrest
    intro hmem
    obtain hmem | hmem := List.mem_append.1 hmem
    · exact hfront hmem
    · exact (List.mem_append.1 hmem).elim hword (reads_segment.1 hafter)

end Components

end Servanda.Glob
