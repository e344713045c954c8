import Mathlib.Data.List.Forall2
import Mathlib.Data.List.Sort

namespace StableSort

variable {α β : Type*} {r : α → α → Prop} [DecidableRel r] {s : β → β → Prop} [DecidableRel s]

theorem filter_orderedInsert [IsTrans α r] (p : α → Bool) (a : α) {l : List α}
    (h : l.Pairwise r) : (l.orderedInsert r a).filter p =
      if p a then (l.filter p).orderedInsert r a else l.filter p := by
  induction l with
  | nil => by_cases ha : p a <;> simp [ha]
  | cons b l ih =>
    obtain ⟨hb, hl⟩ := List.pairwise_cons.mp h
    by_cases hab : r a b
    · rw [List.orderedInsert_cons_of_le r l hab, List.filter_cons]
      split_ifs with ha
      · -- everything behind `b` follows `a` too, so `a` stays in front when `b` is dropped
        have hfirst : ∀ c ∈ (b :: l).filter p, r a c := by
          intro c hc
          rcases List.mem_cons.mp (List.mem_of_mem_filter hc) with rfl | hc
          · exact hab
          · exact trans_of r hab (hb c hc)
        cases hf : (b :: l).filter p with
        | nil => rfl
        | cons c m => rw [List.orderedInsert_cons_of_le r m (hfirst c (by simp [hf]))]
      · rfl
    · rw [List.orderedInsert_of_not_le r l hab, List.filter_cons, ih hl]
      by_cases hpb : p b <;> by_cases ha : p a <;> simp [hpb, ha, hab]

/-- Sorting is stable: what a filter keeps is sorted as it would be on its own. -/
theorem filter_insertionSort [Std.Total r] [IsTrans α r] (p : α → Bool) (l : List α) :
    (l.insertionSort r).filter p = (l.filter p).insertionSort r := by
  induction l with
  | nil => rfl
  | cons a l ih =>
    rw [List.insertionSort_cons, filter_orderedInsert p a (List.pairwise_insertionSort r l), ih,
      List.filter_cons]
    split_ifs <;> rfl

theorem orderedInsert_snoc {a b : α} (h : r b a) (l : List α) :
    (l ++ [a]).orderedInsert r b = l.orderedInsert r b ++ [a] := by
  induction l with
  | nil => simp [h]
  | cons c l ih =>
    by_cases hbc : r b c
    · rw [List.cons_append, List.orderedInsert_cons_of_le r _ hbc,
        List.orderedInsert_cons_of_le r _ hbc, List.cons_append, List.cons_append]
    · rw [List.cons_append, List.orderedInsert_of_not_le r _ hbc,
        List.orderedInsert_of_not_le r _ hbc, ih, List.cons_append]

theorem insertionSort_snoc {a : α} {l : List α} (h : ∀ b ∈ l, r b a) :
    (l ++ [a]).insertionSort r = l.insertionSort r ++ [a] := by
  induction l with
  | nil => rfl
  | cons b l ih =>
    obtain ⟨hb, hl⟩ := List.forall_mem_cons.mp h
    rw [List.cons_append, List.insertionSort_cons, ih hl, List.insertionSort_cons,
      orderedInsert_snoc hb]

/-- Two lists related element by element, by a relation that tells nothing of the order apart,
stay so when each is sorted. -/
theorem forall₂_insertionSort {R : α → β → Prop}
    (hR : ∀ a b c d, R a b → R c d → (r a c ↔ s b d)) {l : List α} {m : List β}
    (h : List.Forall₂ R l m) : List.Forall₂ R (l.insertionSort r) (m.insertionSort s) := by
  have hinsert : ∀ {l m a b}, R a b → List.Forall₂ R l m →
      List.Forall₂ R (l.orderedInsert r a) (m.orderedInsert s b) := by
    intro l m a b hab h
    induction h with
    | nil => exact .cons hab .nil
    | @cons c d l m hcd h ih =>
      by_cases hac : r a c
      · rw [List.orderedInsert_cons_of_le r l hac,
          List.orderedInsert_cons_of_le s m ((hR a b c d hab hcd).mp hac)]
        exact .cons hab (.cons hcd h)
      · rw [List.orderedInsert_of_not_le r l hac,
          List.orderedInsert_of_not_le s m fun hbd ↦ hac ((hR a b c d hab hcd).mpr hbd)]
        exact .cons hcd ih
  induction h with
  | nil => exact .nil
  | cons hab _ ih => exact hinsert hab ih

theorem filter_take_isPrefix (p : α → Bool) (n : ℕ) (l : List α) :
    (l.take n).filter p <+: (l.filter p).take n := by
  have hprefix : (l.take n).filter p <+: l.filter p := (List.take_prefix n l).filter p
  have hlength : ((l.take n).filter p).length ≤ n :=
    (List.length_filter_le p _).trans (List.length_take_le n l)
  obtain ⟨m, hm⟩ := hprefix
  rw [← hm]
  exact (List.prefix_take_iff.mpr ⟨List.prefix_append _ m, hlength⟩)

end StableSort
