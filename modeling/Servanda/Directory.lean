import Mathlib.Data.List.Nodup
import Mathlib.Data.List.Perm.Basic
import Mathlib.Order.Lattice

namespace Servanda

/-- Records filed each under a name of its own, and listed in the order of the names. -/
structure Directory {κ α : Type*} [LinearOrder κ] (name : α → κ) where
  values : List α
  sorted : values.Pairwise fun a b ↦ name a < name b

namespace Directory

variable {κ α : Type*} [LinearOrder κ] {name : α → κ}

/-- A record filed in a list, in the place of one of its name if there is one. -/
def insertValue (name : α → κ) (a : α) : List α → List α
  | [] => [a]
  | b :: rest =>
    if name a < name b then a :: b :: rest
    else if name a = name b then a :: rest
    else b :: insertValue name a rest

theorem mem_insertValue {a b : α} {l : List α} (h : b ∈ insertValue name a l) :
    b = a ∨ b ∈ l := by
  induction l with
  | nil => exact .inl (List.mem_singleton.mp h)
  | cons c rest ih =>
    unfold insertValue at h
    split_ifs at h with h₁ h₂
    · exact List.mem_cons.mp h
    · exact (List.mem_cons.mp h).imp_right (List.mem_cons_of_mem _)
    · rcases List.mem_cons.mp h with rfl | h
      · exact .inr List.mem_cons_self
      · exact (ih h).imp_right (List.mem_cons_of_mem _)

theorem insertValue_sorted (a : α) {l : List α} (h : l.Pairwise fun a b ↦ name a < name b) :
    (insertValue name a l).Pairwise fun a b ↦ name a < name b := by
  induction l with
  | nil => exact List.pairwise_singleton _ _
  | cons b rest ih =>
    obtain ⟨hb, hrest⟩ := List.pairwise_cons.mp h
    unfold insertValue
    split_ifs with h₁ h₂
    · refine List.pairwise_cons.mpr ⟨fun c hc ↦ ?_, h⟩
      rcases List.mem_cons.mp hc with rfl | hc
      · exact h₁
      · exact lt_trans h₁ (hb c hc)
    · exact List.pairwise_cons.mpr ⟨fun c hc ↦ h₂ ▸ hb c hc, hrest⟩
    · refine List.pairwise_cons.mpr ⟨fun c hc ↦ ?_, ih hrest⟩
      rcases mem_insertValue hc with rfl | hc
      · exact lt_of_le_of_ne (not_lt.mp h₁) (Ne.symm h₂)
      · exact hb c hc

def empty : Directory name := ⟨[], .nil⟩

def put (d : Directory name) (a : α) : Directory name :=
  ⟨insertValue name a d.values, insertValue_sorted a d.sorted⟩

def get? (d : Directory name) (k : κ) : Option α := d.values.find? fun a ↦ name a = k

variable {d : Directory name} {k : κ} {a b : α}

theorem name_of_get? (h : d.get? k = some a) : name a = k := by
  simpa using List.find?_some h

theorem mem_of_get? (h : d.get? k = some a) : a ∈ d.values := List.mem_of_find?_eq_some h

theorem name_injOn (ha : a ∈ d.values) (hb : b ∈ d.values) (h : name a = name b) : a = b := by
  have hnodup : (d.values.map name).Nodup :=
    List.pairwise_map.mpr (d.sorted.imp fun hlt ↦ ne_of_lt hlt)
  exact List.inj_on_of_nodup_map hnodup ha hb h

theorem get?_eq_some_iff : d.get? k = some a ↔ a ∈ d.values ∧ name a = k := by
  refine ⟨fun h ↦ ⟨mem_of_get? h, name_of_get? h⟩, ?_⟩
  rintro ⟨ha, rfl⟩
  cases hget : d.get? (name a) with
  | none => simpa using List.find?_eq_none.mp hget a ha
  | some b => rw [name_injOn (mem_of_get? hget) ha (name_of_get? hget)]

theorem get?_eq_none_iff : d.get? k = none ↔ ∀ a ∈ d.values, name a ≠ k := by
  simp [get?, List.find?_eq_none]

theorem mem_insertValue_iff {l : List α} (hl : l.Pairwise fun a b ↦ name a < name b) :
    b ∈ insertValue name a l ↔ b = a ∨ b ∈ l ∧ name b ≠ name a := by
  induction l with
  | nil => simp [insertValue]
  | cons c rest ih =>
    obtain ⟨hc, hrest⟩ := List.pairwise_cons.mp hl
    unfold insertValue
    split_ifs with h₁ h₂
    · have hne : ∀ x ∈ c :: rest, name x ≠ name a := by
        intro x hx
        rcases List.mem_cons.mp hx with rfl | hx
        · exact ne_of_gt h₁
        · exact ne_of_gt (lt_trans h₁ (hc x hx))
      exact List.mem_cons.trans (or_congr_right ⟨fun hb ↦ ⟨hb, hne b hb⟩, And.left⟩)
    · have hne : ∀ x ∈ rest, name x ≠ name a := fun x hx ↦ ne_of_gt (h₂ ▸ hc x hx)
      refine List.mem_cons.trans (or_congr_right ⟨fun hb ↦ ⟨.tail _ hb, hne b hb⟩, ?_⟩)
      intro ⟨hb, hname⟩
      rcases List.mem_cons.mp hb with rfl | hb
      · exact absurd h₂.symm hname
      · exact hb
    · have hca : name c ≠ name a := Ne.symm h₂
      rw [List.mem_cons, ih hrest, List.mem_cons]
      constructor
      · rintro (rfl | rfl | ⟨hb, hname⟩)
        · exact .inr ⟨.inl rfl, hca⟩
        · exact .inl rfl
        · exact .inr ⟨.inr hb, hname⟩
      · rintro (rfl | ⟨rfl | hb, hname⟩)
        · exact .inr (.inl rfl)
        · exact .inl rfl
        · exact .inr (.inr ⟨hb, hname⟩)

/-- A record of a new name stands between those whose names are less and those whose are greater. -/
theorem insertValue_of_absent {l : List α} (hl : l.Pairwise fun a b ↦ name a < name b)
    (h : ∀ b ∈ l, name b ≠ name a) : insertValue name a l =
      l.filter (fun b ↦ name b < name a) ++ a :: l.filter fun b ↦ name a < name b := by
  induction l with
  | nil => rfl
  | cons c rest ih =>
    obtain ⟨hc, hrest⟩ := List.pairwise_cons.mp hl
    unfold insertValue
    split_ifs with h₁ h₂
    · have hgreater : ∀ b ∈ c :: rest, name a < name b := by
        intro b hb
        rcases List.mem_cons.mp hb with rfl | hb
        · exact h₁
        · exact lt_trans h₁ (hc b hb)
      rw [List.filter_eq_nil_iff.mpr fun b hb ↦ by simpa using (hgreater b hb).le,
        List.filter_eq_self.mpr fun b hb ↦ by simpa using hgreater b hb, List.nil_append]
    · exact absurd h₂.symm (h c List.mem_cons_self)
    · have hlt : name c < name a := lt_of_le_of_ne (not_lt.mp h₁) (h c List.mem_cons_self)
      rw [ih hrest fun b hb ↦ h b (List.mem_cons_of_mem _ hb), List.filter_cons_of_pos (by simpa),
        List.filter_cons_of_neg (by simpa using hlt.le), List.cons_append]

theorem values_put_of_absent (h : d.get? (name a) = none) : (d.put a).values =
    d.values.filter (fun b ↦ name b < name a) ++ a :: d.values.filter fun b ↦ name a < name b :=
  insertValue_of_absent d.sorted (get?_eq_none_iff.mp h)

theorem values_split_of_absent (h : d.get? k = none) : d.values =
    d.values.filter (fun b ↦ name b < k) ++ d.values.filter fun b ↦ k < name b := by
  have hne := get?_eq_none_iff.mp h
  obtain ⟨l, hl⟩ := d
  dsimp only at hne ⊢
  induction l with
  | nil => rfl
  | cons c rest ih =>
    obtain ⟨hc, hrest⟩ := List.pairwise_cons.mp hl
    rcases lt_or_gt_of_ne (hne c List.mem_cons_self) with hlt | hgt
    · have hih := ih hrest (get?_eq_none_iff.mpr fun b hb ↦ hne b (List.mem_cons_of_mem _ hb))
        fun b hb ↦ hne b (List.mem_cons_of_mem _ hb)
      rw [List.filter_cons_of_pos (by simpa), List.filter_cons_of_neg (by simpa using hlt.le),
        List.cons_append, ← hih]
    · have hgreater : ∀ b ∈ c :: rest, k < name b := by
        intro b hb
        rcases List.mem_cons.mp hb with rfl | hb
        · exact hgt
        · exact lt_trans hgt (hc b hb)
      rw [List.filter_eq_nil_iff.mpr fun b hb ↦ by simpa using (hgreater b hb).le,
        List.filter_eq_self.mpr fun b hb ↦ by simpa using hgreater b hb, List.nil_append]

theorem values_put_perm (h : d.get? (name a) = none) : (d.put a).values.Perm (a :: d.values) := by
  rw [values_put_of_absent h]
  refine List.perm_middle.trans (List.Perm.cons a ?_)
  rw [← values_split_of_absent h]

theorem mem_values_put : b ∈ (d.put a).values ↔ b = a ∨ b ∈ d.values ∧ name b ≠ name a :=
  mem_insertValue_iff d.sorted

@[simp] theorem get?_empty (k : κ) : (empty : Directory name).get? k = none := rfl

@[simp] theorem get?_put_self (d : Directory name) (a : α) : (d.put a).get? (name a) = some a :=
  get?_eq_some_iff.mpr ⟨mem_values_put.mpr (.inl rfl), rfl⟩

theorem get?_put_of_ne (d : Directory name) (h : k ≠ name a) : (d.put a).get? k = d.get? k := by
  apply Option.ext
  intro b
  rw [get?_eq_some_iff, get?_eq_some_iff, mem_values_put]
  constructor
  · rintro ⟨rfl | ⟨hb, -⟩, rfl⟩
    · exact absurd rfl h
    · exact ⟨hb, rfl⟩
  · rintro ⟨hb, rfl⟩
    exact ⟨.inr ⟨hb, h⟩, rfl⟩

theorem ext_mem {d d' : Directory name} (h : ∀ a, a ∈ d.values ↔ a ∈ d'.values) : d = d' := by
  have hnodup (e : Directory name) : e.values.Nodup :=
    e.sorted.imp fun hlt heq ↦ absurd (congrArg name heq) (ne_of_lt hlt)
  have hperm : d.values.Perm d'.values :=
    (List.perm_ext_iff_of_nodup (hnodup d) (hnodup d')).mpr h
  have hvalues : d.values = d'.values :=
    hperm.eq_of_pairwise (fun _ _ _ _ hab hba ↦ absurd hba (not_lt_of_gt hab)) d.sorted d'.sorted
  cases d
  cases d'
  cases hvalues
  rfl

theorem put_of_get? (h : d.get? (name a) = some a) : d.put a = d := by
  refine ext_mem fun b ↦ mem_values_put.trans ⟨?_, fun hb ↦ ?_⟩
  · rintro (rfl | ⟨hb, -⟩)
    · exact mem_of_get? h
    · exact hb
  · by_cases hname : name b = name a
    · exact .inl (name_injOn hb (mem_of_get? h) hname)
    · exact .inr ⟨hb, hname⟩

def remove (d : Directory name) (k : κ) : Directory name :=
  ⟨d.values.filter fun a ↦ name a ≠ k, d.sorted.filter _⟩

theorem mem_values_remove : a ∈ (d.remove k).values ↔ a ∈ d.values ∧ name a ≠ k := by
  simp [remove]

@[simp] theorem get?_remove_self (d : Directory name) (k : κ) : (d.remove k).get? k = none :=
  get?_eq_none_iff.mpr fun _ ha ↦ (mem_values_remove.mp ha).2

theorem get?_remove_of_ne (d : Directory name) {k' : κ} (h : k' ≠ k) :
    (d.remove k).get? k' = d.get? k' := by
  apply Option.ext
  intro b
  rw [get?_eq_some_iff, get?_eq_some_iff, mem_values_remove]
  constructor
  · rintro ⟨⟨hb, -⟩, rfl⟩
    exact ⟨hb, rfl⟩
  · rintro ⟨hb, rfl⟩
    exact ⟨⟨hb, h⟩, rfl⟩

end Directory

end Servanda
