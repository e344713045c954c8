import Mathlib.Data.List.Nodup
import Mathlib.Data.List.Perm.Subperm
import Mathlib.Data.List.Sort
import Mathlib.Order.Basic

namespace Keyset

variable {κ : Type*} [LinearOrder κ]

/-- Does a key come behind the mark? Every key does where there is none yet. -/
def Beyond : Option κ → κ → Prop
  | none, _ => True
  | some k, x => k < x

instance (mark : Option κ) : DecidablePred (Beyond mark) := fun x ↦
  match mark with
  | none => inferInstanceAs (Decidable True)
  | some k => inferInstanceAs (Decidable (k < x))

def rest (mark : Option κ) (view : List κ) : List κ := view.filter fun x ↦ Beyond mark x

def page (mark : Option κ) (limit : ℕ) (view : List κ) : List κ := (rest mark view).take limit

/-- The key a reader resumes behind, if anything is left. -/
def next (mark : Option κ) (limit : ℕ) (view : List κ) : Option κ :=
  if (rest mark view).length ≤ limit then none else (page mark limit view).getLast?

variable {mark : Option κ} {limit : ℕ} {view : List κ} {k x : κ}

theorem mem_rest : x ∈ rest mark view ↔ x ∈ view ∧ Beyond mark x := by simp [rest]

theorem rest_sorted (h : view.Pairwise (· < ·)) : (rest mark view).Pairwise (· < ·) := h.filter _

theorem page_sorted (h : view.Pairwise (· < ·)) : (page mark limit view).Pairwise (· < ·) :=
  (rest_sorted h).sublist (List.take_sublist _ _)

theorem mem_of_mem_page (h : x ∈ page mark limit view) : x ∈ view ∧ Beyond mark x :=
  mem_rest.mp (List.mem_of_mem_take h)

theorem page_of_next_eq_none (hlimit : 0 < limit) (h : next mark limit view = none) :
    page mark limit view = rest mark view := by
  unfold next at h
  split_ifs at h with hlength
  · exact List.take_of_length_le hlength
  · have hnil : page mark limit view = [] := List.getLast?_eq_none_iff.mp h
    have hzero : min limit (rest mark view).length = 0 := by
      rw [← List.length_take, ← page, hnil, List.length_nil]
    omega

theorem mem_page_iff (hview : view.Pairwise (· < ·)) (h : next mark limit view = some k) :
    x ∈ page mark limit view ↔ x ∈ view ∧ Beyond mark x ∧ x ≤ k := by
  unfold next at h
  split_ifs at h with hlength
  obtain ⟨init, hinit⟩ := List.getLast?_eq_some_iff.mp h
  have hsplit : page mark limit view ++ (rest mark view).drop limit = rest mark view :=
    List.take_append_drop limit _
  have hsorted : (rest mark view).Pairwise (· < ·) := rest_sorted hview
  rw [← hsplit] at hsorted
  obtain ⟨hpage, -, hcross⟩ := List.pairwise_append.mp hsorted
  have hk : k ∈ page mark limit view := by simp [hinit]
  have hle : ∀ y ∈ page mark limit view, y ≤ k := by
    intro y hy
    rw [hinit] at hpage hy
    rcases List.mem_append.mp hy with hy | hy
    · exact ((List.pairwise_append.mp hpage).2.2 y hy k List.mem_cons_self).le
    · exact (List.mem_singleton.mp hy).le
  constructor
  · intro hx
    exact ⟨(mem_of_mem_page hx).1, (mem_of_mem_page hx).2, hle x hx⟩
  · intro ⟨hx, hbeyond, hxk⟩
    have hmem : x ∈ rest mark view := mem_rest.mpr ⟨hx, hbeyond⟩
    rw [← hsplit] at hmem
    rcases List.mem_append.mp hmem with hmem | hmem
    · exact hmem
    · exact absurd (hcross k hk x hmem) (not_lt.mpr hxk)

theorem next_mem_page (h : next mark limit view = some k) : k ∈ page mark limit view := by
  unfold next at h
  split_ifs at h
  exact List.mem_of_getLast? h

theorem beyond_of_next (h : next mark limit view = some k) : Beyond mark k :=
  (mem_of_mem_page (next_mem_page h)).2

theorem rest_next_length_lt (h : next mark limit view = some k) :
    (rest (some k) view).length < (rest mark view).length := by
  have hk := next_mem_page h
  obtain ⟨hmem, hbeyond⟩ := mem_of_mem_page hk
  have htrans : ∀ x, Beyond (some k) x → Beyond mark x := by
    intro x hx
    cases mark with
    | none => trivial
    | some c => exact lt_trans hbeyond hx
  have hfilter : rest (some k) view = (rest mark view).filter fun x ↦ Beyond (some k) x := by
    unfold rest
    rw [List.filter_filter]
    apply List.filter_congr
    intro x _
    have := htrans x
    by_cases hx : Beyond (some k) x <;> simp [hx, htrans]
  rw [hfilter]
  apply lt_of_le_of_ne (List.length_filter_le _ _)
  intro heq
  have hall := List.length_filter_eq_length_iff.mp heq k (mem_rest.mpr ⟨hmem, hbeyond⟩)
  exact absurd (of_decide_eq_true hall) (lt_irrefl k)

theorem countP_le_next (hview : view.Pairwise (· < ·)) (h : next mark limit view = some k) :
    view.countP (fun x ↦ x ≤ k) =
      view.countP (fun x ↦ ¬Beyond mark x) + (page mark limit view).length := by
  have hnodup : view.Nodup := hview.imp ne_of_lt
  have hpage : (view.filter fun x ↦ Beyond mark x ∧ x ≤ k).Perm (page mark limit view) := by
    refine (List.perm_ext_iff_of_nodup (hnodup.filter _) ((page_sorted hview).imp ne_of_lt)).mpr ?_
    intro x
    rw [mem_page_iff hview h, List.mem_filter, decide_eq_true_eq]
  have hbefore : ∀ x, ¬Beyond mark x → x ≤ k := by
    intro x hx
    have hk := beyond_of_next h
    cases mark with
    | none => exact absurd trivial hx
    | some c => exact (not_lt.mp hx).trans (le_of_lt hk)
  rw [← hpage.length_eq, ← List.countP_eq_length_filter]
  have hsplit := List.countP_eq_countP_filter_add view (fun x ↦ decide (x ≤ k))
    fun x ↦ decide (Beyond mark x)
  rw [hsplit, List.countP_filter, List.countP_filter, Nat.add_comm]
  congr 1
  · apply List.countP_congr
    intro x _
    have := hbefore x
    simp only [Bool.and_eq_true, Bool.not_eq_true', decide_eq_true_eq, decide_eq_false_iff_not]
    tauto
  · apply List.countP_congr
    intro x _
    simp only [Bool.and_eq_true, decide_eq_true_eq]
    tauto

theorem rest_length_le_of_subset {view' : List κ} (hnodup : view'.Nodup) (h : view' ⊆ view) :
    (rest mark view').length ≤ (rest mark view).length := by
  refine (List.subperm_of_subset (hnodup.filter _) fun x hx ↦ ?_).length_le
  obtain ⟨hmem, hbeyond⟩ := mem_rest.mp hx
  exact mem_rest.mpr ⟨h hmem, hbeyond⟩

theorem drop_findIdx {α : Type*} {p : α → Bool} {l : List α}
    (h : l.Pairwise fun a b ↦ p a = true → p b = true) :
    l.drop ((l.findIdx? p).getD l.length) = l.filter p ∧
      (l.findIdx? p).getD l.length = l.countP fun a ↦ !p a := by
  induction l with
  | nil => simp
  | cons a l ih =>
    obtain ⟨ha, hl⟩ := List.pairwise_cons.mp h
    obtain ⟨hdrop, hcount⟩ := ih hl
    by_cases hp : p a = true
    · have hall : ∀ b ∈ l, p b = true := fun b hb ↦ ha b hb hp
      have hfilter : l.filter p = l := List.filter_eq_self.mpr hall
      have hnone : l.countP (fun a ↦ !p a) = 0 := by
        rw [List.countP_eq_zero]
        intro b hb
        simp [hall b hb]
      simp [List.findIdx?_cons, hp, hfilter, hnone]
    · have hnot : p a = false := by simpa using hp
      have hstart : ((a :: l).findIdx? p).getD (a :: l).length = (l.findIdx? p).getD l.length + 1 := by
        cases hfind : l.findIdx? p <;> simp [List.findIdx?_cons, hnot, hfind]
      rw [hstart, List.drop_succ_cons, hdrop, hcount]
      simp [hnot]

/-- A walk over views that were read one after another: the views, the pages they gave, and the
mark the next read resumes behind, none where the walk is at its end. -/
inductive Walk : List (List κ) → List (List κ) → Option κ → Prop
  | first {view : List κ} {limit : ℕ} (hlimit : 0 < limit) (hview : view.Pairwise (· < ·)) :
      Walk [view] [page none limit view] (next none limit view)
  | more {views pages : List (List κ)} {k : κ} {view : List κ} {limit : ℕ}
      (walk : Walk views pages (some k)) (hlimit : 0 < limit) (hview : view.Pairwise (· < ·)) :
      Walk (views ++ [view]) (pages ++ [page (some k) limit view]) (next (some k) limit view)

namespace Walk

variable {views pages : List (List κ)}

theorem sorted (h : Walk views pages mark) :
    pages.flatten.Pairwise (· < ·) ∧ ∀ k, mark = some k → ∀ x ∈ pages.flatten, x ≤ k := by
  induction h with
  | @first view limit hlimit hview =>
    simp only [List.flatten_cons, List.flatten_nil, List.append_nil]
    refine ⟨page_sorted hview, fun k hk x hx ↦ ?_⟩
    exact ((mem_page_iff hview hk).mp hx).2.2
  | @more views pages c view limit walk hlimit hview ih =>
    obtain ⟨hsorted, hle⟩ := ih
    simp only [List.flatten_append, List.flatten_cons, List.flatten_nil, List.append_nil]
    refine ⟨List.pairwise_append.mpr ⟨hsorted, page_sorted hview, fun x hx y hy ↦ ?_⟩,
      fun k hk x hx ↦ ?_⟩
    · exact lt_of_le_of_lt (hle c rfl x hx) (mem_of_mem_page hy).2
    · rcases List.mem_append.mp hx with hx | hx
      · exact (hle c rfl x hx).trans (le_of_lt (beyond_of_next hk))
      · exact ((mem_page_iff hview hk).mp hx).2.2

/-- A key that every view holds is delivered once the mark has passed it. -/
theorem delivered (h : Walk views pages mark) (hx : ∀ view ∈ views, x ∈ view)
    (hpassed : ∀ k, mark = some k → x ≤ k) : x ∈ pages.flatten := by
  induction h with
  | @first view limit hlimit hview =>
    have hmem := hx view List.mem_cons_self
    simp only [List.flatten_cons, List.flatten_nil, List.append_nil]
    cases hnext : next none limit view with
    | none =>
      rw [page_of_next_eq_none hlimit hnext]
      exact mem_rest.mpr ⟨hmem, trivial⟩
    | some k => exact (mem_page_iff hview hnext).mpr ⟨hmem, trivial, hpassed k hnext⟩
  | @more views pages c view limit walk hlimit hview ih =>
    have hmem := hx view (List.mem_append_right _ List.mem_cons_self)
    simp only [List.flatten_append, List.flatten_cons, List.flatten_nil, List.append_nil]
    by_cases hbefore : x ≤ c
    · refine List.mem_append_left _ (ih (fun v hv ↦ hx v (List.mem_append_left _ hv)) fun k hk ↦ ?_)
      rwa [← Option.some.inj hk]
    · apply List.mem_append_right _
      cases hnext : next (some c) limit view with
      | none =>
        rw [page_of_next_eq_none hlimit hnext]
        exact mem_rest.mpr ⟨hmem, not_le.mp hbefore⟩
      | some k =>
        exact (mem_page_iff hview hnext).mpr ⟨hmem, not_le.mp hbefore, hpassed k hnext⟩

end Walk

end Keyset
