import Mathlib.Data.List.Basic
import Mathlib.Data.List.Induction

namespace Servanda.Replay

variable {σ α ε : Type*} (step : σ → α → Except ε σ)

def next (s : σ) (a : α) : σ :=
  match step s a with
  | .ok t => t
  | .error _ => s

def final (s : σ) (l : List α) : σ := l.foldl (next step) s

def verdicts : σ → List α → List (Option ε)
  | _, [] => []
  | s, a :: l =>
    match step s a with
    | .ok t => none :: verdicts t l
    | .error e => some e :: verdicts s l

def accepted : σ → List α → List α
  | _, [] => []
  | s, a :: l =>
    match step s a with
    | .ok t => a :: accepted t l
    | .error _ => accepted s l

inductive Path : σ → List α → σ → Prop
  | nil (s : σ) : Path s [] s
  | cons {s t u : σ} {a : α} {l : List α} :
      step s a = .ok t → Path t l u → Path s (a :: l) u

variable {step}

@[simp] theorem next_ok {s t : σ} {a : α} (h : step s a = .ok t) : next step s a = t := by
  simp [next, h]

@[simp] theorem next_error {s : σ} {a : α} {e : ε} (h : step s a = .error e) :
    next step s a = s := by simp [next, h]

@[simp] theorem final_nil (s : σ) : final step s [] = s := rfl

@[simp] theorem final_cons (s : σ) (a : α) (l : List α) :
    final step s (a :: l) = final step (next step s a) l := rfl

theorem final_append (s : σ) (l m : List α) :
    final step s (l ++ m) = final step (final step s l) m := List.foldl_append

@[simp] theorem final_snoc (s : σ) (l : List α) (a : α) :
    final step s (l ++ [a]) = next step (final step s l) a := final_append s l [a]

theorem verdicts_length (s : σ) (l : List α) : (verdicts step s l).length = l.length := by
  induction l generalizing s with
  | nil => rfl
  | cons a l ih => unfold verdicts; split <;> simp [ih]

theorem verdicts_append (s : σ) (l m : List α) :
    verdicts step s (l ++ m) = verdicts step s l ++ verdicts step (final step s l) m := by
  induction l generalizing s with
  | nil => rfl
  | cons a l ih =>
    simp only [List.cons_append, verdicts, final_cons]
    cases h : step s a with
    | ok t => simp [h, ih]
    | error e => simp [h, ih]

theorem accepted_append (s : σ) (l m : List α) :
    accepted step s (l ++ m) = accepted step s l ++ accepted step (final step s l) m := by
  induction l generalizing s with
  | nil => rfl
  | cons a l ih =>
    simp only [List.cons_append, accepted, final_cons]
    cases h : step s a with
    | ok t => simp [h, ih]
    | error e => simp [h, ih]

theorem accepted_sublist (s : σ) (l : List α) : (accepted step s l).Sublist l := by
  induction l generalizing s with
  | nil => exact .slnil
  | cons a l ih =>
    unfold accepted
    split
    · exact (ih _).cons_cons a
    · exact (ih _).cons a

theorem verdicts_split (s : σ) (l m : List α) (a : α) :
    (verdicts step s (l ++ a :: m))[l.length]? =
      some (match step (final step s l) a with | .ok _ => none | .error e => some e) := by
  rw [verdicts_append, List.getElem?_append_right (Nat.le_of_eq (verdicts_length s l)), verdicts_length]
  simp only [Nat.sub_self, verdicts]
  cases h : step (final step s l) a <;> simp

/-- Two tables that answer alike on the items of a list run it alike. -/
theorem final_congr {step' : σ → α → Except ε σ} {l : List α}
    (h : ∀ s, ∀ a ∈ l, step s a = step' s a) (s : σ) : final step s l = final step' s l := by
  induction l generalizing s with
  | nil => rfl
  | cons a l ih =>
    obtain ⟨ha, hl⟩ := forall_and.mp fun s ↦ List.forall_mem_cons.mp (h s)
    rw [final_cons, final_cons, ih hl, next, next, ha]

theorem accepted_congr {step' : σ → α → Except ε σ} {l : List α}
    (h : ∀ s, ∀ a ∈ l, step s a = step' s a) (s : σ) : accepted step s l = accepted step' s l := by
  induction l generalizing s with
  | nil => rfl
  | cons a l ih =>
    obtain ⟨ha, hl⟩ := forall_and.mp fun s ↦ List.forall_mem_cons.mp (h s)
    rw [accepted, accepted, ha]
    split <;> rw [ih hl]

theorem verdicts_congr {step' : σ → α → Except ε σ} {l : List α}
    (h : ∀ s, ∀ a ∈ l, step s a = step' s a) (s : σ) : verdicts step s l = verdicts step' s l := by
  induction l generalizing s with
  | nil => rfl
  | cons a l ih =>
    obtain ⟨ha, hl⟩ := forall_and.mp fun s ↦ List.forall_mem_cons.mp (h s)
    rw [verdicts, verdicts, ha]
    split <;> rw [ih hl]

namespace Path

theorem single {s t : σ} {a : α} (h : step s a = .ok t) : Path step s [a] t :=
  .cons h (.nil t)

theorem trans {s t u : σ} {l m : List α} (h : Path step s l t) (h' : Path step t m u) :
    Path step s (l ++ m) u := by
  induction h with
  | nil => exact h'
  | cons hs _ ih => exact .cons hs (ih h')

theorem snoc {s t u : σ} {l : List α} {a : α} (h : Path step s l t) (ha : step t a = .ok u) :
    Path step s (l ++ [a]) u := h.trans (.single ha)

theorem split {s u : σ} {l m : List α} (h : Path step s (l ++ m) u) :
    ∃ t, Path step s l t ∧ Path step t m u := by
  induction l generalizing s with
  | nil => exact ⟨s, .nil s, h⟩
  | cons a l ih =>
    cases h with
    | cons hs ht =>
      obtain ⟨t, hl, hm⟩ := ih ht
      exact ⟨t, .cons hs hl, hm⟩

theorem final_eq {s t : σ} {l : List α} (h : Path step s l t) : final step s l = t := by
  induction h with
  | nil => rfl
  | cons hs _ ih => rw [final_cons, next_ok hs, ih]

theorem accepted_eq {s t : σ} {l : List α} (h : Path step s l t) : accepted step s l = l := by
  induction h with
  | nil => rfl
  | cons hs _ ih => simp [accepted, hs, ih]

theorem verdicts_eq {s t : σ} {l : List α} (h : Path step s l t) :
    verdicts step s l = List.replicate l.length none := by
  induction h with
  | nil => rfl
  | cons hs _ ih => simp [verdicts, hs, ih, List.replicate_succ]

end Path

/-- The accepted items alone make an accepted run with the same end: refusals leave no trace. -/
theorem path_accepted (s : σ) (l : List α) :
    Path step s (accepted step s l) (final step s l) := by
  induction l generalizing s with
  | nil => exact .nil s
  | cons a l ih =>
    unfold accepted
    cases h : step s a with
    | ok t => simpa [h] using Path.cons h (ih t)
    | error e => simpa [h] using ih s

theorem path_of_verdicts {s : σ} {l : List α} (h : ∀ v ∈ verdicts step s l, v = none) :
    Path step s l (final step s l) := by
  induction l generalizing s with
  | nil => exact .nil s
  | cons a l ih =>
    unfold verdicts at h
    cases hs : step s a with
    | ok t =>
      simp only [hs, List.mem_cons, forall_eq_or_imp] at h
      simpa [hs] using Path.cons hs (ih h.2)
    | error e => simp [hs] at h

theorem path_iff {s t : σ} {l : List α} :
    Path step s l t ↔ (∀ v ∈ verdicts step s l, v = none) ∧ final step s l = t := by
  constructor
  · intro h
    refine ⟨fun v hv ↦ ?_, h.final_eq⟩
    rw [h.verdicts_eq] at hv
    exact List.eq_of_mem_replicate hv
  · rintro ⟨h, rfl⟩
    exact path_of_verdicts h

/-- An invariant of the accepted prefix and the state it reached, kept by every accepted step,
holds after every run. -/
theorem invariant {I : List α → σ → Prop} {s : σ} (h₀ : I [] s)
    (hstep : ∀ l t a u, I l t → step t a = .ok u → I (l ++ [a]) u) (l : List α) :
    I (accepted step s l) (final step s l) := by
  induction l using List.reverseRecOn with
  | nil => exact h₀
  | append_singleton l a ih =>
    rw [accepted_append, final_append]
    cases h : step (final step s l) a with
    | ok t => simpa [accepted, h] using hstep _ _ _ _ ih h
    | error e => simpa [accepted, h] using ih

theorem exists_change {P : List α → Prop} {l m : List α} (h : P l) (h' : ¬P (l ++ m)) :
    ∃ r z s, m = r ++ z :: s ∧ P (l ++ r) ∧ ¬P (l ++ r ++ [z]) := by
  induction m using List.reverseRecOn with
  | nil => exact absurd (by simpa using h) h'
  | append_singleton m z ih =>
    by_cases hm : P (l ++ m)
    · exact ⟨m, z, [], rfl, hm, by simpa using h'⟩
    · obtain ⟨r, y, s, rfl, hr, hy⟩ := ih hm
      exact ⟨r, y, s ++ [z], by simp, hr, hy⟩

theorem forall_prefix {Q : List α → α → Prop} {l : List α}
    (h : ∀ i : Fin l.length, Q (l.take i) l[i]) {p : List α} {x : α} (hp : p ++ [x] <+: l) :
    Q p x := by
  obtain ⟨s, rfl⟩ := hp
  have hx := h ⟨p.length, by simp⟩
  simpa using hx

/-- A table that only filters another: whatever it accepts, the other accepts alike. -/
def Filters {ε' : Type*} (step : σ → α → Except ε σ) (step' : σ → α → Except ε' σ) : Prop :=
  ∀ s a t, step s a = .ok t → step' s a = .ok t

theorem Filters.path {ε' : Type*} {step' : σ → α → Except ε' σ} (h : Filters step step')
    {s t : σ} {l : List α} (hp : Path step s l t) : Path step' s l t := by
  induction hp with
  | nil => exact .nil _
  | cons hs _ ih => exact .cons (h _ _ _ hs) ih

/-- Two tables that move alike wherever both move. -/
def Agree {ε' : Type*} (step : σ → α → Except ε σ) (step' : σ → α → Except ε' σ) : Prop :=
  ∀ s a t t', step s a = .ok t → step' s a = .ok t' → t' = t

theorem Agree.final_eq {ε' : Type*} {step' : σ → α → Except ε' σ} (h : Agree step step')
    {s t t' : σ} {l : List α} (hp : Path step s l t) (hp' : Path step' s l t') : t' = t := by
  induction hp with
  | nil =>
    cases hp'
    rfl
  | cons hs _ ih =>
    cases hp' with
    | cons hs' hrest =>
      obtain rfl := h _ _ _ _ hs hs'
      exact ih hrest

/-- A run of one table is a run of another exactly when the other accepts every item where it
stands in the first one's run. -/
theorem path_iff_of_agree {ε' : Type*} {step' : σ → α → Except ε' σ} {Q : σ → α → Prop}
    (h : Agree step step') (hQ : ∀ s a t, step s a = .ok t → ((∃ t', step' s a = .ok t') ↔ Q s a))
    {s t : σ} {l : List α} (hp : Path step s l t) :
    (∃ t', Path step' s l t') ↔ ∀ p a, p ++ [a] <+: l → Q (final step s p) a := by
  induction hp with
  | nil s =>
    refine ⟨fun _ p a hpre ↦ ?_, fun _ ↦ ⟨s, .nil s⟩⟩
    exact absurd (List.prefix_nil.mp hpre) (by simp)
  | @cons s t u a l hs _ ih =>
    constructor
    · intro ⟨t', hp'⟩ p b hpre
      cases hp' with
      | cons hs' hrest =>
        obtain rfl := h _ _ _ _ hs hs'
        cases p with
        | nil =>
          obtain ⟨rfl, -⟩ := List.cons_prefix_cons.mp hpre
          exact (hQ _ _ _ hs).mp ⟨_, hs'⟩
        | cons c p =>
          obtain ⟨rfl, htail⟩ := List.cons_prefix_cons.mp hpre
          rw [final_cons, next_ok hs]
          exact ih.mp ⟨_, hrest⟩ p b htail
    · intro hall
      obtain ⟨t', hs'⟩ := (hQ _ _ _ hs).mpr (hall [] a (by simp))
      obtain rfl := h _ _ _ _ hs hs'
      obtain ⟨u', hrest⟩ := ih.mpr fun p b hpre ↦ by
        have := hall (a :: p) b (List.cons_prefix_cons.mpr ⟨rfl, hpre⟩)
        rwa [final_cons, next_ok hs] at this
      exact ⟨u', .cons hs' hrest⟩

end Servanda.Replay
