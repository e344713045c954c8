import Mathlib.Algebra.Order.Ring.Rat
import Mathlib.Data.List.Basic
import Mathlib.Tactic.Linarith

/-!
A queue that is swept now and then: a sweep drops what is older than the queue keeps, and between
two sweeps nothing is dropped. The clock need not run forwards.
-/

namespace Servanda.Expiry

variable {α : Type*}

inductive Event (α : Type*)
  | arrive (a : α)
  | sweep (now : ℤ)

variable (ttl : ℚ) (time : α → ℤ)

/-- Not older than the queue keeps. -/
def fresh (now : ℤ) (a : α) : Bool := (now : ℚ) - ttl ≤ time a

def step (queue : List α) : Event α → List α
  | .arrive a => queue ++ [a]
  | .sweep now => queue.filter (fresh ttl time now)

def queue (events : List (Event α)) : List α := events.foldl (step ttl time) []

/-- No sweep among the events finds it too old. -/
def survives (later : List (Event α)) (a : α) : Bool := later.all fun
  | .arrive _ => true
  | .sweep now => fresh ttl time now a

/-- What arrives and survives all that comes after it. -/
def kept : List (Event α) → List α
  | [] => []
  | .arrive a :: later => if survives ttl time later a then a :: kept later else kept later
  | .sweep _ :: later => kept later

def arrivals (events : List (Event α)) : List α := events.filterMap fun
  | .arrive a => some a
  | .sweep _ => none

variable {ttl time} {now : ℤ} {events : List (Event α)}

theorem fresh_of_le {later : ℤ} {a : α} (h : now ≤ later) (hfresh : fresh ttl time later a = true) :
    fresh ttl time now a = true := by
  have hcast : (now : ℚ) ≤ later := by exact_mod_cast h
  unfold fresh at hfresh ⊢
  rw [decide_eq_true_eq] at hfresh ⊢
  linarith

theorem foldl_step (start : List α) : events.foldl (step ttl time) start =
    start.filter (survives ttl time events) ++ kept ttl time events := by
  induction events generalizing start with
  | nil =>
    have hall : survives ttl time [] = fun _ ↦ true := rfl
    simp [hall, kept]
  | cons event later ih =>
    rw [List.foldl_cons, ih]
    cases event with
    | arrive a =>
      have hstart : survives ttl time (.arrive a :: later) = survives ttl time later := rfl
      rw [hstart, step, List.filter_append, List.append_assoc]
      congr 1
      by_cases h : survives ttl time later a <;> simp [kept, h]
    | sweep now =>
      rw [step, List.filter_filter, kept]
      congr 2
      funext a
      simp [survives, Bool.and_comm]

/-- The queue holds what no sweep since its arrival has found too old, in order of arrival. -/
theorem queue_eq_kept : queue ttl time events = kept ttl time events := foldl_step []

theorem queue_snoc (event : Event α) :
    queue ttl time (events ++ [event]) = step ttl time (queue ttl time events) event := by
  simp [queue]

/-- Where no sweep came from later on the clock, a sweep leaves what is fresh of all arrivals. -/
theorem queue_sweep (h : ∀ earlier, .sweep earlier ∈ events → earlier ≤ now) :
    queue ttl time (events ++ [.sweep now]) = (arrivals events).filter (fresh ttl time now) := by
  rw [queue_snoc, queue_eq_kept, step]
  induction events with
  | nil => rfl
  | cons event later ih =>
    have hlater := ih fun earlier hmem ↦ h earlier (List.mem_cons_of_mem _ hmem)
    cases event with
    | sweep t => exact hlater
    | arrive a =>
      have harrivals : arrivals (.arrive a :: later) = a :: arrivals later := rfl
      rw [kept, harrivals, List.filter_cons, ← hlater]
      by_cases hsurvives : survives ttl time later a = true
      · rw [if_pos hsurvives, List.filter_cons]
      · rw [if_neg hsurvives]
        -- The sweep that dropped it was no later, so it is too old for this one.
        have hstale : fresh ttl time now a ≠ true := by
          intro hfresh
          refine hsurvives (List.all_eq_true.mpr ?_)
          intro event hmem
          cases event with
          | arrive _ => rfl
          | sweep t => exact fresh_of_le (h t (List.mem_cons_of_mem _ hmem)) hfresh
        rw [if_neg hstale]

theorem arrived_of_mem_kept {a : α} (h : a ∈ kept ttl time events) : .arrive a ∈ events := by
  induction events with
  | nil => cases h
  | cons event later ih =>
    cases event with
    | sweep now => exact List.mem_cons_of_mem _ (ih h)
    | arrive b =>
      rw [kept] at h
      split at h
      · obtain rfl | hlater := List.mem_cons.mp h
        · exact List.mem_cons_self
        · exact List.mem_cons_of_mem _ (ih hlater)
      · exact List.mem_cons_of_mem _ (ih h)

/-- What arrives is kept where no later sweep finds it too old. -/
theorem mem_kept {a : α} {earlier later : List (Event α)}
    (h : survives ttl time later a = true) : a ∈ kept ttl time (earlier ++ .arrive a :: later) := by
  induction earlier with
  | nil =>
    rw [List.nil_append, kept, if_pos h]
    exact List.mem_cons_self
  | cons event earlier ih =>
    cases event with
    | sweep now => exact ih
    | arrive b =>
      rw [List.cons_append, kept]
      split_ifs
      · exact List.mem_cons_of_mem _ ih
      · exact ih

end Servanda.Expiry
