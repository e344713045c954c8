import Mathlib.Data.List.Basic
import Mathlib.Logic.Function.Basic
import Mathlib.Order.Lattice

/-!
A cache filled by checks that take time. Calls and the ends of checks come in any order: what a call
is given was checked at an instant not after it, and had not run out.
-/

namespace Servanda.Checks

variable {κ ν α τ : Type}

/-- A call of the cache, or the end of one of the checks that are under way. -/
inductive Event (κ α τ : Type)
  | call (key : κ) (now : τ)
  | land (i : ℕ) (answers : α)

structure State (κ ν τ : Type) where
  cached : κ → Option (ν × τ)
  flight : List (κ × τ)

/-- What a call made at an instant is given. -/
structure Reply (κ ν τ : Type) where
  key : κ
  now : τ
  value : ν

def State.empty : State κ ν τ := ⟨fun _ ↦ none, []⟩

section Run

-- A check gives a value, and the instant it may be kept until, if it may be kept.
variable [DecidableEq κ] [LinearOrder τ] (check : α → κ → τ → ν × Option τ)

/-- A call finds an entry that has not run out, or drops what it finds and begins a check. -/
def State.call (s : State κ ν τ) (key : κ) (now : τ) : State κ ν τ × Option (Reply κ ν τ) :=
  match s.cached key with
  | none => ({ s with flight := s.flight ++ [(key, now)] }, none)
  | some (value, keepUntil) =>
    if now < keepUntil then (s, some ⟨key, now, value⟩)
    else (⟨Function.update s.cached key none, s.flight ++ [(key, now)]⟩, none)

/-- A check ends, and its value is kept where it may be. -/
def State.land (s : State κ ν τ) (i : ℕ) (answers : α) : State κ ν τ × Option (Reply κ ν τ) :=
  match s.flight[i]? with
  | none => (s, none)
  | some (key, since) =>
    let checked := check answers key since
    (⟨match checked.2 with
      | some keepUntil => Function.update s.cached key (some (checked.1, keepUntil))
      | none => s.cached, s.flight.eraseIdx i⟩, some ⟨key, since, checked.1⟩)

def State.step (s : State κ ν τ) : Event κ α τ → State κ ν τ × Option (Reply κ ν τ)
  | .call key now => s.call key now
  | .land i answers => s.land check i answers

/-- The state after a run, and the replies in the order they are given. -/
def State.run (s : State κ ν τ) : List (Event κ α τ) → State κ ν τ × List (Reply κ ν τ)
  | [] => (s, [])
  | e :: events =>
    let next := s.step check e
    let rest := next.1.run events
    (rest.1, next.2.toList ++ rest.2)

end Run

/-- The instants of the calls. -/
def calls (events : List (Event κ α τ)) : List (κ × τ) := events.filterMap fun
  | .call key now => some (key, now)
  | .land _ _ => none

theorem calls_append (past events : List (Event κ α τ)) :
    calls (past ++ events) = calls past ++ calls events := List.filterMap_append

/-- The clock does not go back from call to call. -/
def Forward [LinearOrder τ] (events : List (Event κ α τ)) : Prop :=
  (calls events).Pairwise fun a b ↦ a.2 ≤ b.2

section Invariant

variable {check : α → κ → τ → ν × Option τ} {s : State κ ν τ} {past events : List (Event κ α τ)}

/-- An entry comes from a check that began with a call and has ended, and a check that is under way
began with a call. -/
structure State.From (check : α → κ → τ → ν × Option τ) (past : List (Event κ α τ)) (s : State κ ν τ) :
    Prop where
  cached (key : κ) (value : ν) (keepUntil : τ) : s.cached key = some (value, keepUntil) →
    ∃ answers since i, .land i answers ∈ past ∧ (key, since) ∈ calls past ∧
      check answers key since = (value, some keepUntil)
  flight : ∀ begun ∈ s.flight, begun ∈ calls past

/-- What a reply is made from: a check of its own, or one that a call not after it began and whose
value had not run out. -/
def Reply.From [LinearOrder τ] (check : α → κ → τ → ν × Option τ) (past : List (Event κ α τ))
    (r : Reply κ ν τ) : Prop :=
  ∃ answers since i, .land i answers ∈ past ∧ (r.key, since) ∈ calls past ∧ since ≤ r.now ∧
    r.value = (check answers r.key since).1 ∧
    (since = r.now ∨ ∃ keepUntil, (check answers r.key since).2 = some keepUntil ∧ r.now < keepUntil)

theorem State.From.empty : State.From check [] (State.empty : State κ ν τ) :=
  ⟨nofun, List.forall_mem_nil _⟩

theorem State.From.mono (h : s.From check past) (events : List (Event κ α τ)) :
    s.From check (past ++ events) := by
  refine ⟨fun key value keepUntil hcached ↦ ?_, fun begun hbegun ↦ ?_⟩
  · obtain ⟨answers, since, i, hland, hcall, hcheck⟩ := h.cached key value keepUntil hcached
    refine ⟨answers, since, i, List.mem_append_left _ hland, ?_, hcheck⟩
    rw [calls_append]
    exact List.mem_append_left _ hcall
  · rw [calls_append]
    exact List.mem_append_left _ (h.flight begun hbegun)

/-- A check that a call begins. -/
theorem State.From.begun (h : s.From check past) (key : κ) (now : τ) {cached : κ → Option (ν × τ)}
    (hcached : ∀ k entry, cached k = some entry → s.cached k = some entry) :
    State.From check (past ++ [.call key now]) ⟨cached, s.flight ++ [(key, now)]⟩ := by
  have hmono := h.mono [.call key now]
  refine ⟨fun k value keepUntil hk ↦ hmono.cached k value keepUntil (hcached _ _ hk), ?_⟩
  refine List.forall_mem_append.mpr ⟨hmono.flight, List.forall_mem_singleton.mpr ?_⟩
  rw [calls_append]
  exact List.mem_append_right _ (List.mem_singleton_self _)

variable [LinearOrder τ]

theorem Reply.From.mono {r : Reply κ ν τ} (h : r.From check past) (events : List (Event κ α τ)) :
    r.From check (past ++ events) := by
  obtain ⟨answers, since, i, hland, hcall, hfresh⟩ := h
  refine ⟨answers, since, i, List.mem_append_left _ hland, ?_, hfresh⟩
  rw [calls_append]
  exact List.mem_append_left _ hcall

theorem Forward.le_of_mem {key k : κ} {now since : τ}
    (h : Forward (past ++ [(.call key now : Event κ α τ)])) (hmem : (k, since) ∈ calls past) :
    since ≤ now := by
  rw [Forward, calls_append] at h
  exact (List.pairwise_append.mp h).2.2 _ hmem _ (List.mem_singleton_self _)

theorem Forward.before (h : Forward (past ++ events)) : Forward past := by
  rw [Forward, calls_append] at h
  exact (List.pairwise_append.mp h).1

variable [DecidableEq κ]

theorem State.From.step (h : s.From check past) (e : Event κ α τ) (hforward : Forward (past ++ [e])) :
    (s.step check e).1.From check (past ++ [e]) ∧
      ∀ r ∈ (s.step check e).2, r.From check (past ++ [e]) := by
  cases e with
  | call key now =>
    rw [State.step, State.call]
    cases hcached : s.cached key with
    | none => exact ⟨h.begun key now fun _ _ hk ↦ hk, nofun⟩
    | some entry =>
      obtain ⟨value, keepUntil⟩ := entry
      dsimp only
      split_ifs with hnow
      · refine ⟨h.mono _, fun r hr ↦ ?_⟩
        obtain rfl := Option.mem_some_iff.mp hr
        obtain ⟨answers, since, i, hland, hcall, hcheck⟩ := h.cached _ _ _ hcached
        refine ⟨answers, since, i, List.mem_append_left _ hland, ?_, hforward.le_of_mem hcall, ?_⟩
        · rw [calls_append]
          exact List.mem_append_left _ hcall
        · rw [hcheck]
          exact ⟨rfl, .inr ⟨keepUntil, rfl, hnow⟩⟩
      · refine ⟨h.begun key now fun k entry hk ↦ ?_, nofun⟩
        by_cases hkey : k = key
        · rw [hkey, Function.update_self] at hk
          cases hk
        · rwa [Function.update_of_ne hkey] at hk
  | land i answers =>
    rw [State.step, State.land]
    cases hflight : s.flight[i]? with
    | none => exact ⟨h.mono _, nofun⟩
    | some begun =>
      obtain ⟨key, since⟩ := begun
      have hmono := h.mono [.land i answers]
      have hland : Event.land i answers ∈ past ++ [.land i answers] :=
        List.mem_append_right _ (List.mem_singleton_self _)
      have hcall := hmono.flight _ (List.mem_of_getElem? hflight)
      dsimp only
      refine ⟨⟨fun k value keepUntil hk ↦ ?_, fun begun hbegun ↦ ?_⟩, fun r hr ↦ ?_⟩
      · cases hchecked : (check answers key since).2 with
        | none =>
          rw [hchecked] at hk
          exact hmono.cached _ _ _ hk
        | some till =>
          rw [hchecked] at hk
          dsimp only at hk
          by_cases hkey : k = key
          · rw [hkey, Function.update_self, Option.some.injEq, Prod.mk.injEq] at hk
            refine ⟨answers, since, i, hland, hkey ▸ hcall, ?_⟩
            rw [hkey, ← hk.1, ← hk.2, ← hchecked]
          · rw [Function.update_of_ne hkey] at hk
            exact hmono.cached _ _ _ hk
      · exact hmono.flight _ (List.mem_of_mem_eraseIdx hbegun)
      · obtain rfl := Option.mem_some_iff.mp hr
        exact ⟨answers, since, i, hland, hcall, le_rfl, rfl, .inl rfl⟩

/-- Every reply of a run comes from a check that began with a call of the run and ended in it. -/
theorem State.From.run (h : s.From check past) (events : List (Event κ α τ))
    (hforward : Forward (past ++ events)) :
    (s.run check events).1.From check (past ++ events) ∧
      ∀ r ∈ (s.run check events).2, r.From check (past ++ events) := by
  induction events generalizing s past with
  | nil =>
    rw [List.append_nil]
    exact ⟨h, List.forall_mem_nil _⟩
  | cons e events ih =>
    have hassoc : past ++ e :: events = (past ++ [e]) ++ events := by simp
    rw [hassoc] at hforward ⊢
    obtain ⟨hnext, hreply⟩ := h.step e hforward.before
    obtain ⟨hstate, hrest⟩ := ih hnext hforward
    refine ⟨hstate, List.forall_mem_append.mpr ⟨fun r hr ↦ ?_, hrest⟩⟩
    exact (hreply r (Option.mem_toList.mp hr)).mono events

end Invariant

section Landing

variable [DecidableEq κ] {check : α → κ → τ → ν × Option τ} {s : State κ ν τ} {key : κ} {now : τ}
  {answers : α}

/-- The check that begins last ends. -/
theorem State.land_begun {flight : List (κ × τ)} (h : s.flight = flight ++ [(key, now)]) :
    s.land check flight.length answers = (⟨match (check answers key now).2 with
      | some keepUntil => Function.update s.cached key (some ((check answers key now).1, keepUntil))
      | none => s.cached, s.flight.eraseIdx flight.length⟩,
      some ⟨key, now, (check answers key now).1⟩) := by
  have hlast : s.flight[flight.length]? = some (key, now) := by
    rw [h, List.getElem?_concat_length]
  rw [State.land, hlast]

end Landing

/-- What is kept may be kept. -/
def State.Kept (check : α → κ → τ → ν × Option τ) (s : State κ ν τ) : Prop :=
  ∀ key value keepUntil, s.cached key = some (value, keepUntil) →
    ∃ answers since, check answers key since = (value, some keepUntil)

theorem State.Kept.empty {check : α → κ → τ → ν × Option τ} : State.Kept check
    (State.empty : State κ ν τ) := nofun

section Alone

variable [DecidableEq κ] [LinearOrder τ] (check : α → κ → τ → ν × Option τ)

/-- A call on its own: the check it begins ends before another call. -/
def State.resolve (s : State κ ν τ) (key : κ) (now : τ) (answers : α) : State κ ν τ × ν :=
  let called := s.call key now
  match called.2 with
  | some reply => (called.1, reply.value)
  | none => ((called.1.land check s.flight.length answers).1, (check answers key now).1)

variable {check} {s : State κ ν τ} {key k : κ} {now : τ} {answers answers' : α}

theorem State.call_cached_of_ne (hk : k ≠ key) : (s.call key now).1.cached k = s.cached k := by
  unfold State.call
  split
  · rfl
  · split_ifs
    · rfl
    · exact Function.update_of_ne hk _ _

/-- A call that is given no entry drops the one there is. -/
theorem State.call_eq_none (h : (s.call key now).2 = none) :
    (s.call key now).1.cached key = none ∧ (s.call key now).1.flight = s.flight ++ [(key, now)] := by
  unfold State.call at h ⊢
  cases hcached : s.cached key with
  | none => exact ⟨hcached, rfl⟩
  | some entry =>
    obtain ⟨value, keepUntil⟩ := entry
    rw [hcached] at h
    dsimp only at h ⊢
    split_ifs at h ⊢ with hnow
    exact ⟨Function.update_self _ _ _, rfl⟩

theorem State.run_append (s : State κ ν τ) (events events' : List (Event κ α τ)) :
    (s.run check (events ++ events')).1 = ((s.run check events).1.run check events').1 := by
  induction events generalizing s with
  | nil => rfl
  | cons e events ih => exact ih _

variable (check) in
/-- A call on its own is a run of its two events, or of the first where that is enough. -/
theorem State.resolve_eq_run (s : State κ ν τ) (key : κ) (now : τ) (answers : α) :
    ∃ events : List (Event κ α τ), calls events = [(key, now)] ∧
      (s.run check events).1 = (s.resolve check key now answers).1 ∧
      ⟨key, now, (s.resolve check key now answers).2⟩ ∈ (s.run check events).2 := by
  cases hcall : (s.call key now).2 with
  | some reply =>
    have hreply : reply = ⟨key, now, reply.value⟩ := by
      unfold State.call at hcall
      split at hcall
      · cases hcall
      · split_ifs at hcall
        obtain rfl := Option.some.inj hcall
        rfl
    refine ⟨[.call key now], rfl, ?_, ?_⟩
    · simp only [State.run, State.step, State.resolve, hcall]
    · simp only [State.run, State.step, State.resolve, hcall, ← hreply]
      exact List.mem_singleton_self _
  | none =>
    have hland : (s.call key now).1.land check s.flight.length answers = _ :=
      State.land_begun (State.call_eq_none hcall).2
    refine ⟨[.call key now, .land s.flight.length answers], rfl, ?_, ?_⟩
    · simp only [State.run, State.step, State.resolve, hcall]
    · simp only [State.run, State.step, State.resolve, hcall, hland]
      exact List.mem_singleton_self _

theorem State.resolve_of_none (h : s.cached key = none) :
    (s.resolve check key now answers).2 = (check answers key now).1 := by
  simp only [State.resolve, State.call, h]

/-- A call does not touch what is kept for another key. -/
theorem State.resolve_cached_of_ne (hk : k ≠ key) :
    (s.resolve check key now answers).1.cached k = s.cached k := by
  unfold State.resolve
  dsimp only
  cases hcall : (s.call key now).2 with
  | some reply => exact State.call_cached_of_ne hk
  | none =>
    have hother : (s.call key now).1.cached k = s.cached k := State.call_cached_of_ne hk
    dsimp only
    rw [State.land_begun (State.call_eq_none hcall).2]
    cases (check answers key now).2 with
    | none => exact hother
    | some keepUntil => exact (Function.update_of_ne hk _ _).trans hother

/-- Nothing is kept of a check whose value may not be. -/
theorem State.resolve_cached (hcall : (s.call key now).2 = none)
    (hchecked : (check answers key now).2 = none) :
    (s.resolve check key now answers).1.cached key = none := by
  obtain ⟨hdropped, hflight⟩ := State.call_eq_none hcall
  simp only [State.resolve, hcall, State.land_begun hflight, hchecked, hdropped]

theorem State.Kept.resolve (h : s.Kept check) (key : κ) (now : τ) (answers : α) :
    (s.resolve check key now answers).1.Kept check := by
  intro k value keepUntil hk
  by_cases hkey : k = key
  · cases hcall : (s.call key now).2 with
    | some reply =>
      have hsame : (s.call key now).1 = s := by
        unfold State.call at hcall ⊢
        split at hcall
        · cases hcall
        · split_ifs at hcall ⊢
          rfl
      simp only [State.resolve, hcall, hsame] at hk
      exact h k value keepUntil hk
    | none =>
      obtain ⟨hdropped, hflight⟩ := State.call_eq_none hcall
      simp only [State.resolve, hcall, State.land_begun hflight] at hk
      cases hchecked : (check answers key now).2 with
      | none =>
        rw [hchecked] at hk
        dsimp only at hk
        rw [hkey, hdropped] at hk
        cases hk
      | some till =>
        rw [hchecked] at hk
        dsimp only at hk
        rw [hkey, Function.update_self, Option.some.injEq, Prod.mk.injEq] at hk
        refine ⟨answers, now, ?_⟩
        rw [hkey, ← hk.1, ← hk.2, ← hchecked]
  · rw [State.resolve_cached_of_ne hkey] at hk
    exact h k value keepUntil hk

/-- A call whose value may not be kept had no entry, and leaves none. -/
theorem State.Kept.resolve_cached (h : s.Kept check)
    (hvalue : ∀ answers since keepUntil, check answers key since ≠
      ((s.resolve check key now answers').2, some keepUntil)) :
    (s.resolve check key now answers').1.cached key = none := by
  cases hcall : (s.call key now).2 with
  | some reply =>
    exfalso
    unfold State.call at hcall
    cases hcached : s.cached key with
    | none =>
      rw [hcached] at hcall
      cases hcall
    | some entry =>
      obtain ⟨answers, since, hcheck⟩ := h key entry.1 entry.2 hcached
      rw [hcached] at hcall
      dsimp only at hcall
      split_ifs at hcall with hnow
      refine hvalue answers since entry.2 ?_
      simp only [State.resolve, State.call, hcached, if_pos hnow, hcheck]
  | none =>
    refine State.resolve_cached hcall ?_
    cases hchecked : (check answers' key now).2 with
    | none => rfl
    | some keepUntil =>
      refine absurd ?_ (hvalue answers' now keepUntil)
      simp only [State.resolve, hcall, ← hchecked]

end Alone

end Servanda.Checks
