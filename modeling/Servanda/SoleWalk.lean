import Mathlib.Data.List.Basic
import Mathlib.Data.Set.Basic

/-!
Walks in a graph that go on only where there is one way to go. Where such a walk ends and why it
ends there depends on the edges alone.
-/

namespace Servanda.SoleWalk

variable {K : Type*}

inductive Stop where
  | finish
  | fork
  | cycle
  | depth
  deriving DecidableEq

/-- The one vertex an edge leads to. -/
def Sole (edges : Set (K × K)) (k n : K) : Prop := (k, n) ∈ edges ∧ ∀ m, (k, m) ∈ edges → m = n

/-- A path of edges each of which is the only one from its vertex. -/
def Follows (edges : Set (K × K)) : K → List K → Prop
  | _, [] => True
  | k, n :: path => Sole edges k n ∧ Follows edges n path

def lastOf (k : K) (path : List K) : K := path.getLastD k

/-- Why a walk ends at a vertex, with the vertices it has visited and the steps it has left. -/
def StopsFor (edges : Set (K × K)) (visited : List K) (k : K) (left : ℕ) : Stop → Prop
  | .finish => ∀ n, (k, n) ∉ edges
  | .fork => ∃ n m, n ≠ m ∧ (k, n) ∈ edges ∧ (k, m) ∈ edges
  | .cycle => ∃ n, Sole edges k n ∧ n ∈ visited
  | .depth => ∃ n, Sole edges k n ∧ n ∉ visited ∧ left = 0

structure Walked (edges : Set (K × K)) (depth : ℕ) (k : K) (path : List K) (stop : Stop) :
    Prop where
  follows : Follows edges k path
  nodup : (k :: path).Nodup
  bounded : path.length ≤ depth
  stops : StopsFor edges (k :: path) (lastOf k path) (depth - path.length) stop

variable {edges : Set (K × K)} {depth left : ℕ} {k n m : K} {path path' visited : List K} {stop stop' : Stop}

theorem Sole.unique (h : Sole edges k n) (h' : Sole edges k m) : n = m := h'.2 n h.1

@[simp] theorem lastOf_nil : lastOf k [] = k := rfl

theorem lastOf_cons : lastOf k (n :: path) = lastOf n path := by
  cases path <;> rfl

theorem lastOf_mem : lastOf k path ∈ k :: path := by
  induction path generalizing k with
  | nil => exact List.mem_cons_self
  | cons n path ih =>
    rw [lastOf_cons]
    exact List.mem_cons_of_mem k ih

theorem follows_append {rest : List K} (h : Follows edges k (path ++ n :: rest)) :
    Sole edges (lastOf k path) n := by
  induction path generalizing k with
  | nil => exact h.1
  | cons m path ih =>
    rw [lastOf_cons]
    exact ih h.2

/-- Of two walks from a vertex one goes on where the other ends. -/
theorem prefix_total (h : Follows edges k path) (h' : Follows edges k path') :
    path <+: path' ∨ path' <+: path := by
  induction path generalizing k path' with
  | nil => exact .inl (List.nil_prefix)
  | cons n path ih =>
    cases path' with
    | nil => exact .inr (List.nil_prefix)
    | cons m path' =>
      obtain rfl := h.1.unique h'.1
      exact (ih h.2 h'.2).imp (List.prefix_cons_inj n).2 (List.prefix_cons_inj n).2

/-- A walk does not end where another goes on. -/
theorem Walked.not_prefix (h : Walked edges depth k path stop) {rest : List K}
    (h' : Walked edges depth k (path ++ n :: rest) stop') : False := by
  have hsole := follows_append h'.follows
  have hnew : n ∉ k :: path := fun hmem ↦ by
    have hnodup := h'.nodup
    rw [← List.cons_append, List.nodup_append] at hnodup
    exact hnodup.2.2 n hmem n List.mem_cons_self rfl
  have hstops := h.stops
  cases stop with
  | finish => exact hstops n hsole.1
  | fork =>
    obtain ⟨m, m', hne, hm, hm'⟩ := hstops
    exact hne ((hsole.2 m hm).trans (hsole.2 m' hm').symm)
  | cycle =>
    obtain ⟨m, hm, hmem⟩ := hstops
    exact hnew (hsole.unique hm ▸ hmem)
  | depth =>
    obtain ⟨-, -, -, hlength⟩ := hstops
    have hbounded := h'.bounded
    rw [List.length_append, List.length_cons] at hbounded
    omega

theorem StopsFor.congr {visited' : List K} (h : StopsFor edges visited k left stop)
    (hvisited : ∀ n, n ∈ visited ↔ n ∈ visited') : StopsFor edges visited' k left stop := by
  cases stop with
  | finish => exact h
  | fork => exact h
  | cycle => exact h.imp fun n hn ↦ hn.imp_right (hvisited n).1
  | depth => exact h.imp fun n hn ↦ ⟨hn.1, fun hmem ↦ hn.2.1 ((hvisited n).2 hmem), hn.2.2⟩

theorem StopsFor.eq_finish (h : StopsFor edges visited k left stop)
    (hnone : ∀ n, (k, n) ∉ edges) : stop = .finish := by
  cases stop with
  | finish => rfl
  | fork =>
    obtain ⟨n, -, -, hn, -⟩ := h
    exact absurd hn (hnone n)
  | cycle =>
    obtain ⟨n, hn, -⟩ := h
    exact absurd hn.1 (hnone n)
  | depth =>
    obtain ⟨n, hn, -⟩ := h
    exact absurd hn.1 (hnone n)

theorem StopsFor.eq_fork (h : StopsFor edges visited k left stop) (hne : n ≠ m)
    (hn : (k, n) ∈ edges) (hm : (k, m) ∈ edges) : stop = .fork := by
  cases stop with
  | finish => exact absurd hn (h n)
  | fork => rfl
  | cycle =>
    obtain ⟨l, hl, -⟩ := h
    exact absurd ((hl.2 n hn).trans (hl.2 m hm).symm) hne
  | depth =>
    obtain ⟨l, hl, -⟩ := h
    exact absurd ((hl.2 n hn).trans (hl.2 m hm).symm) hne

theorem StopsFor.eq_cycle (h : StopsFor edges visited k left stop)
    (hn : Sole edges k n) (hmem : n ∈ visited) : stop = .cycle := by
  cases stop with
  | finish => exact absurd hn.1 (h n)
  | fork =>
    obtain ⟨l, m, hne, hl, hm⟩ := h
    exact absurd ((hn.2 l hl).trans (hn.2 m hm).symm) hne
  | cycle => rfl
  | depth =>
    obtain ⟨m, hm, hnew, -⟩ := h
    exact absurd (hn.unique hm ▸ hmem) hnew

theorem StopsFor.unique (h : StopsFor edges visited k left stop)
    (h' : StopsFor edges visited k left stop') : stop = stop' := by
  cases stop with
  | finish => exact (h'.eq_finish h).symm
  | fork =>
    obtain ⟨n, m, hne, hn, hm⟩ := h
    exact (h'.eq_fork hne hn hm).symm
  | cycle =>
    obtain ⟨n, hn, hmem⟩ := h
    exact (h'.eq_cycle hn hmem).symm
  | depth =>
    cases stop' with
    | finish => exact h.eq_finish h'
    | fork =>
      obtain ⟨n, m, hne, hn, hm⟩ := h'
      exact h.eq_fork hne hn hm
    | cycle =>
      obtain ⟨n, hn, hmem⟩ := h'
      exact h.eq_cycle hn hmem
    | depth => rfl

/-- The walk from a vertex is determined by the edges. -/
theorem Walked.unique (h : Walked edges depth k path stop)
    (h' : Walked edges depth k path' stop') : path = path' ∧ stop = stop' := by
  have hpath : path = path' := by
    obtain ⟨rest, rfl⟩ | ⟨rest, rfl⟩ := prefix_total h.follows h'.follows
    · cases rest with
      | nil => rw [List.append_nil]
      | cons n rest => exact (h.not_prefix h').elim
    · cases rest with
      | nil => rw [List.append_nil]
      | cons n rest => exact (h'.not_prefix h).elim
  subst hpath
  exact ⟨rfl, h.stops.unique h'.stops⟩

end Servanda.SoleWalk
