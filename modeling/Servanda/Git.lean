import Mathlib.Data.List.Infix

/-!
A branch many clones publish to. A history is its commits from the newest back, and each commit
holds the whole tree; a push is taken when it only puts commits on top of what is published.
-/

namespace Servanda.Git

variable {F : Type*} [DecidableEq F]

structure Commit (F : Type*) where
  tree : List F
  stamp : ℕ
  deriving DecidableEq

abbrev History (F : Type*) := List (Commit F)

def tree : History F → List F
  | [] => []
  | c :: _ => c.tree

def FastForward (remote head : History F) : Prop := head ≠ [] ∧ remote <:+ head

instance decidableFastForward (remote head : History F) : Decidable (FastForward remote head) :=
  inferInstanceAs (Decidable (_ ∧ _))

/-- `add -A` and `commit`: nothing is committed when the work tree is the head's. -/
def commitAll (head : History F) (work : List F) (stamp : ℕ) : History F :=
  if work = tree head then head else ⟨work, stamp⟩ :: head

/-- At most one commit above a base, which only adds files to it. -/
def Adds (base head : History F) : Prop :=
  head = base ∨ ∃ c, head = c :: base ∧ tree base <+: c.tree

variable {base remote head : History F} {work : List F} {stamp : ℕ}

@[simp]
theorem tree_commitAll : tree (commitAll head work stamp) = work := by
  unfold commitAll
  split
  · next h => exact h.symm
  · rfl

theorem adds_commitAll (h : tree head <+: work) : Adds head (commitAll head work stamp) := by
  unfold commitAll
  split
  · exact .inl rfl
  · exact .inr ⟨_, rfl, h⟩

omit [DecidableEq F]

theorem Adds.tree_grows (h : Adds base head) : tree base <+: tree head := by
  obtain rfl | ⟨c, rfl, hc⟩ := h
  · exact List.prefix_rfl
  · exact hc

/-- A push above a base the remote has moved past is refused, unless the remote is where the base
or the head is. -/
theorem Adds.of_fastForward (h : Adds base head) (hbase : base <:+ remote)
    (hpush : FastForward remote head) : remote = base ∨ remote = head := by
  obtain rfl | ⟨c, rfl, -⟩ := h
  · exact .inl (hpush.2.eq_of_length_le hbase.length_le)
  · obtain heq | hremote := List.suffix_cons_iff.1 hpush.2
    · exact .inr heq
    · exact .inl (hremote.eq_of_length_le hbase.length_le)

/-- What a push replaces stays in the published tree. -/
theorem Adds.published_grows (h : Adds base head) (hbase : base <:+ remote)
    (hpush : FastForward remote head) : tree remote <+: tree head := by
  obtain rfl | rfl := h.of_fastForward hbase hpush
  · exact h.tree_grows
  · exact List.prefix_rfl

end Servanda.Git
