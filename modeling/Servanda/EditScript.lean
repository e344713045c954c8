import Mathlib.Data.List.Basic
import Mathlib.Tactic

/-!
Edit scripts between two sequences: the script along a longest common subsequence, and that none is
shorter; hunks of a script, and what they do to a sequence.
-/

namespace Servanda.EditScript

variable {α β : Type*}

inductive Kind where
  | context
  | deletion
  | addition
  deriving DecidableEq

structure Op (α : Type*) where
  kind : Kind
  text : α
  deriving DecidableEq

namespace Op

def isOld (op : Op α) : Bool := op.kind ≠ .addition

def isNew (op : Op α) : Bool := op.kind ≠ .deletion

/-- The lines an item takes on the old side. -/
def oldLines (op : Op α) : ℕ := if op.isOld then 1 else 0

def newLines (op : Op α) : ℕ := if op.isNew then 1 else 0

def isChange (op : Op α) : Bool := op.kind ≠ .context

def map (f : α → β) (op : Op α) : Op β := ⟨op.kind, f op.text⟩

end Op

/-- The sequence a script starts from. -/
def old (ops : List (Op α)) : List α := (ops.filter Op.isOld).map Op.text

/-- The sequence a script ends in. -/
def new (ops : List (Op α)) : List α := (ops.filter Op.isNew).map Op.text

def count (kind : Kind) (ops : List (Op α)) : ℕ := (ops.filter (·.kind = kind)).length

section Scripts

variable {ops ops' : List (Op α)} {op : Op α}

@[simp] theorem old_nil : old ([] : List (Op α)) = [] := rfl

@[simp] theorem new_nil : new ([] : List (Op α)) = [] := rfl

@[simp] theorem old_context (x : α) : old (⟨.context, x⟩ :: ops) = x :: old ops := rfl

@[simp] theorem old_deletion (x : α) : old (⟨.deletion, x⟩ :: ops) = x :: old ops := rfl

@[simp] theorem old_addition (x : α) : old (⟨.addition, x⟩ :: ops) = old ops := rfl

@[simp] theorem new_context (x : α) : new (⟨.context, x⟩ :: ops) = x :: new ops := rfl

@[simp] theorem new_deletion (x : α) : new (⟨.deletion, x⟩ :: ops) = new ops := rfl

@[simp] theorem new_addition (x : α) : new (⟨.addition, x⟩ :: ops) = x :: new ops := rfl

@[simp] theorem old_append (ops ops' : List (Op α)) : old (ops ++ ops') = old ops ++ old ops' := by
  simp [old]

@[simp] theorem new_append (ops ops' : List (Op α)) : new (ops ++ ops') = new ops ++ new ops' := by
  simp [new]

theorem old_map (f : α → β) (ops : List (Op α)) : old (ops.map (Op.map f)) = (old ops).map f := by
  induction ops with
  | nil => rfl
  | cons op ops ih =>
    obtain ⟨kind, x⟩ := op
    cases kind <;> simp [Op.map, ih]

theorem new_map (f : α → β) (ops : List (Op α)) : new (ops.map (Op.map f)) = (new ops).map f := by
  induction ops with
  | nil => rfl
  | cons op ops ih =>
    obtain ⟨kind, x⟩ := op
    cases kind <;> simp [Op.map, ih]

theorem length_old (ops : List (Op α)) :
    (old ops).length = count .context ops + count .deletion ops := by
  induction ops with
  | nil => rfl
  | cons op ops ih =>
    obtain ⟨kind, x⟩ := op
    cases kind <;> simp_all [count] <;> omega

theorem length_new (ops : List (Op α)) :
    (new ops).length = count .context ops + count .addition ops := by
  induction ops with
  | nil => rfl
  | cons op ops ih =>
    obtain ⟨kind, x⟩ := op
    cases kind <;> simp_all [count] <;> omega

theorem length_old_singleton (op : Op α) : (old [op]).length = op.oldLines := by
  obtain ⟨kind, x⟩ := op
  cases kind <;> rfl

theorem length_new_singleton (op : Op α) : (new [op]).length = op.newLines := by
  obtain ⟨kind, x⟩ := op
  cases kind <;> rfl

/-- What a script keeps. -/
def kept (ops : List (Op α)) : List α := (ops.filter (·.kind = .context)).map Op.text

theorem length_kept (ops : List (Op α)) : (kept ops).length = count .context ops :=
  List.length_map _

theorem kept_sublist (ops : List (Op α)) :
    (kept ops).Sublist (old ops) ∧ (kept ops).Sublist (new ops) := by
  constructor
  · refine (List.monotone_filter_right ops fun op hop ↦ ?_).map _
    rw [Op.isOld, of_decide_eq_true hop]
    rfl
  · refine (List.monotone_filter_right ops fun op hop ↦ ?_).map _
    rw [Op.isNew, of_decide_eq_true hop]
    rfl

end Scripts

section Alignment

variable [DecidableEq α] {a b c : List α} {x y : α}

/-- The length of a longest common subsequence. -/
def common : List α → List α → ℕ
  | [], _ => 0
  | _ :: _, [] => 0
  | x :: a, y :: b => if x = y then common a b + 1 else max (common a (y :: b)) (common (x :: a) b)
  termination_by a b => a.length + b.length

/-- The script that keeps what is equal at both fronts, and else drops an item of the first
sequence wherever that costs nothing. -/
def align : List α → List α → List (Op α)
  | [], b => b.map (⟨.addition, ·⟩)
  | x :: a, [] => (x :: a).map (⟨.deletion, ·⟩)
  | x :: a, y :: b =>
    if x = y then ⟨.context, x⟩ :: align a b
    else if common (x :: a) b ≤ common a (y :: b) then ⟨.deletion, x⟩ :: align a (y :: b)
    else ⟨.addition, y⟩ :: align (x :: a) b
  termination_by a b => a.length + b.length

theorem common_nil_right (a : List α) : common a [] = 0 := by
  cases a <;> simp [common]

omit [DecidableEq α] in
theorem map_additions (b : List α) : old (b.map (⟨.addition, ·⟩)) = [] ∧
    new (b.map (⟨.addition, ·⟩)) = b ∧ count .context (b.map (⟨.addition, ·⟩)) = 0 := by
  induction b with
  | nil => exact ⟨rfl, rfl, rfl⟩
  | cons y b ih => exact ⟨ih.1, congrArg (y :: ·) ih.2.1, ih.2.2⟩

omit [DecidableEq α] in
theorem map_deletions (a : List α) : old (a.map (⟨.deletion, ·⟩)) = a ∧
    new (a.map (⟨.deletion, ·⟩)) = [] ∧ count .context (a.map (⟨.deletion, ·⟩)) = 0 := by
  induction a with
  | nil => exact ⟨rfl, rfl, rfl⟩
  | cons x a ih => exact ⟨congrArg (x :: ·) ih.1, ih.2.1, ih.2.2⟩

/-- The alignment is a script from the one sequence to the other, and keeps as much as `common`
says. -/
theorem align_spec (a b : List α) : old (align a b) = a ∧ new (align a b) = b ∧
    count .context (align a b) = common a b := by
  induction a, b using align.induct with
  | case1 b =>
    rw [align, common]
    exact map_additions b
  | case2 x a =>
    rw [align, common_nil_right]
    exact map_deletions (x :: a)
  | case3 a x b ih =>
    rw [align, if_pos rfl, common, if_pos rfl]
    exact ⟨congrArg (x :: ·) ih.1, congrArg (x :: ·) ih.2.1, congrArg (· + 1) ih.2.2⟩
  | case4 x a y b hne hle ih =>
    rw [align, if_neg hne, if_pos hle, common, if_neg hne, max_eq_left hle]
    exact ⟨congrArg (x :: ·) ih.1, ih.2.1, ih.2.2⟩
  | case5 x a y b hne hle ih =>
    rw [align, if_neg hne, if_neg hle, common, if_neg hne, max_eq_right (by omega)]
    exact ⟨ih.1, congrArg (y :: ·) ih.2.1, ih.2.2⟩

/-- No common subsequence is longer. -/
theorem length_le_common (ha : c.Sublist a) (hb : c.Sublist b) : c.length ≤ common a b := by
  induction a, b using common.induct generalizing c with
  | case1 b => rw [List.sublist_nil.1 ha]; simp
  | case2 x a => rw [List.sublist_nil.1 hb]; simp
  | case3 a x b ih =>
    rw [common, if_pos rfl]
    cases c with
    | nil => simp
    | cons z c =>
      exact Nat.succ_le_succ (ih ha.tail hb.tail)
  | case4 x a y b hne ih₁ ih₂ =>
    rw [common, if_neg hne]
    cases ha with
    | cons _ ha => exact (ih₁ ha hb).trans (le_max_left _ _)
    | cons_cons _ ha =>
      cases hb with
      | cons _ hb => exact (ih₂ (ha.cons_cons x) hb).trans (le_max_right _ _)
      | cons_cons _ hb => exact absurd rfl hne

/-- No script between the two sequences makes fewer changes. -/
theorem changes_align_le {ops : List (Op α)} (ha : old ops = a) (hb : new ops = b) :
    count .addition (align a b) + count .deletion (align a b) ≤
      count .addition ops + count .deletion ops := by
  obtain ⟨hold, hnew, hcontext⟩ := align_spec a b
  have hkept : count .context ops ≤ common a b := by
    rw [← length_kept]
    exact length_le_common (ha ▸ (kept_sublist ops).1) (hb ▸ (kept_sublist ops).2)
  have ha' := length_old (align a b)
  have hb' := length_new (align a b)
  have hops := length_old ops
  have hops' := length_new ops
  rw [hold, ← ha] at ha'
  rw [hnew, ← hb] at hb'
  rw [ha, hb] at *
  omega

omit [DecidableEq α] in
theorem count_eq_zero_iff {kind : Kind} {ops : List (Op α)} :
    count kind ops = 0 ↔ ∀ op ∈ ops, op.kind ≠ kind := by
  simp [count]

/-- The alignment changes something exactly where the two differ. -/
theorem align_unchanged_iff : (∀ op ∈ align a b, op.kind = .context) ↔ a = b := by
  obtain ⟨hold, hnew, -⟩ := align_spec a b
  constructor
  · intro h
    have hsame : old (align a b) = new (align a b) := by
      rw [old, new, List.filter_eq_self.2 fun op hop ↦ by rw [Op.isOld, h op hop]; rfl,
        List.filter_eq_self.2 fun op hop ↦ by rw [Op.isNew, h op hop]; rfl]
    rwa [hold, hnew] at hsame
  · rintro rfl
    have hkeep : ∀ s : List α, old (s.map (⟨.context, ·⟩)) = s ∧ new (s.map (⟨.context, ·⟩)) = s ∧
        count .addition (s.map (⟨.context, ·⟩)) = 0 ∧
          count .deletion (s.map (⟨.context, ·⟩)) = 0 := fun s ↦ by
      induction s with
      | nil => exact ⟨rfl, rfl, rfl, rfl⟩
      | cons x s ih => exact ⟨congrArg (x :: ·) ih.1, congrArg (x :: ·) ih.2.1, ih.2.2⟩
    obtain ⟨hold, hnew, hadditions, hdeletions⟩ := hkeep a
    have hleast := changes_align_le hold hnew
    intro op hop
    have hadd := count_eq_zero_iff.1 (by omega : count .addition (align a a) = 0) op hop
    have hdel := count_eq_zero_iff.1 (by omega : count .deletion (align a a) = 0) op hop
    cases hkind : op.kind with
    | context => rfl
    | deletion => exact absurd hkind hdel
    | addition => exact absurd hkind hadd

end Alignment

end Servanda.EditScript
