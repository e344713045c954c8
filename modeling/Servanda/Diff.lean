import Servanda.Glob
import Servanda.Hunks
import Servanda.Json
import Servanda.Scan

/-!
The diff of one file that a reviewer is shown, and what it does to the file.
-/

namespace Servanda.Diff

open Unicode Lines Scan EditScript

def splitLines (s : Text) : List Text :=
  if s = [] then []
  else
    let lines := s.splitOn newlineUnit
    if lines.getLast? = some [] then lines.dropLast else lines

/-- A row of the table, from the row below it. -/
def lcsRow (x : Text) : List Text → List ℕ → List ℕ
  | [], _ => [0]
  | y :: b, next =>
    let row := lcsRow x b next.tail
    (if x = y then next.getD 1 0 + 1 else max (next.getD 0 0) (row.getD 0 0)) :: row

def lcsTable : List Text → List Text → List (List ℕ)
  | [], b => [List.replicate (b.length + 1) 0]
  | x :: a, b =>
    let table := lcsTable a b
    lcsRow x b (table.getD 0 []) :: table

def cell (table : List (List ℕ)) (i j : ℕ) : ℕ := (table.getD i []).getD j 0

/-- The walk through the table, from a cell on and with what is left of either side there. -/
def walk (table : List (List ℕ)) (i j : ℕ) : List Text → List Text → List (Op Text)
  | [], b => b.map (⟨.addition, ·⟩)
  | x :: a, [] => (x :: a).map (⟨.deletion, ·⟩)
  | x :: a, y :: b =>
    if x = y then ⟨.context, x⟩ :: walk table (i + 1) (j + 1) a b
    else if cell table i (j + 1) ≤ cell table (i + 1) j then
      ⟨.deletion, x⟩ :: walk table (i + 1) j a (y :: b)
    else ⟨.addition, y⟩ :: walk table i (j + 1) (x :: a) b
  termination_by a b => a.length + b.length

def lcs (a b : List Text) : List (Op Text) := walk (lcsTable a b) 0 0 a b

def contextLines : ℕ := 3

/-- Whether an item stands within `contextLines` of a change. -/
def nearChange (ops : List (Op Text)) (k : ℕ) : Bool :=
  ops.zipIdx.any fun (op, index) ↦
    op.isChange && index ≤ k + contextLines && k ≤ index + contextLines

def keepOf (ops : List (Op Text)) : List (Op Text × Bool) :=
  ops.zipIdx.map fun (op, k) ↦ (op, nearChange ops k)

def linesOf : Option Text → List Text
  | none => []
  | some s => splitLines s

def opsOf (before after : Option Text) : List (Op Text) := lcs (linesOf before) (linesOf after)

/-- The diff of a file: its path, whether it is added or deleted, and its hunks. -/
structure FileDiff where
  path : Text
  added : Bool
  deleted : Bool
  hunks : List (Hunk Text)

def fileDiff (path : Text) (before after : Option Text) : FileDiff where
  path
  added := before.isNone
  deleted := after.isNone
  hunks := hunks 1 1 (keepOf (opsOf before after))

def decimal (n : ℕ) : Text := units (Nat.toDigits 10 n)

def markOf : Kind → CodeUnit
  | .context => unit ' '
  | .deletion => unit '-'
  | .addition => unit '+'

def hunkLines (h : Hunk Text) : List Text :=
  (text "@@ -" ++ decimal h.oldStart ++ text "," ++ decimal h.oldCount ++ text " +" ++
    decimal h.newStart ++ text "," ++ decimal h.newCount ++ text " @@") ::
      h.body.map fun op ↦ markOf op.kind :: op.text

def FileDiff.lines (d : FileDiff) : List Text :=
  (text "--- " ++ if d.added then text "/dev/null" else text "a/" ++ d.path) ::
    (text "+++ " ++ if d.deleted then text "/dev/null" else text "b/" ++ d.path) ::
      d.hunks.flatMap hunkLines

structure DiffResult where
  text : Text
  additions : ℕ
  deletions : ℕ

def unifiedDiff (path : Text) (before after : Option Text) : DiffResult :=
  let additions := count .addition (opsOf before after)
  let deletions := count .deletion (opsOf before after)
  if additions = 0 ∧ deletions = 0 then ⟨[], 0, 0⟩
  else ⟨[newlineUnit].intercalate (fileDiff path before after).lines ++ [newlineUnit], additions,
    deletions⟩

/-- What follows the last line break of a text. -/
def unfinished (s : Text) : Text :=
  (s.splitOn newlineUnit).getLast (List.splitOn_ne_nil newlineUnit s)

def endLine (line : Text) : Text := line ++ [newlineUnit]

/-- The lines of a text as they stand in it, the last perhaps without its line break. -/
def rawLines (s : Text) : List Text :=
  (lines newlineUnit s).map endLine ++ [unfinished s].filter (· ≠ [])

def rawLinesOf : Option Text → List Text
  | none => []
  | some s => rawLines s

/-- A diff applied to a file. Every line it shows ends in a line break. -/
def FileDiff.apply (d : FileDiff) (file : Option Text) : Option (Option Text) :=
  if d.hunks = [] then some file
  else if d.added ≠ file.isNone then none
  else
    match applyHunks 1 (d.hunks.map (Hunk.map endLine)) (rawLinesOf file) with
    | none => none
    | some out =>
      if d.deleted then if out = [] then some none else none else some (some out.flatten)

section Table

variable {a b : List Text} {x : Text}

theorem getD_tail (next : List ℕ) (j : ℕ) : next.tail.getD j 0 = next.getD (j + 1) 0 := by
  cases next with
  | nil => rfl
  | cons n next => rfl

theorem lcsRow_spec {next : List ℕ} (hnext : ∀ j, next.getD j 0 = common a (b.drop j)) (j : ℕ) :
    (lcsRow x b next).getD j 0 = common (x :: a) (b.drop j) := by
  induction b generalizing next j with
  | nil =>
    rw [List.drop_nil, common_nil_right, lcsRow]
    cases j with
    | zero => rfl
    | succ j => rfl
  | cons y b ih =>
    have hrow := ih fun j ↦ (getD_tail next j).trans (hnext (j + 1))
    rw [lcsRow]
    cases j with
    | zero =>
      rw [List.getD_cons_zero, List.drop_zero, common, hrow 0, hnext 0, hnext 1]
      rfl
    | succ j => exact hrow j

/-- A cell of the table is the longest that what is left has in common. -/
theorem cell_lcsTable (a b : List Text) (i j : ℕ) :
    cell (lcsTable a b) i j = common (a.drop i) (b.drop j) := by
  induction a generalizing i j with
  | nil =>
    rw [List.drop_nil, common]
    cases i with
    | zero =>
      rw [lcsTable, cell, List.getD_cons_zero, List.getD_eq_getElem?_getD, List.getElem?_replicate]
      split_ifs <;> rfl
    | succ i => rfl
  | cons x a ih =>
    cases i with
    | zero => exact lcsRow_spec (ih 0) j
    | succ i => exact ih i j

theorem drop_succ_of_cons {i : ℕ} {s : List Text} (h : a.drop i = x :: s) : a.drop (i + 1) = s := by
  rw [← List.tail_drop, h, List.tail_cons]

/-- The walk reads the alignment off the table. -/
theorem walk_eq_align {i j : ℕ} {s t : List Text} (hs : a.drop i = s) (ht : b.drop j = t) :
    walk (lcsTable a b) i j s t = align s t := by
  induction i, j, s, t using walk.induct (lcsTable a b) with
  | case1 i j t => rw [walk, align]
  | case2 i j x s => rw [walk, align]
  | case3 i j s x t ih =>
    rw [walk, if_pos rfl, align, if_pos rfl, ih (drop_succ_of_cons hs) (drop_succ_of_cons ht)]
  | case4 i j x s y t hne hle ih =>
    rw [walk, if_neg hne, if_pos hle, align, if_neg hne, ih (drop_succ_of_cons hs) ht, if_pos]
    rwa [cell_lcsTable, cell_lcsTable, hs, ht, drop_succ_of_cons hs, drop_succ_of_cons ht] at hle
  | case5 i j x s y t hne hle ih =>
    rw [walk, if_neg hne, if_neg hle, align, if_neg hne, ih hs (drop_succ_of_cons ht), if_neg]
    rwa [cell_lcsTable, cell_lcsTable, hs, ht, drop_succ_of_cons hs, drop_succ_of_cons ht] at hle

theorem lcs_eq_align (a b : List Text) : lcs a b = align a b := walk_eq_align rfl rfl

end Table

section Raw

variable {s : Text}

theorem splitOn_newline (s : Text) :
    s.splitOn newlineUnit = lines newlineUnit s ++ [unfinished s] :=
  (List.dropLast_append_getLast _).symm

theorem splitLines_eq (s : Text) :
    splitLines s = lines newlineUnit s ++ [unfinished s].filter (· ≠ []) := by
  unfold splitLines
  dsimp only
  rw [splitOn_newline, List.getLast?_concat, List.dropLast_concat]
  split_ifs with hnil hlast
  · subst hnil
    rfl
  · rw [Option.some.inj hlast]
    simp
  · rw [List.filter_cons_of_pos (by simpa using hlast)]
    rfl

theorem intercalate_concat (parts : List Text) (last : Text) :
    [newlineUnit].intercalate (parts ++ [last]) = (parts.map endLine).flatten ++ last := by
  induction parts with
  | nil => simp [List.intercalate]
  | cons part parts ih =>
    obtain ⟨next, rest, hrest⟩ : ∃ next rest, parts ++ [last] = next :: rest := by
      cases parts with
      | nil => exact ⟨last, [], rfl⟩
      | cons next parts => exact ⟨next, parts ++ [last], rfl⟩
    have hstep : [newlineUnit].intercalate (part :: next :: rest) =
        endLine part ++ [newlineUnit].intercalate (next :: rest) := by
      simp [List.intercalate, endLine]
    rw [List.cons_append, hrest, hstep, ← hrest, ih, List.map_cons, List.flatten_cons,
      List.append_assoc]

/-- A text is its lines. -/
theorem flatten_lines_append (s : Text) :
    ((lines newlineUnit s).map endLine).flatten ++ unfinished s = s := by
  rw [← intercalate_concat, ← splitOn_newline, List.intercalate_splitOn]

theorem ended_of_flatten {parts : List Text} (h : (parts.map endLine).flatten = s) :
    Ended newlineUnit s := by
  obtain rfl | ⟨front, last, rfl⟩ := List.eq_nil_or_concat' parts
  · exact .inl h.symm
  · refine .inr ⟨(front.map endLine).flatten ++ last, ?_⟩
    rw [← h, List.map_append, List.flatten_append]
    simp [endLine]

theorem ended_iff : Ended newlineUnit s ↔ unfinished s = [] := by
  constructor
  · intro h
    have hsplit := h.splitOn
    rw [splitOn_newline] at hsplit
    simpa using List.append_cancel_left hsplit
  · intro h
    have hs := flatten_lines_append s
    rw [h, List.append_nil] at hs
    exact ended_of_flatten hs

theorem splitLines_of_ended (h : Ended newlineUnit s) : splitLines s = lines newlineUnit s := by
  rw [splitLines_eq, ended_iff.1 h]
  simp

theorem splitLines_of_not_ended (h : ¬Ended newlineUnit s) :
    splitLines s = lines newlineUnit s ++ [unfinished s] := by
  rw [splitLines_eq, List.filter_cons_of_pos (by simpa [ended_iff] using h)]
  rfl

theorem flatten_of_ended (h : Ended newlineUnit s) :
    ((splitLines s).map endLine).flatten = s := by
  have hs := flatten_lines_append s
  rwa [ended_iff.1 h, List.append_nil, ← splitLines_of_ended h] at hs

theorem rawLines_of_ended (h : Ended newlineUnit s) :
    rawLines s = (splitLines s).map endLine := by
  rw [rawLines, splitLines_of_ended h, ended_iff.1 h]
  simp

theorem rawLines_of_not_ended (h : ¬Ended newlineUnit s) :
    rawLines s = (lines newlineUnit s).map endLine ++ [unfinished s] := by
  rw [rawLines, List.filter_cons_of_pos (by simpa [ended_iff] using h)]
  rfl

end Raw

section Keeping

variable {ops : List (Op Text)} {op : Op Text} {k : ℕ}

theorem nearChange_iff : nearChange ops k = true ↔ ∃ index op, ops[index]? = some op ∧
    op.isChange = true ∧ index ≤ k + contextLines ∧ k ≤ index + contextLines := by
  simp only [nearChange, List.any_eq_true, Bool.and_eq_true, decide_eq_true_eq, and_assoc]
  constructor
  · rintro ⟨⟨op, index⟩, hmem, h⟩
    exact ⟨index, op, List.mem_zipIdx_iff_getElem?.1 hmem, h⟩
  · rintro ⟨index, op, hmem, h⟩
    exact ⟨(op, index), List.mem_zipIdx_iff_getElem?.2 hmem, h⟩

@[simp] theorem map_fst_keepOf (ops : List (Op Text)) : (keepOf ops).map Prod.fst = ops := by
  rw [keepOf, List.map_map]
  exact List.zipIdx_map_fst 0 ops

theorem isChange_eq_false_iff : op.isChange = false ↔ op.kind = .context := by
  simp [Op.isChange]

theorem kind_of_not_kept {m : Op Text × Bool} (hm : m ∈ keepOf ops) (h : m.2 = false) :
    m.1.kind = .context := by
  obtain ⟨⟨op, k⟩, hmem, rfl⟩ := List.mem_map.1 hm
  by_contra hchange
  have hnear : nearChange ops k = true :=
    nearChange_iff.2 ⟨k, op, List.mem_zipIdx_iff_getElem?.1 hmem, by
      simpa [Op.isChange] using hchange, by omega, by omega⟩
  dsimp only at h
  rw [hnear] at h
  cases h

theorem keepOf_append (front : List (Op Text)) (op : Op Text) (back : List (Op Text)) :
    ∃ front' back', keepOf (front ++ op :: back) =
      front' ++ (op, nearChange (front ++ op :: back) front.length) :: back' ∧
        front'.map Prod.fst = front ∧ back'.map Prod.fst = back := by
  refine ⟨front.zipIdx.map fun (o, k) ↦ (o, nearChange (front ++ op :: back) k),
    (back.zipIdx (front.length + 1)).map fun (o, k) ↦ (o, nearChange (front ++ op :: back) k),
    ?_, ?_, ?_⟩
  · rw [keepOf, List.zipIdx_append, List.map_append, List.zipIdx_cons, List.map_cons,
      Nat.zero_add]
  · rw [List.map_map]
    exact List.zipIdx_map_fst 0 front
  · rw [List.map_map]
    exact List.zipIdx_map_fst (front.length + 1) back

/-- The last lines are left out of every hunk. -/
def Elided (ops : List (Op Text)) : Prop :=
  ∀ op ∈ ops.drop (ops.length - (contextLines + 1)), op.kind = .context

theorem nearChange_last_iff (front : List (Op Text)) (op : Op Text) :
    nearChange (front ++ [op]) front.length = false ↔ Elided (front ++ [op]) := by
  rw [← Bool.not_eq_true, nearChange_iff]
  constructor
  · intro h o ho
    by_contra hchange
    obtain ⟨i, hi⟩ := List.mem_iff_getElem?.1 ho
    rw [List.getElem?_drop] at hi
    obtain ⟨hlt, -⟩ := List.getElem?_eq_some_iff.1 hi
    simp only [List.length_append, List.length_singleton] at hi hlt
    exact h ⟨_, o, hi, by simpa [Op.isChange] using hchange, by omega, by omega⟩
  · rintro h ⟨index, o, ho, hchange, -, hnear⟩
    have hmem : o ∈ (front ++ [op]).drop ((front ++ [op]).length - (contextLines + 1)) := by
      refine List.mem_iff_getElem?.2 ⟨index - ((front ++ [op]).length - (contextLines + 1)), ?_⟩
      rw [List.getElem?_drop, ← ho]
      congr 1
      simp only [List.length_append, List.length_singleton]
      omega
    rw [Op.isChange, h o hmem] at hchange
    cases hchange

/-- The last line of a script that takes something from the old side. -/
theorem exists_last_old {front : List Text} {last : Text} (h : old ops = front ++ [last]) :
    ∃ before x after, ops = before ++ x :: after ∧ x.isOld = true ∧ x.text = last ∧
      ∀ op ∈ after, op.kind = .addition := by
  induction ops using List.reverseRecOn with
  | nil => simp at h
  | append_singleton ops x ih =>
    obtain ⟨kind, y⟩ := x
    cases kind with
    | addition =>
      rw [old_append, old_addition, old_nil, List.append_nil] at h
      obtain ⟨before, x, after, rfl, hx, hlast, hafter⟩ := ih h
      refine ⟨before, x, after ++ [⟨.addition, y⟩], by simp, hx, hlast, ?_⟩
      exact List.forall_mem_append.2 ⟨hafter, List.forall_mem_singleton.2 rfl⟩
    | context =>
      rw [old_append, old_context, old_nil] at h
      exact ⟨ops, _, [], rfl, rfl, (List.append_inj' h rfl).2 |> List.singleton_inj.1,
        List.forall_mem_nil _⟩
    | deletion =>
      rw [old_append, old_deletion, old_nil] at h
      exact ⟨ops, _, [], rfl, rfl, (List.append_inj' h rfl).2 |> List.singleton_inj.1,
        List.forall_mem_nil _⟩

end Keeping

section Applied

variable {path : Text} {before after : Option Text}

theorem opsOf_spec (before after : Option Text) :
    old (opsOf before after) = linesOf before ∧ new (opsOf before after) = linesOf after := by
  rw [opsOf, lcs_eq_align]
  obtain ⟨hold, hnew, -⟩ := align_spec (linesOf before) (linesOf after)
  exact ⟨hold, hnew⟩

/-- Nothing is shown exactly where the lines are the same. -/
theorem hunks_eq_nil (path : Text) (before after : Option Text) :
    (fileDiff path before after).hunks = [] ↔ linesOf before = linesOf after := by
  rw [fileDiff, hunks_eq_nil_iff, ← align_unchanged_iff, ← lcs_eq_align]
  constructor
  · intro h op hop
    rw [← opsOf, ← map_fst_keepOf (opsOf before after)] at hop
    obtain ⟨m, hm, rfl⟩ := List.mem_map.1 hop
    exact kind_of_not_kept hm (h m hm)
  · intro h m hm
    obtain ⟨⟨op, k⟩, -, rfl⟩ := List.mem_map.1 hm
    rw [← Bool.not_eq_true, nearChange_iff]
    rintro ⟨index, o, ho, hchange, -⟩
    rw [Op.isChange, h o (List.mem_of_getElem? ho)] at hchange
    cases hchange

/-- Every line of a file ends in a line break. -/
def EndedFile (file : Option Text) : Prop := ∀ s ∈ file, Ended newlineUnit s

theorem rawLinesOf_of_ended {file : Option Text} (h : EndedFile file) :
    rawLinesOf file = (linesOf file).map endLine := by
  cases file with
  | none => rfl
  | some s => exact rawLines_of_ended (h s rfl)

/-- The hunks of a diff on the lines of the file as they stand. -/
def applied (before after : Option Text) : Option (List Text) :=
  applyHunks 1 ((hunks 1 1 (keepOf (opsOf before after))).map (Hunk.map endLine))
    (rawLinesOf before)

theorem map_fst_endLine (marked : List (Op Text × Bool)) :
    (marked.map (Prod.map (Op.map endLine) id)).map Prod.fst =
      (marked.map Prod.fst).map (Op.map endLine) := by
  rw [List.map_map, List.map_map]
  rfl

theorem applied_eq_some_iff {out : List Text} : applied before after = some out ↔
    ∃ ops, Agrees ((keepOf (opsOf before after)).map (Prod.map (Op.map endLine) id)) ops ∧
      old ops = rawLinesOf before ∧ new ops = out := by
  rw [applied, map_hunks]
  refine applyHunks_iff ?_ ?_
  · intro m hm hnot
    obtain ⟨item, hitem, rfl⟩ := List.mem_map.1 hm
    exact (kind_of_not_kept hitem hnot : item.1.kind = .context)
  · rw [map_fst_endLine, map_fst_keepOf, old_map, List.length_map, (opsOf_spec before after).1]
    cases before with
    | none => rfl
    | some s =>
      rw [rawLinesOf, linesOf, rawLines, splitLines_eq]
      simp

/-- A file with all its line breaks is read as the diff shows it. -/
theorem applied_of_ended (h : EndedFile before) :
    applied before after = some ((linesOf after).map endLine) := by
  rw [applied_eq_some_iff]
  refine ⟨_, agrees_self _, ?_, ?_⟩
  · rw [map_fst_endLine, map_fst_keepOf, old_map, (opsOf_spec before after).1,
      rawLinesOf_of_ended h]
  · rw [map_fst_endLine, map_fst_keepOf, new_map, (opsOf_spec before after).2]

section Unfinished

variable {s : Text} (hs : ¬Ended newlineUnit s)
include hs

/-- A last line without its line break is not the line the diff shows. -/
theorem applied_eq_none (hshown : ¬Elided (opsOf (some s) after)) :
    applied (some s) after = none := by
  by_contra hsome
  obtain ⟨out, hout⟩ := Option.ne_none_iff_exists'.1 hsome
  obtain ⟨ops, hagrees, hold, -⟩ := applied_eq_some_iff.1 hout
  obtain ⟨front, x, back, hsplit, hx, hlast, hback⟩ :=
    exists_last_old ((opsOf_spec (some s) after).1.trans (splitLines_of_not_ended hs))
  have hnear : nearChange (front ++ x :: back) front.length = true := by
    cases back with
    | nil =>
      by_contra hfar
      rw [hsplit, ← nearChange_last_iff] at hshown
      exact hshown (Bool.not_eq_true _ ▸ hfar)
    | cons y back =>
      refine nearChange_iff.2 ⟨front.length + 1, y, by simp, ?_, ?_, ?_⟩
      · rw [Op.isChange, hback y List.mem_cons_self]
        rfl
      · exact Nat.add_le_add_left (by decide) _
      · omega
  obtain ⟨front', back', hkeep, -, hback'⟩ := keepOf_append front x back
  rw [hnear] at hkeep
  rw [hsplit, hkeep, List.map_append, List.map_cons] at hagrees
  obtain ⟨ops₁, ops₂, rfl, -, hagrees⟩ := agrees_append hagrees
  obtain ⟨op, ops₃, ⟨-, hop⟩, hrest, rfl⟩ := List.forall₂_cons_left_iff.1 hagrees
  have hnone : old ops₃ = [] := old_eq_nil_of_agrees hrest fun m hm ↦ by
    obtain ⟨item, hitem, rfl⟩ := List.mem_map.1 hm
    exact hback item.1 (hback' ▸ List.mem_map_of_mem hitem)
  have hline : old (op :: ops₃) = [endLine (unfinished s)] := by
    have hcons : op :: ops₃ = [x.map endLine] ++ ops₃ := by rw [hop rfl]; rfl
    have hx' : (x.map endLine).isOld = true := hx
    rw [hcons, old_append, hnone, List.append_nil, old, List.filter_cons_of_pos hx']
    exact congrArg (fun line ↦ [endLine line]) hlast
  rw [old_append, hline, rawLinesOf, rawLines_of_not_ended hs] at hold
  have heq := List.singleton_inj.1 (List.append_inj' hold rfl).2
  have hlength := congrArg List.length heq
  rw [endLine, List.length_append, List.length_singleton] at hlength
  omega

/-- A last line that no hunk shows is left as it is. -/
theorem applied_of_elided (helided : Elided (opsOf (some s) after)) :
    ∃ front, linesOf after = front ++ [unfinished s] ∧
      applied (some s) after = some (front.map endLine ++ [unfinished s]) := by
  obtain ⟨hold, hnew⟩ := opsOf_spec (some s) after
  rw [linesOf, splitLines_of_not_ended hs] at hold
  obtain hnil | ⟨front, op, hsplit⟩ := List.eq_nil_or_concat' (opsOf (some s) after)
  · rw [hnil] at hold
    simp at hold
  · have hfar := (nearChange_last_iff front op).2 (hsplit ▸ helided)
    obtain ⟨front', back', hkeep, hfront', hback'⟩ := keepOf_append front op []
    obtain rfl := List.map_eq_nil_iff.1 hback'
    rw [hfar] at hkeep
    have hmem : (op, false) ∈ keepOf (front ++ [op]) := by rw [hkeep]; simp
    have hkind : op.kind = .context := kind_of_not_kept hmem rfl
    obtain ⟨kind, x⟩ := op
    obtain rfl : kind = .context := hkind
    rw [hsplit, old_append] at hold
    obtain ⟨hlines, hlast⟩ := List.append_inj' hold rfl
    obtain rfl := List.singleton_inj.1 hlast
    refine ⟨new front, ?_, ?_⟩
    · rw [← hnew, hsplit, new_append]
      rfl
    · rw [applied_eq_some_iff, hsplit, hkeep, List.map_append]
      refine ⟨front.map (Op.map endLine) ++ [⟨.context, unfinished s⟩], ?_, ?_, ?_⟩
      · refine List.rel_append ?_ ?_
        · rw [← hfront', ← map_fst_endLine]
          exact agrees_self _
        · exact .cons ⟨rfl, nofun⟩ .nil
      · rw [old_append, old_map, hlines, rawLinesOf, rawLines_of_not_ended hs]
        rfl
      · rw [new_append, new_map]
        rfl

end Unfinished

/-- A diff that shows something does what the hunks do. -/
theorem apply_of_shown (hdiffer : linesOf before ≠ linesOf after) :
    (fileDiff path before after).apply before = match applied before after with
      | none => none
      | some out => if after.isNone then if out = [] then some none else none
          else some (some out.flatten) := by
  rw [FileDiff.apply, if_neg fun hnil ↦ hdiffer ((hunks_eq_nil path before after).1 hnil)]
  exact if_neg fun h ↦ h rfl

/-- The final line breaks of a file are where the diff takes them to be. -/
def Rendered (before after : Option Text) : Prop :=
  EndedFile before ∧ EndedFile after ∨
    ¬EndedFile before ∧ ¬EndedFile after ∧ Elided (opsOf before after)

theorem endedFile_some {s : Text} : EndedFile (some s) ↔ Ended newlineUnit s := by
  simp [EndedFile]

theorem apply_iff_of_ended (hdiffer : linesOf before ≠ linesOf after) (h : EndedFile before) :
    (fileDiff path before after).apply before = some after ↔ EndedFile after := by
  rw [apply_of_shown hdiffer, applied_of_ended h]
  cases after with
  | none => exact iff_of_true rfl nofun
  | some s =>
    rw [endedFile_some]
    simp only [Option.isNone_some, Bool.false_eq_true, if_false, Option.some.injEq]
    exact ⟨ended_of_flatten, flatten_of_ended⟩

theorem apply_iff_of_unfinished {s : Text} (hs : ¬Ended newlineUnit s)
    (hdiffer : linesOf (some s) ≠ linesOf after) :
    (fileDiff path (some s) after).apply (some s) = some after ↔
      ¬EndedFile after ∧ Elided (opsOf (some s) after) := by
  rw [apply_of_shown hdiffer]
  by_cases helided : Elided (opsOf (some s) after)
  · obtain ⟨front, hafter, happlied⟩ := applied_of_elided hs helided
    rw [happlied]
    cases after with
    | none => simp [linesOf] at hafter
    | some t =>
      have hjoin : (front.map endLine ++ [unfinished s]).flatten =
          (front.map endLine).flatten ++ unfinished s := by simp
      rw [linesOf] at hafter
      simp only [endedFile_some, Option.isNone_some, Bool.false_eq_true, if_false,
        Option.some.injEq, hjoin]
      constructor
      · refine fun h ↦ ⟨fun ht ↦ ?_, helided⟩
        have hlines := flatten_of_ended ht
        rw [hafter, ← h, List.map_append, List.flatten_append] at hlines
        have hlast := congrArg List.length (List.append_cancel_left hlines)
        simp [endLine] at hlast
      · rintro ⟨ht, -⟩
        obtain ⟨rfl, hlast⟩ := List.append_inj' ((splitLines_of_not_ended ht).symm.trans hafter) rfl
        rw [← List.singleton_inj.1 hlast, flatten_lines_append]
  · rw [applied_eq_none hs helided]
    exact iff_of_false nofun fun h ↦ helided h.2

end Applied

/-- The diff is the change: it turns the one file into the other, it shows something where they
differ, its hunks cover the lines they name, and no fewer changes would do. -/
structure Faithful (path : Text) (before after : Option Text) : Prop where
  applies : (fileDiff path before after).apply before = some after
  shown : (unifiedDiff path before after).text = [] → before = after
  covers : ∀ h ∈ (fileDiff path before after).hunks,
    ((linesOf before).drop (h.oldStart - 1)).take h.oldCount = old h.body ∧
      ((linesOf after).drop (h.newStart - 1)).take h.newCount = new h.body
  counts : (unifiedDiff path before after).additions + (linesOf before).length =
    (unifiedDiff path before after).deletions + (linesOf after).length
  least : ∀ ops, old ops = linesOf before → new ops = linesOf after →
    (unifiedDiff path before after).additions + (unifiedDiff path before after).deletions ≤
      count .addition ops + count .deletion ops

section Shown

variable (path : Text) (before after : Option Text)

theorem counts_unifiedDiff :
    (unifiedDiff path before after).additions = count .addition (opsOf before after) ∧
      (unifiedDiff path before after).deletions = count .deletion (opsOf before after) := by
  unfold unifiedDiff
  dsimp only
  split_ifs with h
  · exact ⟨h.1.symm, h.2.symm⟩
  · exact ⟨rfl, rfl⟩

theorem text_eq_nil_iff :
    (unifiedDiff path before after).text = [] ↔ linesOf before = linesOf after := by
  rw [← align_unchanged_iff (a := linesOf before), ← lcs_eq_align, ← opsOf]
  have hkinds : (count .addition (opsOf before after) = 0 ∧
      count .deletion (opsOf before after) = 0) ↔
        ∀ op ∈ opsOf before after, op.kind = .context := by
    rw [count_eq_zero_iff, count_eq_zero_iff]
    constructor
    · intro h op hop
      cases hkind : op.kind with
      | context => rfl
      | deletion => exact absurd hkind (h.2 op hop)
      | addition => exact absurd hkind (h.1 op hop)
    · exact fun h ↦ ⟨fun op hop ↦ by simp [h op hop], fun op hop ↦ by simp [h op hop]⟩
  rw [← hkinds]
  unfold unifiedDiff
  dsimp only
  split_ifs with h
  · exact iff_of_true rfl h
  · exact iff_of_false (by simp) h

theorem covers_fileDiff {h : Hunk Text} (hmem : h ∈ (fileDiff path before after).hunks) :
    ((linesOf before).drop (h.oldStart - 1)).take h.oldCount = old h.body ∧
      ((linesOf after).drop (h.newStart - 1)).take h.newCount = new h.body := by
  obtain ⟨hold, hnew⟩ := opsOf_spec before after
  have hcovers := covers_of_mem_hunks hmem
  rwa [map_fst_keepOf, hold, hnew] at hcovers

end Shown

end Servanda.Diff
