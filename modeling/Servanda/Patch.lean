import Servanda.Diff
import Servanda.Parse

/-!
A reader of unified diffs. It reads back what is written, whatever the lines of the files look like.
-/

namespace Servanda.Diff

open Unicode Lines Scan EditScript

section Reader

def isDecimal (u : CodeUnit) : Bool := 0x30 ≤ u.toNat && u.toNat ≤ 0x39

def readDecimal (s : Text) : Option (ℕ × Text) :=
  let digits := s.takeWhile isDecimal
  if digits = [] then none
  else some (Nat.ofDigitChars 10 (digits.map fun u ↦ Char.ofNat u.toNat) 0, s.drop digits.length)

/-- A hunk's header: the first line and the number of lines of either side. -/
def readHeader (line : Text) : Option ((ℕ × ℕ) × ℕ × ℕ) := do
  let (oldStart, s) ← readDecimal (← dropWord (text "@@ -") line)
  let (oldCount, s) ← readDecimal (← dropWord (text ",") s)
  let (newStart, s) ← readDecimal (← dropWord (text " +") s)
  let (newCount, s) ← readDecimal (← dropWord (text ",") s)
  if s = text " @@" then some ((oldStart, oldCount), newStart, newCount) else none

def readOp : Text → Option (Op Text)
  | [] => none
  | mark :: line =>
    if mark = unit ' ' then some ⟨.context, line⟩
    else if mark = unit '-' then some ⟨.deletion, line⟩
    else if mark = unit '+' then some ⟨.addition, line⟩
    else none

/-- As many lines as a header counts. -/
def readBody : List Text → ℕ → ℕ → Option (List (Op Text) × List Text)
  | lines, 0, 0 => some ([], lines)
  | [], _, _ => none
  | line :: lines, oldCount, newCount => do
    let op ← readOp line
    if oldCount < op.oldLines ∨ newCount < op.newLines then none
    else
      let (ops, rest) ← readBody lines (oldCount - op.oldLines) (newCount - op.newLines)
      some (op :: ops, rest)

def readHunk : List Text → Option (Hunk Text × List Text)
  | [] => none
  | line :: lines => do
    let ((oldStart, oldCount), newStart, newCount) ← readHeader line
    let (body, rest) ← readBody lines oldCount newCount
    if h : (old body).length = oldCount ∧ (new body).length = newCount then
      some (⟨oldStart, oldCount, newStart, newCount, body, h.1, h.2⟩, rest)
    else none

def readFile : List Text → Option (FileDiff × List Text)
  | minus :: plus :: lines => do
    let before ← dropWord (text "--- ") minus
    let after ← dropWord (text "+++ ") plus
    let deleted := decide (after = text "/dev/null")
    let path ← if deleted then dropWord (text "a/") before else dropWord (text "b/") after
    let (hunks, rest) := many readHunk lines.length lines
    some (⟨path, decide (before = text "/dev/null"), deleted, hunks⟩, rest)
  | _ => none

/-- The files of a diff, where nothing else stands in it. -/
def readDiff (s : Text) : Option (List FileDiff) :=
  let (diffs, rest) := many readFile (lines newlineUnit s).length (lines newlineUnit s)
  if rest = [] ∧ unfinished s = [] then some diffs else none

end Reader

section Numbers

theorem digit_unit {c : Char} (h : c.isDigit = true) :
    isDecimal (unit c) = true ∧ Char.ofNat (unit c).toNat = c := by
  simp only [Char.isDigit, ge_iff_le, Bool.and_eq_true, decide_eq_true_eq] at h
  have hlow : 48 ≤ c.toNat := h.1
  have hhigh : c.toNat ≤ 57 := h.2
  have hunit : (unit c).toNat = c.toNat := by
    rw [unit, BitVec.toNat_ofNat]
    omega
  rw [isDecimal, hunit]
  exact ⟨by simp only [Bool.and_eq_true, decide_eq_true_eq]; omega, Char.ofNat_toNat c⟩

theorem decimal_eq (n : ℕ) : decimal n = (Nat.toDigits 10 n).map unit :=
  (JsonParse.units_digits (JsNumber.ofNat n)).1

theorem isDecimal_of_mem_decimal {n : ℕ} {u : CodeUnit} (h : u ∈ decimal n) : isDecimal u = true := by
  rw [decimal_eq] at h
  obtain ⟨c, hc, rfl⟩ := List.mem_map.mp h
  exact (digit_unit (Nat.isDigit_of_mem_toDigits (by decide) (by decide) hc)).1

/-- A number ends where something else stands. -/
theorem readDecimal_append (n : ℕ) {rest : Text} (hrest : rest.head?.any isDecimal = false) :
    readDecimal (decimal n ++ rest) = some (n, rest) := by
  have hdigits : (decimal n ++ rest).takeWhile isDecimal = decimal n := by
    rw [List.takeWhile_append_of_pos fun u hu ↦ isDecimal_of_mem_decimal hu]
    cases rest with
    | nil => simp
    | cons u rest =>
      have hu : isDecimal u = false := hrest
      simp [hu]
  have hchars : (decimal n).map (fun u ↦ Char.ofNat u.toNat) = Nat.toDigits 10 n := by
    rw [decimal_eq, List.map_map]
    refine (List.map_congr_left fun c hc ↦ ?_).trans (List.map_id _)
    exact (digit_unit (Nat.isDigit_of_mem_toDigits (by decide) (by decide) hc)).2
  have hnil : decimal n ≠ [] := by
    rw [decimal_eq]
    simp [Nat.toDigits_ne_nil]
  rw [readDecimal, hdigits]
  rw [if_neg hnil, hchars, Nat.ofDigitChars_ten_toDigits, List.drop_left]

end Numbers

section RoundTrip

/-- The line of an item in a hunk. -/
def opLine (op : Op Text) : Text := markOf op.kind :: op.text

theorem readOp_opLine (op : Op Text) : readOp (opLine op) = some op := by
  obtain ⟨kind, line⟩ := op
  cases kind with
  | context => rfl
  | deletion => rfl
  | addition => rfl

theorem readHeader_hunk (h : Hunk Text) :
    readHeader (text "@@ -" ++ decimal h.oldStart ++ text "," ++ decimal h.oldCount ++ text " +" ++
      decimal h.newStart ++ text "," ++ decimal h.newCount ++ text " @@") =
        some ((h.oldStart, h.oldCount), h.newStart, h.newCount) := by
  have hcomma (s : Text) : (text "," ++ s).head?.any isDecimal = false := rfl
  have hplus (s : Text) : (text " +" ++ s).head?.any isDecimal = false := rfl
  have hend : (text " @@").head?.any isDecimal = false := rfl
  simp only [readHeader, List.append_assoc, dropWord_append, readDecimal_append _ (hcomma _),
    readDecimal_append _ (hplus _), readDecimal_append _ hend, Option.bind_eq_bind, Option.bind_some,
    if_true]

/-- A body is read to its end, and no further: how many lines it has is known beforehand. -/
theorem readBody_append (ops : List (Op Text)) (rest : List Text) :
    readBody (ops.map opLine ++ rest) (old ops).length (new ops).length = some (ops, rest) := by
  induction ops with
  | nil => cases rest <;> rfl
  | cons op ops ih =>
    have hold : (old (op :: ops)).length = op.oldLines + (old ops).length := by
      rw [← List.singleton_append, old_append, List.length_append, length_old_singleton]
    have hnew : (new (op :: ops)).length = op.newLines + (new ops).length := by
      rw [← List.singleton_append, new_append, List.length_append, length_new_singleton]
    have hsome : 0 < op.oldLines + op.newLines := by
      obtain ⟨kind, line⟩ := op
      cases kind <;> simp [Op.oldLines, Op.newLines, Op.isOld, Op.isNew]
    rw [List.map_cons, List.cons_append, hold, hnew]
    rw [readBody.eq_3 _ _ _ _ fun h h' ↦ by omega, readOp_opLine, Option.bind_eq_bind,
      Option.bind_some, if_neg (by omega), Nat.add_sub_cancel_left, Nat.add_sub_cancel_left, ih]
    rfl

theorem readHunk_append (h : Hunk Text) (rest : List Text) :
    readHunk (hunkLines h ++ rest) = some (h, rest) := by
  have hbody := readBody_append h.body rest
  have hlines : h.body.map (fun op ↦ markOf op.kind :: op.text) = h.body.map opLine := rfl
  rw [h.old_length, h.new_length] at hbody
  rw [hunkLines, List.cons_append, readHunk, readHeader_hunk]
  simp only [Option.bind_eq_bind, Option.bind_some]
  rw [hlines, hbody]
  simp only [Option.bind_some]
  exact dif_pos ⟨h.old_length, h.new_length⟩

/-- The diff of a file that is there before or after, as one that shows something is. -/
def FileDiff.Shows (d : FileDiff) : Prop := ¬(d.added = true ∧ d.deleted = true)

theorem readFile_append {d : FileDiff} (hd : d.Shows) {rest : List Text}
    (hrest : readHunk rest = none) : readFile (d.lines ++ rest) = some (d, rest) := by
  obtain ⟨path, added, deleted, hunks⟩ := d
  have hhunks : many readHunk (hunks.flatMap hunkLines ++ rest).length
      (hunks.flatMap hunkLines ++ rest) = (hunks, rest) := by
    refine many_flatMap (fun _ ↦ True) (fun h _ ↦ ⟨List.cons_ne_nil _ _, fun _ ↦ trivial⟩)
      trivial hrest (fun h _ s _ ↦ readHunk_append h s) ?_
    rw [List.length_append]
    exact Nat.le_add_right _ _
  have hbefore : text "a/" ++ path ≠ text "/dev/null" := fun h ↦ by
    have hhead := congrArg List.head? h
    revert hhead
    exact (by decide : ¬(some (unit 'a') = some (unit '/')))
  have hafter : text "b/" ++ path ≠ text "/dev/null" := fun h ↦ by
    have hhead := congrArg List.head? h
    revert hhead
    exact (by decide : ¬(some (unit 'b') = some (unit '/')))
  simp only [FileDiff.lines, List.cons_append, readFile, dropWord_append, hhunks]
  cases added with
  | true =>
    cases deleted with
    | true => exact absurd ⟨rfl, rfl⟩ hd
    | false => simp [hafter, dropWord_append]
  | false =>
    cases deleted with
    | true => simp [hbefore, dropWord_append]
    | false => simp [hbefore, hafter, dropWord_append]

/-- The text of the diff of one file. -/
def FileDiff.text (d : FileDiff) : Text := [newlineUnit].intercalate d.lines ++ [newlineUnit]

theorem FileDiff.ended_text (d : FileDiff) : Ended newlineUnit d.text := .inr ⟨_, rfl⟩

/-- No line of a diff holds a line break. -/
def FileDiff.InLines (d : FileDiff) : Prop := ∀ line ∈ d.lines, newlineUnit ∉ line

theorem lines_text {d : FileDiff} (h : d.InLines) : lines newlineUnit d.text = d.lines := by
  rw [FileDiff.text, lines_snoc]
  exact List.splitOn_intercalate _ h (List.cons_ne_nil _ _)

theorem lines_flatMap_text {ds : List FileDiff} (h : ∀ d ∈ ds, d.InLines) :
    Ended newlineUnit (ds.flatMap FileDiff.text) ∧
      lines newlineUnit (ds.flatMap FileDiff.text) = ds.flatMap FileDiff.lines := by
  induction ds with
  | nil => exact ⟨.inl rfl, lines_nil⟩
  | cons d ds ih =>
    obtain ⟨hd, hds⟩ := List.forall_mem_cons.mp h
    obtain ⟨hended, hlines⟩ := ih hds
    rw [List.flatMap_cons, List.flatMap_cons, d.ended_text.lines_append, hlines, lines_text hd]
    exact ⟨d.ended_text.append hended, rfl⟩

/-- What is written is read back: no line of a file is taken for a header, nor a header for a line. -/
theorem readDiff_flatMap_text {ds : List FileDiff} (h : ∀ d ∈ ds, d.InLines ∧ d.Shows) :
    readDiff (ds.flatMap FileDiff.text) = some ds := by
  obtain ⟨hended, hlines⟩ := lines_flatMap_text fun d hd ↦ (h d hd).1
  have hstart (d : FileDiff) (s : List Text) : readHunk (d.lines ++ s) = none := by
    rw [FileDiff.lines, List.cons_append, readHunk, readHeader]
    rfl
  have hmany : many readFile (ds.flatMap FileDiff.lines).length (ds.flatMap FileDiff.lines) =
      (ds, []) := by
    have hne (d : FileDiff) : d.lines ≠ [] := List.cons_ne_nil _ _
    rw [← List.append_nil (ds.flatMap FileDiff.lines)]
    refine many_flatMap (fun s ↦ readHunk s = none) (fun d _ ↦ ⟨hne d, hstart d⟩) rfl rfl
      (fun d hd s hs ↦ readFile_append (h d hd).2 hs) ?_
    rw [List.append_nil]
  rw [readDiff, hlines, hmany]
  exact if_pos ⟨rfl, ended_iff.mp hended⟩

end RoundTrip

section Written

variable {path : Text} {before after : Option Text}

theorem newlineUnit_notMem_linesOf {file : Option Text} {line : Text} (h : line ∈ linesOf file) :
    newlineUnit ∉ line := by
  cases file with
  | none => cases h
  | some s =>
    rw [linesOf, splitLines] at h
    dsimp only at h
    split_ifs at h
    · cases h
    · exact Glob.notMem_of_mem_splitOn (List.mem_of_mem_dropLast h)
    · exact Glob.notMem_of_mem_splitOn h

theorem newlineUnit_notMem_op {op : Op Text} (h : op ∈ opsOf before after) :
    newlineUnit ∉ op.text := by
  obtain ⟨hold, hnew⟩ := opsOf_spec before after
  by_cases hkind : op.isOld = true
  · refine @newlineUnit_notMem_linesOf before _ ?_
    rw [← hold]
    exact List.mem_map_of_mem (List.mem_filter.mpr ⟨h, hkind⟩)
  · refine @newlineUnit_notMem_linesOf after _ ?_
    rw [← hnew]
    refine List.mem_map_of_mem (List.mem_filter.mpr ⟨h, ?_⟩)
    obtain ⟨kind, line⟩ := op
    cases kind with
    | addition => rfl
    | context => exact absurd rfl hkind
    | deletion => exact absurd rfl hkind

theorem newlineUnit_notMem_decimal (n : ℕ) : newlineUnit ∉ decimal n := fun h ↦ by
  cases isDecimal_of_mem_decimal h

/-- The diff of a file stands in lines, where its path does. -/
theorem inLines_fileDiff (hpath : newlineUnit ∉ path) : (fileDiff path before after).InLines := by
  intro line hline
  rw [FileDiff.lines, List.mem_cons, List.mem_cons, List.mem_flatMap] at hline
  obtain rfl | rfl | ⟨h, hh, hline⟩ := hline
  · rw [List.mem_append, not_or]
    refine ⟨by decide, ?_⟩
    split_ifs
    · decide
    · rw [List.mem_append, not_or]
      exact ⟨by decide, hpath⟩
  · rw [List.mem_append, not_or]
    refine ⟨by decide, ?_⟩
    split_ifs
    · decide
    · rw [List.mem_append, not_or]
      exact ⟨by decide, hpath⟩
  · rw [hunkLines, List.mem_cons, List.mem_map] at hline
    obtain rfl | ⟨op, hop, rfl⟩ := hline
    · simp only [List.mem_append, not_or, newlineUnit_notMem_decimal, not_false_eq_true, and_true]
      decide
    · obtain ⟨front, back, hsplit, -⟩ := exists_of_mem_hunks hh
      rw [map_fst_keepOf] at hsplit
      have hmem : op ∈ opsOf before after := by
        rw [hsplit]
        exact List.mem_append_right _ (List.mem_append_left _ hop)
      rw [List.mem_cons, not_or]
      refine ⟨?_, newlineUnit_notMem_op hmem⟩
      cases op.kind <;> decide

theorem text_unifiedDiff : (unifiedDiff path before after).text =
    if linesOf before = linesOf after then [] else (fileDiff path before after).text := by
  split_ifs with hsame
  · exact (text_eq_nil_iff path before after).mpr hsame
  · have hshown := mt (text_eq_nil_iff path before after).mp hsame
    unfold unifiedDiff at hshown ⊢
    dsimp only at hshown ⊢
    split_ifs at hshown ⊢
    · exact absurd rfl hshown
    · rfl

theorem text_eq_nil_of_counts (h : (unifiedDiff path before after).additions = 0 ∧
    (unifiedDiff path before after).deletions = 0) : (unifiedDiff path before after).text = [] := by
  obtain ⟨hadditions, hdeletions⟩ := counts_unifiedDiff path before after
  rw [hadditions, hdeletions] at h
  exact congrArg DiffResult.text (if_pos h)

/-- A diff that shows something applies exactly where the final line breaks are as it takes them. -/
theorem apply_eq_some_iff (hdiffer : linesOf before ≠ linesOf after) :
    (fileDiff path before after).apply before = some after ↔ Rendered before after := by
  by_cases hended : EndedFile before
  · rw [apply_iff_of_ended hdiffer hended, Rendered]
    exact ⟨fun h ↦ .inl ⟨hended, h⟩, fun h ↦ h.elim And.right fun h ↦ absurd hended h.1⟩
  · cases before with
    | none =>
      have hnone : EndedFile none := by
        intro s hs
        cases hs
      exact absurd hnone hended
    | some s =>
      rw [apply_iff_of_unfinished (fun h ↦ hended (endedFile_some.2 h)) hdiffer, Rendered]
      exact ⟨fun h ↦ .inr ⟨hended, h⟩, fun h ↦ h.elim (fun h ↦ absurd h.1 hended) And.right⟩

end Written

end Servanda.Diff
