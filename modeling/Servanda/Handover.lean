import Servanda.Executor
import Servanda.Patch

/-!
An executor's run from end to end: what the artifact makes of the files the executor was given,
against what the executor saw when it was done.
-/

namespace Servanda.Executor

open Unicode Lines Scan Glob Servanda.Workspace Servanda.Gradient Diff Changes

section Views

/-- The map of some files. -/
def tree (files : Files) (path : Text) : Option Text := files.lookup path

theorem tree_insert (files : Files) (path contents : Text) :
    tree (files.insert path contents) = Function.update (tree files) path (some contents) := by
  funext p
  by_cases heq : p = path
  · rw [heq, Function.update_self]
    exact AList.lookup_insert files
  · rw [Function.update_of_ne heq]
    exact AList.lookup_insert_ne heq

theorem tree_erase (files : Files) (path : Text) :
    tree (files.erase path) = Function.update (tree files) path none := by
  funext p
  by_cases heq : p = path
  · rw [heq, Function.update_self]
    exact AList.lookup_erase path files
  · rw [Function.update_of_ne heq]
    exact AList.lookup_erase_ne heq

variable {capabilities : CapabilitySet} {base : Text → Option Text} {workspace : Workspace}

/-- What a workspace shows is its changes over the files it began with, and all of them are of paths
that may be written. -/
structure Workspace.Sound (capabilities : CapabilitySet) (base : Text → Option Text)
    (workspace : Workspace) : Prop where
  shown : tree workspace.files = workspace.changes.over base
  permitted : ∀ p, p ∈ workspace.changes.puts ∨ p ∈ workspace.changes.drops →
    ∃ path, assertPermitted capabilities .write path = .ok p

theorem Workspace.Sound.call (h : workspace.Sound capabilities base) {c : Call}
    {workspace' : Workspace} (hcall : workspace.call capabilities c = .ok workspace') :
    workspace'.Sound capabilities base := by
  cases c with
  | write path contents =>
    rw [Workspace.call, Workspace.write] at hcall
    cases hpath : assertPermitted capabilities .write path with
    | error e =>
      rw [hpath] at hcall
      cases hcall
    | ok normalized =>
      rw [hpath] at hcall
      obtain rfl := Except.ok.inj hcall
      refine ⟨?_, fun p hp ↦ ?_⟩
      · rw [tree_insert, h.shown, Overlay.over_put]
      · obtain hput | hdrop := hp
        · obtain rfl | hput := (AList.mem_insert _).mp hput
          · exact ⟨path, hpath⟩
          · exact h.permitted p (.inl hput)
        · exact h.permitted p (.inr (Finset.mem_of_mem_erase hdrop))
  | delete path =>
    rw [Workspace.call, Workspace.delete] at hcall
    cases hpath : assertPermitted capabilities .write path with
    | error e =>
      rw [hpath] at hcall
      cases hcall
    | ok normalized =>
      rw [hpath] at hcall
      obtain rfl := Except.ok.inj hcall
      refine ⟨?_, fun p hp ↦ ?_⟩
      · rw [tree_erase, h.shown, Overlay.over_drop]
      · obtain hput | hdrop := hp
        · exact h.permitted p (.inl (AList.mem_erase.mp hput).2)
        · obtain rfl | hdrop := Finset.mem_insert.mp hdrop
          · exact ⟨path, hpath⟩
          · exact h.permitted p (.inr hdrop)

/-- Whatever an executor calls, and whichever of its calls throw. -/
theorem Workspace.Sound.run (h : workspace.Sound capabilities base) (calls : List Call) :
    (workspace.run capabilities calls).Sound capabilities base := by
  induction calls generalizing workspace with
  | nil => exact h
  | cons c calls ih =>
    rw [Workspace.run, List.foldl_cons]
    cases hcall : workspace.call capabilities c with
    | error e => exact ih h
    | ok workspace' => exact ih (h.call hcall)

theorem foldlM_insert {entries : List (Sigma fun _ : Text ↦ Text)} (hkeys : entries.NodupKeys)
    (hread : ∀ e ∈ entries, assertPermitted capabilities .read e.1 = .ok e.1) (files : Files) :
    ∃ files' : Files, entries.foldlM (fun files entry ↦
      (assertPermitted capabilities .read entry.1).map fun path ↦ files.insert path entry.2) files =
        .ok files' ∧ ∀ p, tree files' p = (entries.dlookup p).or (tree files p) := by
  induction entries generalizing files with
  | nil => exact ⟨files, rfl, fun _ ↦ rfl⟩
  | cons e entries ih =>
    obtain ⟨path, contents⟩ := e
    obtain ⟨he, hentries⟩ := List.forall_mem_cons.mp hread
    obtain ⟨habsent, hkeys⟩ := List.nodupKeys_cons.mp hkeys
    obtain ⟨files', hfold, hlookup⟩ := ih hkeys hentries (files.insert path contents)
    refine ⟨files', ?_, fun p ↦ ?_⟩
    · rw [List.foldlM_cons, he]
      exact hfold
    · rw [hlookup, tree_insert]
      by_cases heq : p = path
      · subst heq
        rw [List.dlookup_eq_none.mpr habsent, List.dlookup_cons_eq, Function.update_self]
        rfl
      · rw [List.dlookup_cons_ne _ _ heq, Function.update_of_ne heq]

/-- A snapshot opens as a workspace that shows it. -/
theorem Workspace.sound_ofSnapshot (snapshot : Snapshot capabilities) :
    ∃ workspace, Workspace.ofSnapshot capabilities snapshot.files = .ok workspace ∧
      workspace.Sound capabilities (tree snapshot.files) := by
  obtain ⟨files, hfold, hlookup⟩ := @foldlM_insert capabilities _ snapshot.files.nodupKeys
    (fun e he ↦ snapshot.readable _ (List.mem_keys_of_mem he)) ∅
  refine ⟨⟨files, .empty⟩, ?_, ?_, fun p hp ↦ ?_⟩
  · rw [Workspace.ofSnapshot, hfold]
    rfl
  · funext p
    rw [Overlay.over_empty]
    refine (hlookup p).trans ?_
    rw [tree, AList.lookup_empty, Option.or_none]
    rfl
  · exact hp.elim (fun h ↦ absurd h (AList.notMem_empty _)) fun h ↦ absurd h (Finset.notMem_empty _)

end Views

section Applied

/-- A response carries what a workspace proposes, in whatever order. -/
structure Carries (workspace : Workspace) (writes : Files) (deletes : List Text) : Prop where
  writes : tree writes = tree workspace.changes.puts
  nodup : deletes.Nodup
  deletes : ∀ p, p ∈ deletes ↔ p ∈ workspace.changes.drops

/-- A change that a diff shows as it is: the file stays, or its lines change and its final line breaks
are where the diff takes them to be. -/
def Shown (before after : Option Text) : Prop :=
  before = after ∨ linesOf before ≠ linesOf after ∧ Rendered before after

/-- The diff of a file as a change of a tree. -/
def patchOf (d : FileDiff) : Patch Text Text := ⟨d.path, d.apply⟩

/-- What applying the text of a diff to a tree comes to, where it can be read and applied. -/
def applyDiff (diff : Text) (m : Text → Option Text) : Option (Text → Option Text) :=
  (readDiff diff).bind fun ds ↦ applyAll (ds.map patchOf) m

theorem flatMap_reduceOption {α β : Type} (f : α → List β) (l : List (Option α)) :
    l.reduceOption.flatMap f = l.flatMap fun o ↦ (o.map f).getD [] := by
  induction l with
  | nil => rfl
  | cons o l ih =>
    cases o with
    | none => rw [List.reduceOption_cons_of_none, ih, List.flatMap_cons, Option.map_none,
        Option.getD_none, List.nil_append]
    | some a => rw [List.reduceOption_cons_of_some, List.flatMap_cons, ih, List.flatMap_cons,
        Option.map_some, Option.getD_some]

section Diffs

variable (before after : Text → Option Text)

def differs (p : Text) : Bool := linesOf (before p) ≠ linesOf (after p)

def diffsOf (paths : List Text) : List FileDiff :=
  (paths.filter (differs before after)).map fun p ↦ fileDiff p (before p) (after p)

variable {before after}

theorem differs_eq_true_iff {p : Text} :
    differs before after p = true ↔ linesOf (before p) ≠ linesOf (after p) := decide_eq_true_iff

theorem flatMap_text_diffsOf (paths : List Text) :
    (diffsOf before after paths).flatMap FileDiff.text =
      paths.flatMap fun p ↦ (unifiedDiff p (before p) (after p)).text := by
  induction paths with
  | nil => rfl
  | cons p paths ih =>
    rw [List.flatMap_cons, ← ih, text_unifiedDiff, diffsOf]
    by_cases hdiffers : differs before after p = true
    · rw [if_neg (differs_eq_true_iff.mp hdiffers), List.filter_cons_of_pos hdiffers]
      rfl
    · rw [if_pos (not_not.mp (mt differs_eq_true_iff.mpr hdiffers)),
        List.filter_cons_of_neg hdiffers]
      rfl

/-- The diffs of paths that differ, written as text, make of the first tree the second exactly where
every change is shown as it is. -/
theorem applyDiff_diffsOf_iff {paths : List Text} (hnodup : paths.Nodup)
    (hline : ∀ p ∈ paths, newlineUnit ∉ p) (helsewhere : ∀ p ∉ paths, after p = before p) :
    applyDiff ((diffsOf before after paths).flatMap FileDiff.text) before = some after ↔
      ∀ p, Shown (before p) (after p) := by
  have hread : readDiff ((diffsOf before after paths).flatMap FileDiff.text) =
      some (diffsOf before after paths) := by
    refine readDiff_flatMap_text (List.forall_mem_map.mpr fun p hp ↦ ?_)
    obtain ⟨hp, hdiffers⟩ := List.mem_filter.mp hp
    refine ⟨inLines_fileDiff (hline p hp), fun hboth ↦ differs_eq_true_iff.mp hdiffers ?_⟩
    rw [Option.isNone_iff_eq_none.mp hboth.1, Option.isNone_iff_eq_none.mp hboth.2]
  have hkeys : ((diffsOf before after paths).map patchOf).map Patch.key =
      paths.filter (differs before after) := by
    rw [diffsOf, List.map_map, List.map_map]
    exact List.map_id' _
  have hmem (p : Text) : p ∈ paths.filter (differs before after) ↔ differs before after p = true := by
    rw [List.mem_filter, and_iff_right_iff_imp]
    exact fun hdiffers ↦ by_contra fun hp ↦ differs_eq_true_iff.mp hdiffers (by rw [helsewhere p hp])
  rw [applyDiff, hread, Option.bind_some, applyAll_eq_some_iff (hkeys ▸ hnodup.filter _), hkeys]
  simp only [diffsOf, List.map_map, List.forall_mem_map, hmem, Function.comp, patchOf]
  constructor
  · rintro ⟨happlies, hothers⟩ p
    by_cases hdiffers : differs before after p = true
    · have hlines := differs_eq_true_iff.mp hdiffers
      exact .inr ⟨hlines, (apply_eq_some_iff hlines).mp (happlies p hdiffers)⟩
    · exact .inl (hothers p hdiffers).symm
  · intro hshown
    refine ⟨fun p hdiffers ↦ ?_, fun p hsame ↦ ?_⟩
    · have hlines := differs_eq_true_iff.mp hdiffers
      obtain heq | ⟨-, hrendered⟩ := hshown p
      · exact absurd (congrArg linesOf heq) hlines
      · exact (apply_eq_some_iff hlines).mpr hrendered
    · obtain heq | ⟨hlines, -⟩ := hshown p
      · exact heq.symm
      · exact absurd (differs_eq_true_iff.mpr hlines) hsame

end Diffs

variable {snapshot writes : Files} {deletes : List Text} {workspace : Workspace} {cls : ExecutorClass}
  {reviewed : List (FileChangeRecord × Text)}

theorem carried_plain (hcls : cls ∈ registry) (hsound : workspace.Sound cls.capabilities (tree snapshot))
    {p : Text} (hp : p ∈ workspace.changes.puts ∨ p ∈ workspace.changes.drops) :
    newlineUnit ∉ p ∧ assertPermitted cls.capabilities .write p = .ok p := by
  obtain ⟨path, hpath⟩ := hsound.permitted p hp
  have hplain := plain_of_registry hcls hpath
  exact ⟨hplain.line, assertPermitted_eq_ok_iff.mpr
    ⟨hplain.accepted, (assertPermitted_eq_ok_iff.mp hpath).2⟩⟩

theorem mem_puts_of_mem_keys (hcarries : Carries workspace writes deletes) {p : Text} :
    p ∈ writes.keys ↔ p ∈ workspace.changes.puts := by
  have hlookup : writes.lookup p = workspace.changes.puts.lookup p := congrFun hcarries.writes p
  rw [← AList.mem_keys, ← AList.lookup_isSome, hlookup, AList.lookup_isSome]

/-- What is let through of a workspace's own proposal, as one text. -/
theorem flatMap_review (hcls : cls ∈ registry)
    (hsound : workspace.Sound cls.capabilities (tree snapshot))
    (hcarries : Carries workspace writes deletes)
    (hreview : review cls.capabilities snapshot writes deletes = .ok reviewed) :
    reviewed.flatMap Prod.snd = (writes.keys ++ deletes).flatMap fun p ↦
      (unifiedDiff p (tree snapshot p) (tree workspace.files p)).text := by
  have hwritten : ∀ e ∈ writes.entries, ∀ r, reviewWrite cls.capabilities snapshot e.1 e.2 = .ok r →
      (r.map Prod.snd).getD [] =
        (unifiedDiff e.1 (tree snapshot e.1) (tree workspace.files e.1)).text := by
    rintro ⟨p, contents⟩ he r hr
    have hput := (mem_puts_of_mem_keys hcarries).mp (List.mem_keys_of_mem he)
    have hcontents : tree workspace.changes.puts p = some contents := by
      rw [← hcarries.writes]
      exact AList.mem_lookup_iff.mpr he
    have hafter : tree workspace.files p = some contents := by
      rw [hsound.shown]
      exact Overlay.over_of_put hcontents
    rw [reviewWrite, (carried_plain hcls hsound (.inl hput)).2] at hr
    obtain rfl := Except.ok.inj hr
    rw [hafter]
    dsimp only
    split
    · next hcounts => exact (text_eq_nil_of_counts hcounts).symm
    · rfl
  have hdeleted : ∀ p ∈ deletes, ∀ r, reviewDelete cls.capabilities snapshot p = .ok r →
      (r.map Prod.snd).getD [] =
        (unifiedDiff p (tree snapshot p) (tree workspace.files p)).text := by
    intro p hp r hr
    have hdrop := (hcarries.deletes p).mp hp
    have hafter : tree workspace.files p = none := by
      rw [hsound.shown]
      exact Overlay.over_of_drop hdrop
    rw [reviewDelete, (carried_plain hcls hsound (.inr hdrop)).2] at hr
    obtain rfl := Except.ok.inj hr
    rw [hafter, tree]
    dsimp only
    cases snapshot.lookup p with
    | none => exact ((text_eq_nil_iff p none none).mpr rfl).symm
    | some before => rfl
  unfold review at hreview
  cases hw : writes.entries.mapM fun entry ↦
      reviewWrite cls.capabilities snapshot entry.1 entry.2 with
  | error e =>
    rw [hw] at hreview
    cases hreview
  | ok written =>
    cases hd : deletes.mapM fun path ↦ reviewDelete cls.capabilities snapshot path with
    | error e =>
      rw [hw, hd] at hreview
      cases hreview
    | ok deleted =>
      rw [hw, hd] at hreview
      obtain rfl : (written ++ deleted).reduceOption = reviewed := Except.ok.inj hreview
      rw [flatMap_reduceOption, List.flatMap_append, List.flatMap_append,
        flatMap_of_mapM_eq_ok hw hwritten, flatMap_of_mapM_eq_ok hd hdeleted, AList.keys, List.keys,
        List.flatMap_map]

/-- The run of an executor, end to end: whatever the executor called, the text of the artifact turns
the files it was given into those it saw at its end, exactly where every change is one that a diff
shows as it is. -/
theorem artifact_applies_iff {platform : Platform} {options : RunExecutorOptions}
    {repo : List RepoFile} {foundHead : Except Text Head} {output : Option ExecutorOutput}
    {a : DraftPrArtifact} (hcls : getExecutorClass options.executorClass = some cls)
    {snapshot : Snapshot cls.capabilities} (hsnapshot : snapshotRepo cls.capabilities repo = .ok snapshot)
    {calls : List Call} {opened : Workspace}
    (hopened : Workspace.ofSnapshot cls.capabilities snapshot.files = .ok opened)
    (hcarries : Carries (opened.run cls.capabilities calls) writes deletes)
    (hrun : runExecutor platform options repo foundHead (.ok (.done output writes deletes)) =
      .ok (.artifact a)) :
    applyDiff a.diff (tree snapshot.files) = some (tree (opened.run cls.capabilities calls).files) ↔
      ∀ p, Shown (tree snapshot.files p) (tree (opened.run cls.capabilities calls).files p) := by
  obtain ⟨cls', snapshot', output', writes', deletes', reviewed, hcls', hsnapshot', hsandbox, hreview,
    hassembled⟩ := received_of_artifact hrun
  obtain rfl : cls = cls' := Option.some.inj (hcls.symm.trans hcls')
  obtain rfl : snapshot = snapshot' := Except.ok.inj (hsnapshot.symm.trans hsnapshot')
  obtain ⟨-, rfl, rfl⟩ := SandboxResponse.done.inj (Except.ok.inj hsandbox)
  obtain ⟨hmem, -⟩ := mem_registry_of_getExecutorClass hcls
  obtain ⟨opened', hopened', hsound⟩ := Workspace.sound_ofSnapshot snapshot
  obtain rfl : opened = opened' := Except.ok.inj (hopened.symm.trans hopened')
  have hdone := hsound.run calls
  rw [hassembled.diff, flatMap_review hmem hdone hcarries hreview, ← flatMap_text_diffsOf]
  have hchanged (p : Text) (hp : p ∈ writes.keys ++ deletes) :
      p ∈ (opened.run cls.capabilities calls).changes.puts ∨
        p ∈ (opened.run cls.capabilities calls).changes.drops :=
    (List.mem_append.mp hp).imp (mem_puts_of_mem_keys hcarries).mp (hcarries.deletes p).mp
  refine applyDiff_diffsOf_iff ?_ (fun p hp ↦ (carried_plain hmem hdone (hchanged p hp)).1) ?_
  · refine List.nodup_append.mpr ⟨writes.keys_nodup, hcarries.nodup, fun p hput q hdrop heq ↦ ?_⟩
    rw [← heq] at hdrop
    exact (opened.run cls.capabilities calls).changes.apart p ((hcarries.deletes p).mp hdrop)
      ((mem_puts_of_mem_keys hcarries).mp hput)
  · intro p hp
    rw [List.mem_append, not_or] at hp
    rw [hdone.shown]
    exact Overlay.over_of_notMem (fun hput ↦ hp.1 ((mem_puts_of_mem_keys hcarries).mpr hput))
      fun hdrop ↦ hp.2 ((hcarries.deletes p).mpr hdrop)

end Applied

namespace Sample

def opened : Workspace := ⟨∅, .empty⟩

theorem run_opened : opened.run testsClass.capabilities [.write testPath testText] =
    ⟨AList.insert testPath testText ∅, Overlay.empty.put testPath testText⟩ := by
  rw [Workspace.run, List.foldl_cons, Workspace.call, Workspace.write, testPath_permitted]
  rfl

/-- A file of one line that is added is a change that the artifact carries over. -/
theorem exists_applied : ∃ a : DraftPrArtifact, applyDiff a.diff (tree ∅) =
    some (tree (opened.run testsClass.capabilities [.write testPath testText]).files) := by
  obtain ⟨a, ha⟩ := exists_artifact
  have hcarries : Carries (opened.run testsClass.capabilities [.write testPath testText]) writes [] := by
    rw [run_opened]
    exact ⟨rfl, List.nodup_nil, fun p ↦ iff_of_false List.not_mem_nil fun h ↦
      absurd (Finset.mem_of_mem_erase h) (Finset.notMem_empty _)⟩
  have hopened : Workspace.ofSnapshot testsClass.capabilities bare.files = .ok opened := rfl
  have hcls : getExecutorClass options.executorClass = some testsClass := rfl
  have hsnapshot : snapshotRepo testsClass.capabilities [] = .ok bare := rfl
  refine ⟨a, (artifact_applies_iff hcls hsnapshot hopened hcarries ha).mpr fun p ↦ ?_⟩
  rw [run_opened, tree_insert]
  by_cases heq : p = testPath
  · rw [heq, Function.update_self]
    refine .inr ⟨by decide, .inl ⟨nofun, ?_⟩⟩
    exact endedFile_some.mpr (.inr ⟨text "x", rfl⟩)
  · rw [Function.update_of_ne heq]
    exact .inl rfl

end Sample

end Servanda.Executor
