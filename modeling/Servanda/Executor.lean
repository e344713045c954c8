import Mathlib.Data.List.ReduceOption
import Servanda.Changes
import Servanda.Diff
import Servanda.Gradient
import Servanda.Instant

/-!
An executor's run: the workspace it writes to, and the host that checks again whatever comes back and
makes one artifact of it.
-/

namespace Servanda.Executor

open Unicode Lines Scan Glob Servanda.Workspace Servanda.Gradient Diff Changes

/-- Contents by path. -/
abbrev Files := AList fun _ : Text ↦ Text

section Snapshots

/-- A regular file of a repository: the names on the way to it, its size on the disk, and its text. -/
structure RepoFile where
  names : List Text
  size : ℕ
  contents : Text
  proper : names ≠ [] ∧ ∀ name ∈ names, slash ∉ name ∧ name ≠ [] ∧ name ≠ text "."

def RepoFile.path (file : RepoFile) : Text := [slash].intercalate file.names

theorem RepoFile.segmentsOf_path (file : RepoFile) : segmentsOf file.path = file.names := by
  have hsplit : file.path.splitOn slash = file.names :=
    List.splitOn_intercalate _ (fun name hname ↦ (file.proper.2 name hname).1) file.proper.1
  rw [segmentsOf, hsplit]
  exact List.filter_eq_self.mpr fun name hname ↦ decide_eq_true (file.proper.2 name hname).2

/-- The path of a file is accepted as it is, where it is accepted. -/
theorem RepoFile.normalized_eq (file : RepoFile) {normalized : Text}
    (h : normalizeWorkspacePath file.path = .ok normalized) : normalized = file.path := by
  rw [(normalizeWorkspacePath_eq_ok h).1, file.segmentsOf_path]
  rfl

variable (capabilities : CapabilitySet)

/-- The files that may be read, each under a path that is permitted as it is. -/
structure Snapshot where
  files : Files
  readable : ∀ path ∈ files, assertPermitted capabilities .read path = .ok path

def skippedNames : List Text := [text ".git", text "node_modules"]

def maxSnapshotFiles : ℕ := 2000

def maxFileBytes : ℕ := 512 * 1024

def RepoFile.wanted (file : RepoFile) : Bool :=
  file.names.all (· ∉ skippedNames) &&
    (assertPermitted capabilities .read file.path matches .ok _) && file.size ≤ maxFileBytes

variable {capabilities}

def Snapshot.add (snapshot : Snapshot capabilities) (file : RepoFile) : Snapshot capabilities :=
  match h : assertPermitted capabilities .read file.path with
  | .error _ => snapshot
  | .ok normalized =>
    { files := snapshot.files.insert normalized file.contents
      readable := fun path hpath ↦ by
        obtain rfl | hpath := (AList.mem_insert _).mp hpath
        · have heq := file.normalized_eq (assertPermitted_eq_ok_iff.mp h).1
          rw [heq] at h ⊢
          exact h
        · exact snapshot.readable path hpath }

variable (capabilities)

/-- The files that the read capability admits; an error is the text of one that is thrown. -/
def snapshotRepo (repo : List RepoFile) : Except Text (Snapshot capabilities) :=
  let taken := repo.filter (·.wanted capabilities)
  if maxSnapshotFiles < taken.length then
    .error (text "repository has more than " ++ decimal maxSnapshotFiles ++ text " readable files")
  else .ok (taken.foldl Snapshot.add ⟨∅, fun _ h ↦ absurd h (AList.notMem_empty _)⟩)

end Snapshots

section Workspaces

/-- What an executor sees, and what it has written and deleted. -/
structure Workspace where
  files : Files
  changes : Overlay Text Text

variable (capabilities : CapabilitySet)

/-- A workspace over a snapshot, every path of which has to be readable. -/
def Workspace.ofSnapshot (snapshot : Files) : Except PathError Workspace :=
  (snapshot.entries.foldlM (fun files entry ↦
    (assertPermitted capabilities .read entry.1).map fun path ↦ files.insert path entry.2) ∅).map
      fun files ↦ ⟨files, .empty⟩

def Workspace.exists (workspace : Workspace) (path : Text) : Except PathError Bool :=
  (normalizeWorkspacePath path).map fun normalized ↦ decide (normalized ∈ workspace.files)

/-- `read` throws where this is `none`. -/
def Workspace.readOrNull (workspace : Workspace) (path : Text) : Except PathError (Option Text) :=
  (assertPermitted capabilities .read path).map fun normalized ↦ workspace.files.lookup normalized

def Workspace.write (workspace : Workspace) (path contents : Text) : Except PathError Workspace :=
  (assertPermitted capabilities .write path).map fun normalized ↦
    ⟨workspace.files.insert normalized contents, workspace.changes.put normalized contents⟩

def Workspace.delete (workspace : Workspace) (path : Text) : Except PathError Workspace :=
  (assertPermitted capabilities .write path).map fun normalized ↦
    ⟨workspace.files.erase normalized, workspace.changes.drop normalized⟩

/-- The calls of an executor that can change a workspace. -/
inductive Call where
  | write (path contents : Text)
  | delete (path : Text)

def Workspace.call (workspace : Workspace) : Call → Except PathError Workspace
  | .write path contents => workspace.write capabilities path contents
  | .delete path => workspace.delete capabilities path

/-- A run of an executor: whatever it reads, these are the calls it makes, and one that throws leaves
the workspace as it was. -/
def Workspace.run (workspace : Workspace) (calls : List Call) : Workspace :=
  calls.foldl (fun w c ↦ match w.call capabilities c with
    | .error _ => w
    | .ok w' => w') workspace

end Workspaces

inductive TargetKind where
  | sourceFile | symbol | dependency
  deriving DecidableEq

def TargetKind.word : TargetKind → Text
  | sourceFile => text "source-file"
  | symbol => text "symbol"
  | dependency => text "dependency"

structure ExecutorClass where
  name : Text
  riskClass : RiskClass
  targetKind : TargetKind
  capabilities : CapabilitySet

def testsClass : ExecutorClass where
  name := text "tests"
  riskClass := .routine
  targetKind := .sourceFile
  capabilities :=
    { read := [text "src/**", text "test/**"]
      write := [text "test/**"]
      maxChangedLines := 400
      maxChangedFiles := 3
      globs := by decide
      readable := by decide
      positive := by decide }

def deadCodeClass : ExecutorClass where
  name := text "dead-code"
  riskClass := .routine
  targetKind := .symbol
  capabilities :=
    { read := [text "src/**"]
      write := [text "src/**"]
      maxChangedLines := 40
      maxChangedFiles := 2
      globs := by decide
      readable := by decide
      positive := by decide }

def depBumpClass : ExecutorClass where
  name := text "dep-bump"
  riskClass := .supplyChain
  targetKind := .dependency
  capabilities :=
    { read := [text "package.json"]
      write := [text "package.json"]
      maxChangedLines := 4
      maxChangedFiles := 1
      globs := by decide
      readable := by decide
      positive := by decide }

def registry : List ExecutorClass := [testsClass, deadCodeClass, depBumpClass]

def getExecutorClass (name : Text) : Option ExecutorClass := registry.find? fun c ↦ c.name = name

structure ExecutorOutput where
  title : Text
  body : Text
  titled : 1 ≤ title.length ∧ title.length ≤ 120
  bodied : 1 ≤ body.length ∧ body.length ≤ 8000

/-- What a sandbox says, once it has been parsed. -/
inductive SandboxResponse where
  | failed (name message : Text)
  | done (output : Option ExecutorOutput) (writes : Files) (deletes : List Text)

inductive ChangeKind where
  | added | modified | deleted
  deriving DecidableEq

structure FileChangeRecord where
  path : Text
  kind : ChangeKind
  additions : ℕ
  deletions : ℕ
  deriving DecidableEq

section Review

variable (capabilities : CapabilitySet) (snapshot : Files)

/-- A proposed write: nothing where no line changes. -/
def reviewWrite (path contents : Text) : Except PathError (Option (FileChangeRecord × Text)) :=
  (assertPermitted capabilities .write path).map fun normalized ↦
    let before := snapshot.lookup normalized
    let diff := unifiedDiff normalized before (some contents)
    if diff.additions = 0 ∧ diff.deletions = 0 then none
    else some (⟨normalized, if before.isNone then .added else .modified, diff.additions,
      diff.deletions⟩, diff.text)

/-- A proposed deletion: nothing where there is no such file. -/
def reviewDelete (path : Text) : Except PathError (Option (FileChangeRecord × Text)) :=
  (assertPermitted capabilities .write path).map fun normalized ↦
    (snapshot.lookup normalized).map fun before ↦
      let diff := unifiedDiff normalized (some before) none
      (⟨normalized, .deleted, 0, diff.deletions⟩, diff.text)

/-- The changes that are proposed, with their diffs: writes first. -/
def review (writes : Files) (deletes : List Text) :
    Except PathError (List (FileChangeRecord × Text)) := do
  let written ← writes.entries.mapM fun entry ↦ reviewWrite capabilities snapshot entry.1 entry.2
  let deleted ← deletes.mapM fun path ↦ reviewDelete capabilities snapshot path
  pure (written ++ deleted).reduceOption

end Review

/-- The engine: how it folds case, and the time value of a date text if it has one. -/
structure Platform where
  toLowerCase : Text → Text
  dateParse : Text → Option ℤ

/-- What `runExecutor` throws; the last is a schema's own error. -/
inductive RunError where
  | unknownClass (name : Text)
  | sandbox (message : Text)
  | path (e : PathError)
  | budget (what : Text) (got limit : ℕ)
  | invalidTime
  | schema
  deriving DecidableEq

def RunError.message : RunError → Option Text
  | unknownClass name => some (text "no executor class " ++ units (serializeString name) ++
      text "; the v1 registry is exactly [" ++
      (text ", ").intercalate (registry.map ExecutorClass.name) ++
      text "] and is not extensible at runtime")
  | sandbox message => some message
  | path e => some e.message
  | budget what got limit => some (text "§9.2: proposed change exceeds its " ++ what ++
      text " budget: " ++ decimal got ++ text " > " ++ decimal limit)
  | invalidTime => some (text "Invalid time value")
  | schema => none

structure RunExecutorOptions where
  executorClass : Text
  commitmentHash : Text
  targetKind : TargetKind
  persona : Text
  repoPath : Text
  baseBranch : Option Text
  trust : Option TrustRecord
  edgeVerifiable : Option Bool
  intentForReviewer : Option Text
  now : Text

/-- The commit that is checked out, and its branch. -/
structure Head where
  commit : Text
  branch : Text

structure AutonomyDecision where
  level : AutonomyLevel
  earned : AutonomyLevel
  ceiling : AutonomyLevel
  cappedBy : Option Cap
  appliesAt : Option Text

structure DraftPrArtifact where
  executorClass : Text
  riskClass : RiskClass
  commitmentHash : Checked isHex64
  actingUnder : Checked isHex64
  repoPath : Checked fun s ↦ s ≠ []
  baseCommit : Checked fun s ↦ s ≠ []
  baseBranch : Checked fun s ↦ s ≠ []
  branch : Text
  title : Text
  body : Text
  changes : List FileChangeRecord
  diff : Text
  capabilities : CapabilitySet
  autonomy : AutonomyDecision
  createdAt : Text

inductive ExecutionOutcome where
  | artifact (artifact : DraftPrArtifact)
  | nothingToDo (executorClass reason : Text)
  | refused (executorClass reason : Text)

def levelWord : AutonomyLevel → Text
  | .draftForReview => text "draft-for-review"
  | .autoApplyWithWindow => text "auto-apply-with-window"
  | .silentWithReceipt => text "silent-with-receipt"

def capWord : Cap → Text
  | .ceiling => text "ceiling"
  | .unverifiableEdge => text "unverifiable-edge"

def autoApplyWindowHours : ℤ := 24

section Run

variable (platform : Platform) (options : RunExecutorOptions)

def addHours (iso : Text) (hours : ℤ) : Except RunError Text :=
  match platform.dateParse iso with
  | none => .error .invalidTime
  | some t =>
    if h : |t + hours * 3600000| ≤ Calendar.maxTime then
      .ok (units (dropMillis (toISOString (t + hours * 3600000) h)))
    else .error .invalidTime

def bodyOf (cls : ExecutorClass) (output : ExecutorOutput) (autonomy : EffectiveAutonomy) : Text :=
  [newlineUnit].intercalate [output.body, [], text "---", [],
    match options.intentForReviewer with
      | some intent => text "Serves the commitment: “" ++ intent ++ text "”"
      | none => text "Serves commitment `" ++ options.commitmentHash ++ text "`.",
    text "Produced by executor class `" ++ cls.name ++ text "` acting under persona `" ++
      options.persona.take 12 ++ text "…`. Automation is never a party (M-13): this artifact " ++
      text "is unsigned and nothing has been applied.",
    text "Autonomy for this (human, class): **" ++ levelWord autonomy.level ++ text "**" ++
      (match autonomy.cappedBy with
        | none => []
        | some cap => text " — capped by " ++ capWord cap ++ text " from an earned " ++
          levelWord autonomy.earned) ++ text "."]

/-- The history that counts: none is the floor. -/
def trustOf (cls : ExecutorClass) : Except RunError TrustRecord :=
  match options.trust with
  | some record => .ok record
  | none =>
    if h : isHex64 options.persona = true ∧ cls.name ≠ [] then
      .ok (emptyTrustRecord ⟨options.persona, h.1⟩ ⟨cls.name, decide_eq_true h.2⟩ options.now)
    else .error .schema

def appliesAt (autonomy : EffectiveAutonomy) : Except RunError (Option Text) :=
  if autonomy.level = .autoApplyWithWindow then
    (addHours platform options.now autoApplyWindowHours).map some
  else .ok none

/-- The artifact's own schema. -/
def parseArtifact (cls : ExecutorClass) (head : Head) (output : ExecutorOutput)
    (reviewed : List (FileChangeRecord × Text)) (autonomy : EffectiveAutonomy)
    (appliesAt : Option Text) : Except RunError DraftPrArtifact :=
  let baseBranch := options.baseBranch.getD head.branch
  if h : (isHex64 options.commitmentHash = true ∧ isHex64 options.persona = true) ∧
      options.repoPath ≠ [] ∧ head.commit ≠ [] ∧ baseBranch ≠ [] then
    .ok
      { executorClass := cls.name
        riskClass := cls.riskClass
        commitmentHash := ⟨options.commitmentHash, h.1.1⟩
        actingUnder := ⟨options.persona, h.1.2⟩
        repoPath := ⟨options.repoPath, decide_eq_true h.2.1⟩
        baseCommit := ⟨head.commit, decide_eq_true h.2.2.1⟩
        baseBranch := ⟨baseBranch, decide_eq_true h.2.2.2⟩
        branch := text "servanda/" ++ cls.name ++ text "/" ++ options.commitmentHash.take 12
        title := output.title
        body := bodyOf options cls output autonomy
        changes := reviewed.map Prod.fst
        diff := reviewed.flatMap Prod.snd
        capabilities := cls.capabilities
        autonomy := ⟨autonomy.level, autonomy.earned, autonomy.ceiling, autonomy.cappedBy, appliesAt⟩
        createdAt := options.now }
  else .error .schema

/-- The changes that are counted against the budget of lines. -/
def changedLines (changes : List FileChangeRecord) : ℕ :=
  (changes.map fun c ↦ c.additions + c.deletions).sum

/-- What becomes of the changes that have been checked. -/
def assemble (cls : ExecutorClass) (head : Head) (output : ExecutorOutput)
    (reviewed : List (FileChangeRecord × Text)) : Except RunError ExecutionOutcome :=
  let changes := reviewed.map Prod.fst
  let limits := cls.capabilities
  if changes = [] then
    .ok (.nothingToDo cls.name (text "the executor returned a title but changed nothing"))
  else if limits.maxChangedFiles < changes.length then
    .error (.budget (text "changed-files") changes.length limits.maxChangedFiles)
  else if limits.maxChangedLines < changedLines changes then
    .error (.budget (text "changed-lines") (changedLines changes) limits.maxChangedLines)
  else do
    let record ← trustOf options cls
    let ceiling ← (ceilingFor platform.toLowerCase cls.riskClass (changes.map (·.path))).mapError .path
    let autonomy := effectiveAutonomy ⟨record, ceiling, options.edgeVerifiable⟩
    let applies ← appliesAt platform options autonomy
    let artifact ← parseArtifact options cls head output reviewed autonomy applies
    pure (.artifact artifact)

/-- What the host does with a response. -/
def received (cls : ExecutorClass) (snapshot : Snapshot cls.capabilities) (head : Head) :
    SandboxResponse → Except RunError ExecutionOutcome
  | .failed name message => .ok (.refused cls.name (name ++ text ": " ++ message))
  | .done none _ _ =>
    .ok (.nothingToDo cls.name (text "the executor found nothing it could safely propose"))
  | .done (some output) writes deletes =>
    match review cls.capabilities snapshot.files writes deletes with
    | .error e => .error (.path e)
    | .ok reviewed => assemble platform options cls head output reviewed

/-- A run over a repository whose head may not be found, in a sandbox that may give no response. -/
def runExecutor (repo : List RepoFile) (head : Except Text Head)
    (sandbox : Except Text SandboxResponse) : Except RunError ExecutionOutcome :=
  match getExecutorClass options.executorClass with
  | none => .error (.unknownClass options.executorClass)
  | some cls =>
    if options.targetKind ≠ cls.targetKind then
      .ok (.refused cls.name (text "class " ++ cls.name ++ text " takes a " ++ cls.targetKind.word ++
        text " target, got " ++ options.targetKind.word))
    else do
      let snapshot ← (snapshotRepo cls.capabilities repo).mapError .sandbox
      let head ← head.mapError .sandbox
      let response ← sandbox.mapError .sandbox
      received platform options cls snapshot head response

end Run

section Worlds

/-- A path that any class may write stands in one line, and is accepted again as it is. -/
structure Plain (path : Text) : Prop where
  line : newlineUnit ∉ path
  accepted : normalizeWorkspacePath path = .ok path

theorem plain_of_prefix {word rest path normalized : Text}
    (h : normalizeWorkspacePath path = .ok normalized) (hsplit : normalized = word ++ rest)
    (hword : newlineUnit ∉ word) (hdrive : ∀ tail, isDrivePath (word ++ tail) = false)
    (hrest : newlineUnit ∉ rest) : Plain normalized := by
  refine ⟨?_, normalizeWorkspacePath_normalized h (hsplit ▸ hdrive rest)⟩
  rw [hsplit, List.mem_append, not_or]
  exact ⟨hword, hrest⟩

theorem matchesGlob_below {path glob word : Text}
    (hglob : globPieces glob = word.map .literal ++ [.anything]) :
    matchesGlob path glob = true ↔ ∃ rest, path = word ++ rest ∧ ∀ u ∈ rest, endsLine u = false := by
  rw [matchesGlob, hglob, reads_word]
  simp only [reads_anything, Bool.not_eq_true']

theorem matchesGlob_word {path glob word : Text} (hglob : globPieces glob = word.map .literal) :
    matchesGlob path glob = true ↔ path = word := by
  rw [matchesGlob, hglob, reads_word_iff]

/-- What the classes may write is below `test/` or `src/`, or it is `package.json`. -/
theorem plain_of_registry {cls : ExecutorClass} (hcls : cls ∈ registry) {path normalized : Text}
    (h : assertPermitted cls.capabilities .write path = .ok normalized) : Plain normalized := by
  obtain ⟨hnormal, hany⟩ := assertPermitted_eq_ok_iff.mp h
  have hends {rest : Text} (hrest : ∀ u ∈ rest, endsLine u = false) : newlineUnit ∉ rest :=
    fun hmem ↦ absurd (hrest _ hmem) (by decide)
  simp only [registry, List.mem_cons, List.not_mem_nil, or_false] at hcls
  obtain rfl | rfl | rfl := hcls
  · have hglob : matchesGlob normalized (text "test/**") = true := by
      simpa [testsClass, CapabilitySet.allowed] using hany
    obtain ⟨rest, hsplit, hrest⟩ :=
      (matchesGlob_below (by decide +kernel : globPieces (text "test/**") =
        (text "test/").map .literal ++ [.anything])).mp hglob
    exact plain_of_prefix hnormal hsplit (by decide) (fun _ ↦ rfl) (hends hrest)
  · have hglob : matchesGlob normalized (text "src/**") = true := by
      simpa [deadCodeClass, CapabilitySet.allowed] using hany
    obtain ⟨rest, hsplit, hrest⟩ :=
      (matchesGlob_below (by decide +kernel : globPieces (text "src/**") =
        (text "src/").map .literal ++ [.anything])).mp hglob
    exact plain_of_prefix hnormal hsplit (by decide) (fun _ ↦ rfl) (hends hrest)
  · have hglob : matchesGlob normalized (text "package.json") = true := by
      simpa [depBumpClass, CapabilitySet.allowed] using hany
    have hsplit := (matchesGlob_word (by decide +kernel : globPieces (text "package.json") =
      (text "package.json").map .literal)).mp hglob
    rw [← List.append_nil (text "package.json")] at hsplit
    exact plain_of_prefix hnormal hsplit (by decide) (fun _ ↦ rfl) List.not_mem_nil

end Worlds

section Reviewed

variable {ε α β : Type} {f : α → Except ε β} {l : List α}

theorem mem_of_mapM_eq_ok {l' : List β} (h : l.mapM f = .ok l') {b : β} (hb : b ∈ l') :
    ∃ a ∈ l, f a = .ok b := by
  induction l generalizing l' with
  | nil =>
    obtain rfl : [] = l' := Except.ok.inj h
    cases hb
  | cons a l ih =>
    rw [List.mapM_cons] at h
    cases ha : f a with
    | error e =>
      rw [ha] at h
      cases h
    | ok b' =>
      rw [ha] at h
      cases hl : l.mapM f with
      | error e =>
        rw [hl] at h
        cases h
      | ok bs =>
        rw [hl] at h
        obtain rfl : b' :: bs = l' := Except.ok.inj h
        obtain rfl | hb := List.mem_cons.mp hb
        · exact ⟨a, List.mem_cons_self, ha⟩
        · obtain ⟨a', ha', hfa⟩ := ih hl hb
          exact ⟨a', List.mem_cons_of_mem _ ha', hfa⟩

/-- What items come to one after another is what each comes to for itself. -/
theorem flatMap_of_mapM_eq_ok {γ : Type} {l' : List β} (h : l.mapM f = .ok l') {t : α → List γ}
    {t' : β → List γ} (ht : ∀ a ∈ l, ∀ b, f a = .ok b → t' b = t a) : l'.flatMap t' = l.flatMap t := by
  induction l generalizing l' with
  | nil =>
    obtain rfl : [] = l' := Except.ok.inj h
    rfl
  | cons a l ih =>
    obtain ⟨hta, htl⟩ := List.forall_mem_cons.mp ht
    rw [List.mapM_cons] at h
    cases ha : f a with
    | error e =>
      rw [ha] at h
      cases h
    | ok b =>
      rw [ha] at h
      cases hl : l.mapM f with
      | error e =>
        rw [hl] at h
        cases h
      | ok bs =>
        rw [hl] at h
        obtain rfl : b :: bs = l' := Except.ok.inj h
        rw [List.flatMap_cons, List.flatMap_cons, hta b ha, ih hl htl]

end Reviewed

section Host

variable {capabilities : CapabilitySet} {snapshot writes : Files} {deletes : List Text}
  {path contents : Text} {r : FileChangeRecord × Text} {reviewed : List (FileChangeRecord × Text)}

theorem path_of_reviewWrite (h : reviewWrite capabilities snapshot path contents = .ok (some r)) :
    assertPermitted capabilities .write path = .ok r.1.path := by
  unfold reviewWrite at h
  cases hpath : assertPermitted capabilities .write path with
  | error e =>
    rw [hpath] at h
    cases h
  | ok normalized =>
    rw [hpath] at h
    have h := Except.ok.inj h
    dsimp only at h
    split at h
    · cases h
    · obtain rfl := Option.some.inj h
      rfl

theorem path_of_reviewDelete (h : reviewDelete capabilities snapshot path = .ok (some r)) :
    assertPermitted capabilities .write path = .ok r.1.path := by
  unfold reviewDelete at h
  cases hpath : assertPermitted capabilities .write path with
  | error e =>
    rw [hpath] at h
    cases h
  | ok normalized =>
    rw [hpath] at h
    obtain ⟨before, -, rfl⟩ := Option.map_eq_some_iff.mp (Except.ok.inj h)
    rfl

/-- Whatever is proposed, a change that is let through is of a path that may be written. -/
theorem path_of_review (h : review capabilities snapshot writes deletes = .ok reviewed)
    (hr : r ∈ reviewed) : ∃ path, assertPermitted capabilities .write path = .ok r.1.path := by
  unfold review at h
  cases hwritten : writes.entries.mapM fun entry ↦
      reviewWrite capabilities snapshot entry.1 entry.2 with
  | error e =>
    rw [hwritten] at h
    cases h
  | ok written =>
    cases hdeleted : deletes.mapM fun path ↦ reviewDelete capabilities snapshot path with
    | error e =>
      rw [hwritten, hdeleted] at h
      cases h
    | ok deleted =>
      rw [hwritten, hdeleted] at h
      obtain rfl : (written ++ deleted).reduceOption = reviewed := Except.ok.inj h
      obtain hmem | hmem := List.mem_append.mp (List.reduceOption_mem_iff.mp hr)
      · obtain ⟨entry, -, hentry⟩ := mem_of_mapM_eq_ok hwritten hmem
        exact ⟨_, path_of_reviewWrite hentry⟩
      · obtain ⟨path, -, hpath⟩ := mem_of_mapM_eq_ok hdeleted hmem
        exact ⟨_, path_of_reviewDelete hpath⟩

/-- A sensitive path is found wherever it stands, where no path is malformed. -/
theorem touchesSensitive_of_mem {toLowerCase : Text → Text} {paths : List Text}
    (haccepted : ∀ p ∈ paths, Accepted p) (hmem : path ∈ paths)
    (hpath : isSensitivePath toLowerCase path = .ok true) :
    touchesSensitive toLowerCase paths = .ok true := by
  induction paths with
  | nil => cases hmem
  | cons first paths ih =>
    obtain ⟨⟨normalized, hnormal⟩, hrest⟩ := List.forall_mem_cons.mp haccepted
    unfold touchesSensitive
    obtain rfl | hmem := List.mem_cons.mp hmem
    · rw [hpath]
    · have hfirst : ∃ found, isSensitivePath toLowerCase first = .ok found := by
        rw [isSensitivePath, hnormal]
        exact ⟨_, rfl⟩
      obtain ⟨found, hfound⟩ := hfirst
      rw [hfound]
      cases found with
      | true => rfl
      | false => exact ih hrest hmem

variable {platform : Platform} {options : RunExecutorOptions} {cls : ExecutorClass} {head : Head}
  {output : ExecutorOutput} {a : DraftPrArtifact}

/-- What goes into an artifact. -/
structure Assembled (platform : Platform) (options : RunExecutorOptions) (cls : ExecutorClass)
    (reviewed : List (FileChangeRecord × Text)) (a : DraftPrArtifact) : Prop where
  named : a.executorClass = cls.name ∧ a.riskClass = cls.riskClass ∧ a.capabilities = cls.capabilities
  changes : a.changes = reviewed.map Prod.fst
  diff : a.diff = reviewed.flatMap Prod.snd
  some : a.changes ≠ []
  files : a.changes.length ≤ cls.capabilities.maxChangedFiles
  lines : changedLines a.changes ≤ cls.capabilities.maxChangedLines
  autonomy : ∃ record ceiling, trustOf options cls = .ok record ∧
    ceilingFor platform.toLowerCase cls.riskClass (a.changes.map (·.path)) = .ok ceiling ∧
    a.autonomy.level = (effectiveAutonomy ⟨record, ceiling, options.edgeVerifiable⟩).level

theorem assembled_of_ok
    (h : assemble platform options cls head output reviewed = .ok (.artifact a)) :
    Assembled platform options cls reviewed a := by
  unfold assemble at h
  dsimp only at h
  split_ifs at h with hnil hfiles hlines
  · cases h
  cases hrecord : trustOf options cls with
  | error e =>
    rw [hrecord] at h
    cases h
  | ok record =>
    cases hceiling : ceilingFor platform.toLowerCase cls.riskClass
        ((reviewed.map Prod.fst).map (·.path)) with
    | error e =>
      rw [hrecord, hceiling] at h
      cases h
    | ok ceiling =>
      rw [hrecord, hceiling] at h
      cases happlies : appliesAt platform options
          (effectiveAutonomy ⟨record, ceiling, options.edgeVerifiable⟩) with
      | error e =>
        simp only [Except.mapError, bind, Except.bind, happlies] at h
        cases h
      | ok applies =>
        simp only [Except.mapError, bind, Except.bind, happlies] at h
        unfold parseArtifact at h
        dsimp only at h
        split_ifs at h
        obtain rfl := ExecutionOutcome.artifact.inj (Except.ok.inj h)
        exact ⟨⟨rfl, rfl, rfl⟩, rfl, rfl, hnil, not_lt.mp hfiles, not_lt.mp hlines, record, ceiling,
          hrecord, hceiling, rfl⟩

/-- Changes within the budgets make an artifact, where the run has what its schema asks for. -/
theorem assemble_eq_ok {record : TrustRecord} {ceiling : AutonomyLevel} {applies : Option Text}
    (hsome : reviewed.map Prod.fst ≠ [])
    (hfiles : (reviewed.map Prod.fst).length ≤ cls.capabilities.maxChangedFiles)
    (hlines : changedLines (reviewed.map Prod.fst) ≤ cls.capabilities.maxChangedLines)
    (hrecord : trustOf options cls = .ok record)
    (hceiling : ceilingFor platform.toLowerCase cls.riskClass
      ((reviewed.map Prod.fst).map (·.path)) = .ok ceiling)
    (happlies : appliesAt platform options
      (effectiveAutonomy ⟨record, ceiling, options.edgeVerifiable⟩) = .ok applies)
    (hvalid : (isHex64 options.commitmentHash = true ∧ isHex64 options.persona = true) ∧
      options.repoPath ≠ [] ∧ head.commit ≠ [] ∧ options.baseBranch.getD head.branch ≠ []) :
    ∃ a, assemble platform options cls head output reviewed = .ok (.artifact a) := by
  unfold assemble
  dsimp only
  rw [if_neg hsome, if_neg (not_lt.mpr hfiles), if_neg (not_lt.mpr hlines), hrecord, hceiling]
  simp only [Except.mapError, bind, Except.bind, happlies]
  unfold parseArtifact
  dsimp only
  rw [dif_pos hvalid]
  exact ⟨_, rfl⟩

variable {repo : List RepoFile} {foundHead : Except Text Head} {sandbox : Except Text SandboxResponse}

/-- An artifact is made of what the host let through of a response. -/
theorem received_of_artifact
    (h : runExecutor platform options repo foundHead sandbox = .ok (.artifact a)) :
    ∃ cls snapshot output writes deletes reviewed,
      getExecutorClass options.executorClass = some cls ∧
      snapshotRepo cls.capabilities repo = .ok snapshot ∧
      sandbox = .ok (.done (some output) writes deletes) ∧
      review cls.capabilities snapshot.files writes deletes = .ok reviewed ∧
      Assembled platform options cls reviewed a := by
  unfold runExecutor at h
  cases hcls : getExecutorClass options.executorClass with
  | none =>
    rw [hcls] at h
    cases h
  | some cls =>
    rw [hcls] at h
    dsimp only at h
    split_ifs at h with hkind
    · cases h
    cases hsnapshot : snapshotRepo cls.capabilities repo with
    | error e =>
      rw [hsnapshot] at h
      cases h
    | ok snapshot =>
      rw [hsnapshot] at h
      cases foundHead with
      | error e => cases h
      | ok head =>
        cases sandbox with
        | error e => cases h
        | ok response =>
          have h : received platform options cls snapshot head response = .ok (.artifact a) := h
          cases response with
          | failed name message => cases h
          | done output writes deletes =>
            cases output with
            | none => cases h
            | some output =>
              unfold received at h
              dsimp only at h
              cases hreview : review cls.capabilities snapshot.files writes deletes with
              | error e =>
                rw [hreview] at h
                cases h
              | ok reviewed =>
                rw [hreview] at h
                exact ⟨cls, snapshot, output, writes, deletes, reviewed, rfl, hsnapshot, rfl, hreview,
                  assembled_of_ok h⟩

theorem mem_registry_of_getExecutorClass {name : Text} (h : getExecutorClass name = some cls) :
    cls ∈ registry ∧ cls.name = name := by
  have hname := List.find?_some h
  exact ⟨List.mem_of_find?_eq_some h, of_decide_eq_true hname⟩

/-- What holds of an artifact whatever the sandbox said. -/
structure Confined (toLowerCase : Text → Text) (options : RunExecutorOptions) (cls : ExecutorClass)
    (a : DraftPrArtifact) : Prop where
  named : a.executorClass = cls.name ∧ a.riskClass = cls.riskClass ∧ a.capabilities = cls.capabilities
  permitted : ∀ c ∈ a.changes, assertPermitted cls.capabilities .write c.path = .ok c.path
  files : 0 < a.changes.length ∧ a.changes.length ≤ cls.capabilities.maxChangedFiles
  lines : changedLines a.changes ≤ cls.capabilities.maxChangedLines
  ceiling : levelRank a.autonomy.level ≤ levelRank (riskCeiling cls.riskClass)
  sensitive : (∃ c ∈ a.changes, isSensitivePath toLowerCase c.path = .ok true) →
    a.autonomy.level = .draftForReview
  unverifiable : options.edgeVerifiable ≠ some true → a.autonomy.level = .draftForReview
  earned : levelRank a.autonomy.level ≤ (options.trust.map fun t ↦ levelRank (levelFromHistory t)).getD 0

theorem minLevel_le_left (l l' : AutonomyLevel) : levelRank (minLevel l l') ≤ levelRank l := by
  unfold minLevel
  split_ifs with hle
  · exact le_rfl
  · exact (not_le.mp hle).le

theorem levelRank_effectiveAutonomy (input : EffectiveAutonomyInput) :
    levelRank (effectiveAutonomy input).level ≤ levelRank (levelFromHistory input.record) ∧
      (input.edgeVerifiable ≠ some true → (effectiveAutonomy input).level = .draftForReview) := by
  unfold effectiveAutonomy
  dsimp only
  split
  · exact ⟨Nat.zero_le _, fun _ ↦ rfl⟩
  · next h =>
    exact ⟨minLevel_le_left _ _, fun hne ↦ not_not.mp fun hlevel ↦ h ⟨hne, hlevel⟩⟩

theorem ceilingFor_le {toLowerCase : Text → Text} {riskClass : RiskClass} {paths : List Text}
    {ceiling : AutonomyLevel} (h : ceilingFor toLowerCase riskClass paths = .ok ceiling) :
    levelRank ceiling ≤ levelRank (riskCeiling riskClass) ∧
      (touchesSensitive toLowerCase paths = .ok true → ceiling = .draftForReview) := by
  unfold ceilingFor at h
  cases htouches : touchesSensitive toLowerCase paths with
  | error e =>
    rw [htouches] at h
    cases h
  | ok touches =>
    rw [htouches] at h
    obtain rfl := Except.ok.inj h
    cases touches with
    | false => exact ⟨le_rfl, nofun⟩
    | true => exact ⟨by cases riskClass <;> decide, fun _ ↦ by cases riskClass <;> rfl⟩

/-- The host holds every artifact inside its class's world, its budgets and its ceilings, whatever
the sandbox proposed. -/
theorem runExecutor_confined
    (h : runExecutor platform options repo foundHead sandbox = .ok (.artifact a)) :
    ∃ cls ∈ registry, cls.name = options.executorClass ∧
      Confined platform.toLowerCase options cls a := by
  obtain ⟨cls, snapshot, output, writes, deletes, reviewed, hcls, -, -, hreview, hassembled⟩ :=
    received_of_artifact h
  obtain ⟨hmem, hname⟩ := mem_registry_of_getExecutorClass hcls
  have hpermitted (c : FileChangeRecord) (hc : c ∈ a.changes) :
      assertPermitted cls.capabilities .write c.path = .ok c.path := by
    rw [hassembled.changes] at hc
    obtain ⟨r, hr, rfl⟩ := List.mem_map.mp hc
    obtain ⟨path, hpath⟩ := path_of_review hreview hr
    exact assertPermitted_eq_ok_iff.mpr
      ⟨(plain_of_registry hmem hpath).accepted, (assertPermitted_eq_ok_iff.mp hpath).2⟩
  obtain ⟨record, ceiling, hrecord, hceiling, hlevel⟩ := hassembled.autonomy
  obtain ⟨hclass, htouched⟩ := ceilingFor_le hceiling
  have hle := effectiveAutonomy_le ⟨record, ceiling, options.edgeVerifiable⟩
  obtain ⟨hearned, hunverifiable⟩ :=
    levelRank_effectiveAutonomy ⟨record, ceiling, options.edgeVerifiable⟩
  rw [← hlevel] at hle hearned hunverifiable
  refine ⟨cls, hmem, hname, hassembled.named, hpermitted,
    ⟨List.length_pos_iff.mpr hassembled.some, hassembled.files⟩, hassembled.lines, hle.trans hclass,
    ?_, hunverifiable, ?_⟩
  · rintro ⟨c, hc, hsensitive⟩
    have htouches := touchesSensitive_of_mem (List.forall_mem_map.mpr fun c' hc' ↦
      ⟨_, (assertPermitted_eq_ok_iff.mp (hpermitted c' hc')).1⟩) (List.mem_map_of_mem hc) hsensitive
    rw [htouched htouches] at hle
    exact eq_draft_of_rank hle
  · unfold trustOf at hrecord
    cases htrust : options.trust with
    | some trust =>
      rw [htrust] at hrecord
      obtain rfl := Except.ok.inj hrecord
      exact hearned
    | none =>
      rw [htrust] at hrecord
      dsimp only at hrecord
      split_ifs at hrecord
      obtain rfl := Except.ok.inj hrecord
      exact hearned

end Host

namespace Sample

def hex64 : Text := List.replicate 64 (unit '0')

theorem isHex64_hex64 : isHex64 hex64 = true := by decide +kernel

theorem named : (text "tests" ≠ []) := by decide

def record : TrustRecord :=
  emptyTrustRecord ⟨hex64, isHex64_hex64⟩ ⟨text "tests", decide_eq_true named⟩ (text "now")

def plainCase : Platform := ⟨id, fun _ ↦ none⟩

def options : RunExecutorOptions where
  executorClass := text "tests"
  commitmentHash := hex64
  targetKind := .sourceFile
  persona := hex64
  repoPath := text "/r"
  baseBranch := none
  trust := some record
  edgeVerifiable := none
  intentForReviewer := none
  now := text "2026-01-01T00:00:00Z"

def head : Head := ⟨text "c0", text "main"⟩

def output : ExecutorOutput := ⟨text "t", text "b", by decide, by decide⟩

def testPath : Text := text "test/a"

def testText : Text := text "x\n"

def writes : Files := AList.insert testPath testText ∅

def bare : Snapshot testsClass.capabilities := ⟨∅, fun _ h ↦ absurd h (AList.notMem_empty _)⟩

theorem testPath_permitted :
    assertPermitted testsClass.capabilities .write testPath = .ok testPath := by
  rw [assertPermitted_eq_ok_iff]
  decide +kernel

theorem exists_artifact : ∃ a, runExecutor plainCase options [] (.ok head)
    (.ok (.done (some output) writes [])) = .ok (.artifact a) := by
  have hops : opsOf none (some testText) = [⟨.addition, text "x"⟩] := by
    rw [opsOf, lcs, linesOf, walk]
    decide +kernel
  have hwrite : reviewWrite testsClass.capabilities ∅ testPath testText =
      .ok (some (⟨testPath, .added, 1, 0⟩, (unifiedDiff testPath none (some testText)).text)) := by
    obtain ⟨hadditions, hdeletions⟩ := counts_unifiedDiff testPath none (some testText)
    rw [hops] at hadditions hdeletions
    have hadded : (unifiedDiff testPath none (some testText)).additions = 1 := hadditions
    have hdeleted : (unifiedDiff testPath none (some testText)).deletions = 0 := hdeletions
    rw [reviewWrite, testPath_permitted, Except.map, AList.lookup_empty]
    simp [hadded, hdeleted]
  have hreview : review testsClass.capabilities bare.files writes [] =
      .ok [(⟨testPath, .added, 1, 0⟩, (unifiedDiff testPath none (some testText)).text)] := by
    have hentries : writes.entries = [⟨testPath, testText⟩] := rfl
    rw [review, hentries, List.mapM_cons, bare, hwrite]
    rfl
  have hceiling : ceilingFor id .routine [testPath] = .ok .silentWithReceipt := by decide +kernel
  have hrun : runExecutor plainCase options [] (.ok head) (.ok (.done (some output) writes [])) =
      received plainCase options testsClass bare head (.done (some output) writes []) := rfl
  have hautonomy : (effectiveAutonomy ⟨record, .silentWithReceipt, none⟩).level = .draftForReview :=
    rfl
  have happlies : appliesAt plainCase options
      (effectiveAutonomy ⟨record, .silentWithReceipt, none⟩) = .ok none :=
    if_neg (by rw [hautonomy]; decide)
  have hassemble : ∃ a, assemble plainCase options testsClass head output
      [(⟨testPath, .added, 1, 0⟩, (unifiedDiff testPath none (some testText)).text)] =
        .ok (.artifact a) :=
    assemble_eq_ok (List.cons_ne_nil _ _) (by decide) (by decide) rfl hceiling happlies
      ⟨⟨isHex64_hex64, isHex64_hex64⟩, by decide, by decide, by decide⟩
  obtain ⟨a, ha⟩ := hassemble
  refine ⟨a, ?_⟩
  rw [hrun, received, hreview]
  exact ha

/-- An artifact of one added line, held at a draft. -/
theorem exists_confined : ∃ a, ∃ cls ∈ registry, cls.name = options.executorClass ∧
    Confined id options cls a := by
  obtain ⟨a, ha⟩ := exists_artifact
  exact ⟨a, runExecutor_confined ha⟩

end Sample

end Servanda.Executor
