import Servanda.Glob
import Servanda.Json
import Servanda.Scan

/-!
The world an executor is given: the paths of a workspace, the patterns that select them, and what
may be read and written there.
-/

namespace Servanda.Workspace

open Unicode Scan Glob

inductive Mode where
  | read
  | write
  deriving DecidableEq

structure CapabilitySet where
  read : List Text
  write : List Text
  maxChangedLines : ℕ
  maxChangedFiles : ℕ
  globs : ∀ glob ∈ read ++ write, glob ≠ []
  readable : read ≠ []
  positive : 0 < maxChangedLines ∧ 0 < maxChangedFiles

def CapabilitySet.allowed (capabilities : CapabilitySet) : Mode → List Text
  | .read => capabilities.read
  | .write => capabilities.write

/-- What is thrown over a path: it is malformed, or it is outside the world. -/
inductive PathError where
  | type (message : Text)
  | capability (path : Text) (mode : Mode) (allowed : List Text)
  deriving DecidableEq

def Mode.word : Mode → Text
  | read => text "read"
  | write => text "write"

def PathError.message : PathError → Text
  | type message => message
  | capability path mode allowed =>
    text "§9.2: " ++ mode.word ++ text " of " ++ units (serializeString path) ++
      text " is outside this executor's capability world (" ++ mode.word ++ text " = " ++
      (text ", ").intercalate (allowed.map fun glob ↦ units (serializeString glob)) ++ text ")"

def slash : CodeUnit := unit '/'

def backslash : CodeUnit := unit '\\'

def isAsciiLetter (u : CodeUnit) : Bool :=
  0x41 ≤ u.toNat && u.toNat ≤ 0x5A || 0x61 ≤ u.toNat && u.toNat ≤ 0x7A

/-- A path that starts with a drive. -/
def isDrivePath : Text → Bool
  | letter :: colon :: mark :: _ =>
    isAsciiLetter letter && colon = unit ':' && (mark = backslash || mark = slash)
  | _ => false

/-- The segments of a path that are kept. -/
def segmentsOf (path : Text) : List Text :=
  (path.splitOn slash).filter fun segment ↦ segment ≠ [] ∧ segment ≠ text "."

def normalizeWorkspacePath (path : Text) : Except PathError Text :=
  if path = [] then .error (.type (text "workspace path must not be empty"))
  else if path.head? = some slash ∨ isDrivePath path then
    .error (.type (text "workspace path must be relative, got: " ++ path))
  else if backslash ∈ path then
    .error (.type (text "workspace path must use \"/\", got: " ++ path))
  else if 0 ∈ path then .error (.type (text "workspace path must not contain a NUL byte"))
  else if text ".." ∈ segmentsOf path then
    .error (.type (text "workspace path must not traverse upward, got: " ++ path))
  else if segmentsOf path = [] then
    .error (.type (text "workspace path resolves to nothing: " ++ path))
  else .ok ([slash].intercalate (segmentsOf path))

def wildcards : List (Text × Piece CodeUnit) :=
  [(text "**/", .directories), (text "**", .anything), (text "*", .segment), (text "?", .one)]

/-- A wildcard at the front of a text, the longest of them first. -/
def wildcard : Pattern (Piece CodeUnit) := fun s ↦
  wildcards.findSome? fun (word, piece) ↦ (dropWord word s).map fun _ ↦ (piece, word.length)

def globPieces (glob : Text) : List (Piece CodeUnit) :=
  (scan wildcard 0 glob).map (Sum.elim id .literal)

/-- A line terminator, which no dot matches. -/
def endsLine (u : CodeUnit) : Bool := u.toNat ∈ [0x0A, 0x0D, 0x2028, 0x2029]

def matchesGlob (path glob : Text) : Bool :=
  reads slash (fun u ↦ !endsLine u) (globPieces glob) path

def permits (capabilities : CapabilitySet) (mode : Mode) (path : Text) : Except PathError Bool :=
  (normalizeWorkspacePath path).map fun normalized ↦
    (capabilities.allowed mode).any (matchesGlob normalized)

def assertPermitted (capabilities : CapabilitySet) (mode : Mode) (path : Text) :
    Except PathError Text :=
  match normalizeWorkspacePath path with
  | .error e => .error e
  | .ok normalized =>
    if (capabilities.allowed mode).any (matchesGlob normalized) then .ok normalized
    else .error (.capability path mode (capabilities.allowed mode))

section Normalized

variable {path normalized : Text}

theorem segmentsOf_ne_nil {segment : Text} (h : segment ∈ segmentsOf path) : segment ≠ [] := by
  have hkept := List.of_mem_filter h
  rw [decide_eq_true_eq] at hkept
  exact hkept.1

theorem slash_notMem {segment : Text} (h : segment ∈ segmentsOf path) : slash ∉ segment :=
  notMem_of_mem_splitOn (List.mem_of_mem_filter h)

/-- What a path that is accepted comes to. -/
theorem normalizeWorkspacePath_eq_ok (h : normalizeWorkspacePath path = .ok normalized) :
    normalized = [slash].intercalate (segmentsOf path) ∧ segmentsOf path ≠ [] := by
  unfold normalizeWorkspacePath at h
  split_ifs at h with _ _ _ _ _ hnil
  exact ⟨(Except.ok.inj h).symm, hnil⟩

theorem splitOn_normalized (h : normalizeWorkspacePath path = .ok normalized) :
    normalized.splitOn slash = segmentsOf path := by
  obtain ⟨rfl, hnil⟩ := normalizeWorkspacePath_eq_ok h
  exact List.splitOn_intercalate _ (fun _ ↦ slash_notMem) hnil

/-- What stands between separators, and nothing else, is in a sequence that is put together. -/
theorem mem_intercalate {u : CodeUnit} {segments : List Text} (h : u ∈ [slash].intercalate segments) :
    u = slash ∨ ∃ segment ∈ segments, u ∈ segment := by
  induction segments with
  | nil => cases h
  | cons segment segments ih =>
    cases segments with
    | nil =>
      rw [List.intercalate_singleton] at h
      exact .inr ⟨segment, List.mem_cons_self, h⟩
    | cons next segments =>
      rw [List.intercalate_cons_cons, List.mem_append, List.mem_append, List.mem_singleton] at h
      obtain (h | h) | h := h
      · exact .inr ⟨segment, List.mem_cons_self, h⟩
      · exact .inl h
      · exact (ih h).imp_right fun ⟨found, hfound, hu⟩ ↦ ⟨found, List.mem_cons_of_mem _ hfound, hu⟩

theorem mem_of_mem_segmentsOf {u : CodeUnit} {segment : Text} (h : segment ∈ segmentsOf path)
    (hu : u ∈ segment) : u ∈ path := by
  have hjoin (segments : List Text) (hsegment : segment ∈ segments) :
      u ∈ [slash].intercalate segments := by
    induction segments with
    | nil => cases hsegment
    | cons first segments ih =>
      cases segments with
      | nil =>
        rw [List.intercalate_singleton]
        rwa [List.mem_singleton.mp hsegment] at hu
      | cons next segments =>
        rw [List.intercalate_cons_cons, List.mem_append, List.mem_append]
        obtain rfl | hrest := List.mem_cons.mp hsegment
        · exact .inl (.inl hu)
        · exact .inr (ih hrest)
  rw [← (List.intercalate_splitOn slash : [slash].intercalate (path.splitOn slash) = path)]
  exact hjoin _ (List.mem_of_mem_filter h)

/-- A path that has been accepted is accepted again as it is, unless it looks like one with a drive
now. -/
theorem normalizeWorkspacePath_normalized (h : normalizeWorkspacePath path = .ok normalized)
    (hdrive : isDrivePath normalized = false) :
    normalizeWorkspacePath normalized = .ok normalized := by
  have hsplit := splitOn_normalized h
  have hsegments : segmentsOf normalized = segmentsOf path := by
    rw [segmentsOf, hsplit]
    refine List.filter_eq_self.mpr fun segment hsegment ↦ ?_
    have hkept := List.of_mem_filter hsegment
    exact hkept
  have hvisible : [] ∉ normalized.splitOn slash := fun hmem ↦
    segmentsOf_ne_nil (hsplit ▸ hmem) rfl
  have hkept {u : CodeUnit} (hu : u ∈ normalized) : u = slash ∨ u ∈ path := by
    rw [(normalizeWorkspacePath_eq_ok h).1] at hu
    exact (mem_intercalate hu).imp_right fun ⟨_, hsegment, hu⟩ ↦ mem_of_mem_segmentsOf hsegment hu
  have hnil : normalized ≠ [] := by
    rintro rfl
    exact hvisible (by simp)
  have hroot : normalized.head? ≠ some slash := fun hhead ↦ by
    obtain ⟨rest, rfl⟩ := List.head?_eq_some_iff.mp hhead
    have hempty : (slash :: rest).splitOn slash = [] :: rest.splitOn slash := by
      rw [← List.nil_append (slash :: rest), List.splitOn_append_cons_self, List.splitOn_nil]
      rfl
    exact hvisible (hempty ▸ List.mem_cons_self)
  have hself : [slash].intercalate (segmentsOf normalized) = normalized := by
    rw [hsegments, ← (normalizeWorkspacePath_eq_ok h).1]
  unfold normalizeWorkspacePath at h ⊢
  split_ifs at h with hempty habsolute hbackslash hnul hupward hnothing
  have hrelative : ¬(normalized.head? = some slash ∨ isDrivePath normalized = true) := by
    rw [hdrive]
    exact fun hor ↦ hor.elim hroot Bool.false_ne_true
  have hforward : backslash ∉ normalized := fun hmem ↦ (hkept hmem).elim (by decide) hbackslash
  have hplain : 0 ∉ normalized := fun hmem ↦ (hkept hmem).elim (by decide) hnul
  rw [if_neg hnil, if_neg hrelative, if_neg hforward, if_neg hplain, hself, hsegments,
    if_neg hupward, if_neg hnothing]

theorem assertPermitted_eq_ok_iff {capabilities : CapabilitySet} {mode : Mode} :
    assertPermitted capabilities mode path = .ok normalized ↔
      normalizeWorkspacePath path = .ok normalized ∧
        (capabilities.allowed mode).any (matchesGlob normalized) = true := by
  unfold assertPermitted
  cases normalizeWorkspacePath path with
  | error e => exact iff_of_false nofun nofun
  | ok found =>
    dsimp only
    split_ifs with hany
    · rw [Except.ok.injEq]
      exact ⟨fun h ↦ ⟨h, h ▸ hany⟩, And.left⟩
    · refine iff_of_false nofun fun h ↦ ?_
      obtain ⟨heq, hmatch⟩ := h
      rw [Except.ok.inj heq] at hany
      exact hany hmatch

end Normalized

end Servanda.Workspace
