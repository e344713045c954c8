import Servanda.Envelope
import Servanda.Workspace

/-!
The trust gradient: the level a history has earned, the ceiling of a class and of the paths it
touches, and the level that governs an artifact.
-/

namespace Servanda.Gradient

open Unicode Scan Glob Workspace

inductive AutonomyLevel where
  | draftForReview
  | autoApplyWithWindow
  | silentWithReceipt
  deriving DecidableEq

def levelRank : AutonomyLevel → ℕ
  | .draftForReview => 0
  | .autoApplyWithWindow => 1
  | .silentWithReceipt => 2

def minLevel (a b : AutonomyLevel) : AutonomyLevel := if levelRank a ≤ levelRank b then a else b

def promotionThresholds : AutonomyLevel → ℕ
  | .draftForReview => 0
  | .autoApplyWithWindow => 3
  | .silentWithReceipt => 6

inductive RiskClass where
  | routine
  | supplyChain
  | sensitive
  deriving DecidableEq

def riskCeiling : RiskClass → AutonomyLevel
  | .routine => .silentWithReceipt
  | .supplyChain => .autoApplyWithWindow
  | .sensitive => .draftForReview

def sensitivePathGlobs : List Text :=
  [text "**/.github/**", text "**/.gitlab-ci.yml", text "**/.circleci/**", text "**/Jenkinsfile",
    text "**/*.pem", text "**/*.key", text "**/.env", text "**/.env.*", text "**/secrets/**",
    text "**/auth/**", text "**/*secret*", text "**/*credential*"]

section Ceiling

variable (toLowerCase : Text → Text)

def isSensitivePath (path : Text) : Except PathError Bool :=
  (normalizeWorkspacePath path).map fun normalized ↦
    sensitivePathGlobs.any fun glob ↦ matchesGlob (toLowerCase normalized) (toLowerCase glob)

/-- `paths.some(isSensitivePath)`: the first path that is malformed is thrown over, unless a
sensitive one stands before it. -/
def touchesSensitive : List Text → Except PathError Bool
  | [] => .ok false
  | path :: paths =>
    match isSensitivePath toLowerCase path with
    | .error e => .error e
    | .ok true => .ok true
    | .ok false => touchesSensitive paths

def ceilingFor (riskClass : RiskClass) (paths : List Text) : Except PathError AutonomyLevel :=
  (touchesSensitive toLowerCase paths).map fun touches ↦
    if touches then minLevel (riskCeiling riskClass) (riskCeiling .sensitive)
    else riskCeiling riskClass

end Ceiling

/-- The history of a human with a class of work. -/
structure TrustRecord where
  persona : Checked isHex64
  workClass : Checked fun s ↦ s ≠ []
  streak : ℕ
  approvals : ℕ
  editedApprovals : ℕ
  corrections : ℕ
  updatedAt : Text

def emptyTrustRecord (persona : Checked isHex64) (workClass : Checked fun s ↦ s ≠ [])
    (now : Text) : TrustRecord where
  persona
  workClass
  streak := 0
  approvals := 0
  editedApprovals := 0
  corrections := 0
  updatedAt := now

def levelFromHistory (record : TrustRecord) : AutonomyLevel :=
  if promotionThresholds .silentWithReceipt ≤ record.streak then .silentWithReceipt
  else if promotionThresholds .autoApplyWithWindow ≤ record.streak then .autoApplyWithWindow
  else .draftForReview

inductive ReviewOutcome where
  | approved
  | approvedWithEdits
  | corrected

def applyOutcome (record : TrustRecord) (outcome : ReviewOutcome) (now : Text) : TrustRecord :=
  match outcome with
  | .approved =>
    { record with streak := record.streak + 1, approvals := record.approvals + 1, updatedAt := now }
  | .approvedWithEdits =>
    { record with editedApprovals := record.editedApprovals + 1, updatedAt := now }
  | .corrected =>
    { record with streak := 0, corrections := record.corrections + 1, updatedAt := now }

/-- What decided the level, where it was not what was earned. -/
inductive Cap where
  | ceiling
  | unverifiableEdge

structure EffectiveAutonomyInput where
  record : TrustRecord
  ceiling : AutonomyLevel
  edgeVerifiable : Option Bool

structure EffectiveAutonomy where
  level : AutonomyLevel
  earned : AutonomyLevel
  ceiling : AutonomyLevel
  cappedBy : Option Cap

def effectiveAutonomy (input : EffectiveAutonomyInput) : EffectiveAutonomy :=
  let earned := levelFromHistory input.record
  let capped := minLevel earned input.ceiling
  if input.edgeVerifiable ≠ some true ∧ capped ≠ .draftForReview then
    ⟨.draftForReview, earned, input.ceiling, some .unverifiableEdge⟩
  else ⟨capped, earned, input.ceiling, if capped = earned then none else some .ceiling⟩

/-- A history of outcomes, each at its own time. -/
def applyOutcomes (record : TrustRecord) (outcomes : List (ReviewOutcome × Text)) : TrustRecord :=
  outcomes.foldl (fun record outcome ↦ applyOutcome record outcome.1 outcome.2) record

section Levels

variable {a b : AutonomyLevel}

theorem minLevel_le : levelRank (minLevel a b) ≤ levelRank b := by
  unfold minLevel
  split_ifs with h
  · exact h
  · exact le_rfl

theorem eq_draft_of_rank (h : levelRank a ≤ levelRank .draftForReview) : a = .draftForReview := by
  cases a with
  | draftForReview => rfl
  | autoApplyWithWindow => exact absurd h (by decide)
  | silentWithReceipt => exact absurd h (by decide)

/-- No history carries an artifact past its ceiling. -/
theorem effectiveAutonomy_le (input : EffectiveAutonomyInput) :
    levelRank (effectiveAutonomy input).level ≤ levelRank input.ceiling := by
  unfold effectiveAutonomy
  dsimp only
  split
  · exact Nat.zero_le _
  · exact minLevel_le

end Levels

/-- What is documented of lower-casing: it works on ASCII letter by letter, on the segments of a
path apart, and leaves nothing empty. -/
structure Folds (toLowerCase : Text → Text) : Prop where
  ascii : ∀ s, (∀ u ∈ s, u.toNat < 0x80) → toLowerCase s = s.map fun u ↦
    if 0x41 ≤ u.toNat ∧ u.toNat ≤ 0x5A then u + 0x20 else u
  segments : ∀ s, (toLowerCase s).splitOn slash = (s.splitOn slash).map toLowerCase
  visible : ∀ s, s ≠ [] → toLowerCase s ≠ []

def sensitiveDirectories : List Text :=
  [text "auth", text "secrets", text ".github", text ".circleci"]

/-- The name of a file that is sensitive wherever it stands. -/
def SensitiveName (name : Text) : Prop :=
  name = text ".env" ∨ text ".env." <+: name ∨ text ".pem" <:+ name ∨ text ".key" <:+ name ∨
    text "secret" <:+: name ∨ text "credential" <:+: name

/-- A folded path that is below a sensitive directory, or has a sensitive name. -/
def Sensitive (folded : Text) : Prop :=
  (∃ name ∈ sensitiveDirectories, ∃ before after,
    folded.splitOn slash = before ++ name :: after ∧ after ≠ []) ∨
  ∃ before last, folded.splitOn slash = before ++ [last] ∧ SensitiveName last

/-- The directories count only where all that is below them is on one line. The names of two more
files of a pipeline are sensitive. -/
def Caught (folded : Text) : Prop :=
  (∃ name ∈ sensitiveDirectories, ∃ before after,
    folded.splitOn slash = before ++ name :: after ∧ after ≠ [] ∧
      ∀ segment ∈ after, ∀ u ∈ segment, endsLine u = false) ∨
  ∃ before last, folded.splitOn slash = before ++ [last] ∧
    (SensitiveName last ∨ last = text ".gitlab-ci.yml" ∨ last = text "jenkinsfile")

section Globs

variable {folded : Text}

theorem endsLine_slash : endsLine slash = false := by decide

theorem forall_mem_intercalate {after : List Text} (hafter : after ≠ []) :
    (∀ u ∈ [slash].intercalate after, (!endsLine u) = true) ↔
      ∀ segment ∈ after, ∀ u ∈ segment, endsLine u = false := by
  induction after with
  | nil => exact absurd rfl hafter
  | cons segment after ih =>
    cases after with
    | nil => simp [List.intercalate]
    | cons next after =>
      have hjoin : [slash].intercalate (segment :: next :: after) =
          segment ++ slash :: [slash].intercalate (next :: after) := by simp [List.intercalate]
      rw [hjoin, List.forall_mem_append, List.forall_mem_cons, ih (List.cons_ne_nil _ _),
        List.forall_mem_cons (l := next :: after)]
      simp [endsLine_slash]

theorem matchesGlob_directory (name glob : Text) (hname : slash ∉ name)
    (hglob : globPieces glob = .directories :: ((name ++ [slash]).map .literal ++ [.anything]))
    (hfolded : [] ∉ folded.splitOn slash) :
    matchesGlob folded glob = true ↔ ∃ before after,
      folded.splitOn slash = before ++ name :: after ∧ after ≠ [] ∧
        ∀ segment ∈ after, ∀ u ∈ segment, endsLine u = false := by
  rw [matchesGlob, hglob, reads_below hname]
  constructor
  · rintro ⟨before, after, hsplit, -, hafter, hline⟩
    exact ⟨before, after, hsplit, hafter, (forall_mem_intercalate hafter).1 hline⟩
  · rintro ⟨before, after, hsplit, hafter, hline⟩
    refine ⟨before, after, hsplit, fun hmem ↦ hfolded ?_, hafter,
      (forall_mem_intercalate hafter).2 hline⟩
    rw [hsplit]
    exact List.mem_append_left _ hmem

/-- A pattern that is read in the last segment alone. -/
theorem matchesGlob_last {glob : Text} {P : Text → Prop} (hfolded : [] ∉ folded.splitOn slash)
    (hreads : matchesGlob folded glob = true ↔
      ∃ before last, folded.splitOn slash = before ++ [last] ∧ [] ∉ before ∧ P last) :
    matchesGlob folded glob = true ↔
      ∃ before last, folded.splitOn slash = before ++ [last] ∧ P last := by
  rw [hreads]
  refine exists_congr fun before ↦ exists_congr fun last ↦ and_congr_right fun hsplit ↦ ?_
  refine and_iff_right fun hmem ↦ hfolded ?_
  rw [hsplit]
  exact List.mem_append_left _ hmem

variable (name glob : Text) (hname : slash ∉ name) (hfolded : [] ∉ folded.splitOn slash)
include hname hfolded

theorem matchesGlob_name (hglob : globPieces glob = .directories :: name.map .literal) :
    matchesGlob folded glob = true ↔
      ∃ before last, folded.splitOn slash = before ++ [last] ∧ last = name := by
  refine matchesGlob_last hfolded ?_
  rw [matchesGlob, hglob, reads_name hname]

theorem matchesGlob_start
    (hglob : globPieces glob = .directories :: (name.map .literal ++ [.segment])) :
    matchesGlob folded glob = true ↔
      ∃ before last, folded.splitOn slash = before ++ [last] ∧ name <+: last := by
  refine matchesGlob_last hfolded ?_
  rw [matchesGlob, hglob, reads_start hname]

theorem matchesGlob_end
    (hglob : globPieces glob = .directories :: .segment :: name.map .literal) :
    matchesGlob folded glob = true ↔
      ∃ before last, folded.splitOn slash = before ++ [last] ∧ name <:+ last := by
  refine matchesGlob_last hfolded ?_
  rw [matchesGlob, hglob, reads_end hname]

theorem matchesGlob_inside
    (hglob : globPieces glob = .directories :: .segment :: (name.map .literal ++ [.segment])) :
    matchesGlob folded glob = true ↔
      ∃ before last, folded.splitOn slash = before ++ [last] ∧ name <:+: last := by
  refine matchesGlob_last hfolded ?_
  rw [matchesGlob, hglob, reads_inside hname]

end Globs

/-- The patterns in lower case. -/
def foldedGlobs : List Text :=
  [text "**/.github/**", text "**/.gitlab-ci.yml", text "**/.circleci/**", text "**/jenkinsfile",
    text "**/*.pem", text "**/*.key", text "**/.env", text "**/.env.*", text "**/secrets/**",
    text "**/auth/**", text "**/*secret*", text "**/*credential*"]

/-- Between them the patterns catch these paths and no others. -/
theorem any_foldedGlobs {folded : Text} (hfolded : [] ∉ folded.splitOn slash) :
    foldedGlobs.any (matchesGlob folded) = true ↔ Caught folded := by
  have hgithub := matchesGlob_directory (text ".github") (text "**/.github/**")
    (by decide +kernel) (by decide +kernel) hfolded
  have hcircleci := matchesGlob_directory (text ".circleci") (text "**/.circleci/**")
    (by decide +kernel) (by decide +kernel) hfolded
  have hsecrets := matchesGlob_directory (text "secrets") (text "**/secrets/**")
    (by decide +kernel) (by decide +kernel) hfolded
  have hauth := matchesGlob_directory (text "auth") (text "**/auth/**")
    (by decide +kernel) (by decide +kernel) hfolded
  have hgitlab := matchesGlob_name (text ".gitlab-ci.yml") (text "**/.gitlab-ci.yml")
    (by decide +kernel) hfolded (by decide +kernel)
  have hjenkins := matchesGlob_name (text "jenkinsfile") (text "**/jenkinsfile")
    (by decide +kernel) hfolded (by decide +kernel)
  have henv := matchesGlob_name (text ".env") (text "**/.env")
    (by decide +kernel) hfolded (by decide +kernel)
  have henvs := matchesGlob_start (text ".env.") (text "**/.env.*")
    (by decide +kernel) hfolded (by decide +kernel)
  have hpem := matchesGlob_end (text ".pem") (text "**/*.pem")
    (by decide +kernel) hfolded (by decide +kernel)
  have hkey := matchesGlob_end (text ".key") (text "**/*.key")
    (by decide +kernel) hfolded (by decide +kernel)
  have hsecret := matchesGlob_inside (text "secret") (text "**/*secret*")
    (by decide +kernel) hfolded (by decide +kernel)
  have hcredential := matchesGlob_inside (text "credential") (text "**/*credential*")
    (by decide +kernel) hfolded (by decide +kernel)
  simp only [foldedGlobs, List.any_cons, List.any_nil, Bool.or_false, Bool.or_eq_true, hgithub,
    hcircleci, hsecrets, hauth, hgitlab, hjenkins, henv, henvs, hpem, hkey, hsecret, hcredential]
  constructor
  · rintro (h | ⟨before, last, hsplit, h⟩ | h | ⟨before, last, hsplit, h⟩ |
      ⟨before, last, hsplit, h⟩ | ⟨before, last, hsplit, h⟩ | ⟨before, last, hsplit, h⟩ |
      ⟨before, last, hsplit, h⟩ | h | h | ⟨before, last, hsplit, h⟩ | ⟨before, last, hsplit, h⟩)
    · exact .inl ⟨_, by simp [sensitiveDirectories], h⟩
    · exact .inr ⟨before, last, hsplit, .inr (.inl h)⟩
    · exact .inl ⟨_, by simp [sensitiveDirectories], h⟩
    · exact .inr ⟨before, last, hsplit, .inr (.inr h)⟩
    · exact .inr ⟨before, last, hsplit, .inl (.inr (.inr (.inl h)))⟩
    · exact .inr ⟨before, last, hsplit, .inl (.inr (.inr (.inr (.inl h))))⟩
    · exact .inr ⟨before, last, hsplit, .inl (.inl h)⟩
    · exact .inr ⟨before, last, hsplit, .inl (.inr (.inl h))⟩
    · exact .inl ⟨_, by simp [sensitiveDirectories], h⟩
    · exact .inl ⟨_, by simp [sensitiveDirectories], h⟩
    · exact .inr ⟨before, last, hsplit, .inl (.inr (.inr (.inr (.inr (.inl h)))))⟩
    · exact .inr ⟨before, last, hsplit, .inl (.inr (.inr (.inr (.inr (.inr h)))))⟩
  · rintro (⟨name, hname, h⟩ | ⟨before, last, hsplit, h⟩)
    · simp only [sensitiveDirectories, List.mem_cons, List.not_mem_nil, or_false] at hname
      obtain rfl | rfl | rfl | rfl := hname <;> simp only [h, true_or, or_true]
    · have hlast : ∀ P : Text → Prop, P last →
          ∃ before last, folded.splitOn slash = before ++ [last] ∧ P last :=
        fun P h ↦ ⟨before, last, hsplit, h⟩
      obtain (h | h | h | h | h | h) | h | h := h
      · simp only [hlast (· = text ".env") h, true_or, or_true]
      · simp only [hlast (text ".env." <+: ·) h, true_or, or_true]
      · simp only [hlast (text ".pem" <:+ ·) h, true_or, or_true]
      · simp only [hlast (text ".key" <:+ ·) h, true_or, or_true]
      · simp only [hlast (text "secret" <:+: ·) h, true_or, or_true]
      · simp only [hlast (text "credential" <:+: ·) h, or_true]
      · simp only [hlast (· = text ".gitlab-ci.yml") h, true_or, or_true]
      · simp only [hlast (· = text "jenkinsfile") h, true_or, or_true]

def Accepted (path : Text) : Prop := ∃ normalized, normalizeWorkspacePath path = .ok normalized

/-- A path that is accepted, of which this holds once it is folded. -/
def Within (toLowerCase : Text → Text) (P : Text → Prop) (path : Text) : Prop :=
  ∃ normalized, normalizeWorkspacePath path = .ok normalized ∧ P (toLowerCase normalized)

/-- The ceiling is a draft, and so is what any history comes to under it. -/
structure Held (toLowerCase : Text → Text) (riskClass : RiskClass) (paths : List Text) : Prop where
  ceiling : ceilingFor toLowerCase riskClass paths = .ok .draftForReview
  autonomy : ∀ persona workClass now outcomes edgeVerifiable,
    (effectiveAutonomy ⟨applyOutcomes (emptyTrustRecord persona workClass now) outcomes,
      .draftForReview, edgeVerifiable⟩).level = .draftForReview

/-- A path is caught before any that is malformed, or the class is sensitive itself and no path is
malformed. -/
def Guarded (toLowerCase : Text → Text) (riskClass : RiskClass) (paths : List Text) : Prop :=
  (∃ front path back, paths = front ++ path :: back ∧ (∀ p ∈ front, Accepted p) ∧
    Within toLowerCase Caught path) ∨
  riskClass = .sensitive ∧ ∀ p ∈ paths, Accepted p

section Held

variable {toLowerCase : Text → Text} {path : Text} {paths : List Text} {riskClass : RiskClass}

theorem map_sensitivePathGlobs (hfold : Folds toLowerCase) :
    sensitivePathGlobs.map toLowerCase = foldedGlobs := by
  have hlower : ∀ glob ∈ sensitivePathGlobs, toLowerCase glob = glob.map fun u ↦
      if 0x41 ≤ u.toNat ∧ u.toNat ≤ 0x5A then u + 0x20 else u :=
    fun glob hglob ↦ hfold.ascii glob fun u hu ↦ by
      have hall : sensitivePathGlobs.all (·.all fun u ↦ u.toNat < 0x80) = true := by decide +kernel
      exact of_decide_eq_true (List.all_eq_true.1 (List.all_eq_true.1 hall glob hglob) u hu)
  rw [List.map_congr_left hlower]
  decide +kernel

theorem nil_notMem_folded (hfold : Folds toLowerCase) {normalized : Text}
    (h : normalizeWorkspacePath path = .ok normalized) :
    [] ∉ (toLowerCase normalized).splitOn slash := by
  rw [hfold.segments, splitOn_normalized h, List.mem_map]
  rintro ⟨segment, hsegment, hnil⟩
  exact hfold.visible segment (segmentsOf_ne_nil hsegment) hnil

theorem isSensitivePath_ok (hfold : Folds toLowerCase) {normalized : Text}
    (h : normalizeWorkspacePath path = .ok normalized) :
    ∃ found, isSensitivePath toLowerCase path = .ok found ∧
      (found = true ↔ Caught (toLowerCase normalized)) := by
  refine ⟨sensitivePathGlobs.any fun glob ↦
    matchesGlob (toLowerCase normalized) (toLowerCase glob), ?_, ?_⟩
  · rw [isSensitivePath, h]
    rfl
  · rw [← any_foldedGlobs (nil_notMem_folded hfold h), ← map_sensitivePathGlobs hfold,
      List.any_map]
    rfl

theorem isSensitivePath_eq_true_iff (hfold : Folds toLowerCase) :
    isSensitivePath toLowerCase path = .ok true ↔ Within toLowerCase Caught path := by
  cases hnormal : normalizeWorkspacePath path with
  | error e =>
    rw [isSensitivePath, hnormal]
    refine iff_of_false nofun ?_
    rintro ⟨normalized, h, -⟩
    rw [hnormal] at h
    cases h
  | ok normalized =>
    obtain ⟨found, hfound, hcaught⟩ := isSensitivePath_ok hfold hnormal
    rw [hfound, Except.ok.injEq, hcaught]
    constructor
    · exact fun h ↦ ⟨normalized, hnormal, h⟩
    · rintro ⟨_, h, hpath⟩
      rw [hnormal] at h
      obtain rfl := Except.ok.inj h
      exact hpath

theorem accepted_of_isSensitivePath {found : Bool}
    (h : isSensitivePath toLowerCase path = .ok found) : Accepted path := by
  cases hnormal : normalizeWorkspacePath path with
  | error e =>
    rw [isSensitivePath, hnormal] at h
    cases h
  | ok normalized => exact ⟨normalized, hnormal⟩

theorem touchesSensitive_eq_true_iff (hfold : Folds toLowerCase) :
    touchesSensitive toLowerCase paths = .ok true ↔ ∃ front path back,
      paths = front ++ path :: back ∧ (∀ p ∈ front, Accepted p) ∧
        Within toLowerCase Caught path := by
  constructor
  · intro h
    induction paths with
    | nil => cases h
    | cons path paths ih =>
      unfold touchesSensitive at h
      split at h
      · cases h
      · next hfound =>
        exact ⟨[], path, paths, rfl, List.forall_mem_nil _,
          (isSensitivePath_eq_true_iff hfold).1 hfound⟩
      · next hfound =>
        obtain ⟨front, found, back, rfl, hfront, hcaught⟩ := ih h
        exact ⟨path :: front, found, back, rfl,
          List.forall_mem_cons.2 ⟨accepted_of_isSensitivePath hfound, hfront⟩, hcaught⟩
  · rintro ⟨front, path, back, rfl, hfront, hcaught⟩
    induction front with
    | nil =>
      rw [List.nil_append, touchesSensitive, (isSensitivePath_eq_true_iff hfold).2 hcaught]
    | cons first front ih =>
      obtain ⟨⟨normalized, hnormal⟩, hfront⟩ := List.forall_mem_cons.1 hfront
      obtain ⟨found, hfound, -⟩ := isSensitivePath_ok hfold hnormal
      rw [List.cons_append, touchesSensitive, hfound]
      cases found with
      | true => rfl
      | false => exact ih hfront

theorem touchesSensitive_of_accepted (h : ∀ p ∈ paths, Accepted p) :
    ∃ touches, touchesSensitive toLowerCase paths = .ok touches := by
  induction paths with
  | nil => exact ⟨false, rfl⟩
  | cons path paths ih =>
    obtain ⟨⟨normalized, hnormal⟩, hpaths⟩ := List.forall_mem_cons.1 h
    obtain ⟨touches, htouches⟩ := ih hpaths
    rw [touchesSensitive, isSensitivePath, hnormal]
    dsimp only [Except.map]
    split
    · next heq => cases heq
    · exact ⟨true, rfl⟩
    · exact ⟨touches, htouches⟩

theorem accepted_of_touchesSensitive (h : touchesSensitive toLowerCase paths = .ok false) :
    ∀ p ∈ paths, Accepted p := by
  induction paths with
  | nil => exact List.forall_mem_nil _
  | cons path paths ih =>
    unfold touchesSensitive at h
    split at h
    · cases h
    · cases h
    · next hfound =>
      exact List.forall_mem_cons.2 ⟨accepted_of_isSensitivePath hfound, ih h⟩

theorem ceilingFor_eq_draft_iff (hfold : Folds toLowerCase) :
    ceilingFor toLowerCase riskClass paths = .ok .draftForReview ↔
      Guarded toLowerCase riskClass paths := by
  unfold Guarded
  rw [← touchesSensitive_eq_true_iff hfold, ceilingFor]
  cases htouches : touchesSensitive toLowerCase paths with
  | error e =>
    refine iff_of_false nofun ?_
    rintro (h | ⟨-, h⟩)
    · cases h
    · obtain ⟨touches, hok⟩ := @touchesSensitive_of_accepted toLowerCase _ h
      rw [htouches] at hok
      cases hok
  | ok touches =>
    cases touches with
    | true => exact iff_of_true (by cases riskClass <;> rfl) (.inl rfl)
    | false =>
      have haccepted := accepted_of_touchesSensitive htouches
      cases riskClass with
      | sensitive => exact iff_of_true rfl (.inr ⟨rfl, haccepted⟩)
      | routine => exact iff_of_false nofun (by simp)
      | supplyChain => exact iff_of_false nofun (by simp)

/-- The ceiling holds for a list with a sensitive path exactly where one is caught in time. -/
theorem held_iff (hfold : Folds toLowerCase) :
    ∀ riskClass paths, (∃ path ∈ paths, Within toLowerCase Sensitive path) →
      (Held toLowerCase riskClass paths ↔ Guarded toLowerCase riskClass paths) := by
  intro riskClass paths _
  rw [← ceilingFor_eq_draft_iff hfold]
  exact ⟨Held.ceiling, fun hceiling ↦ ⟨hceiling, fun _ _ _ _ _ ↦
    eq_draft_of_rank (effectiveAutonomy_le _)⟩⟩

end Held

namespace Sample

def lowerAscii (s : Text) : Text := s.map fun u ↦
  if 0x41 ≤ u.toNat ∧ u.toNat ≤ 0x5A then u + 0x20 else u

theorem lowerAscii_folds : Folds lowerAscii where
  ascii _ _ := rfl
  segments := splitOn_map fun u ↦ by
    have hslash : slash.toNat = 0x2F := rfl
    split_ifs with hupper
    · refine iff_of_false (fun h ↦ ?_) fun h ↦ ?_
      · have hsum := congrArg BitVec.toNat h
        have hgap : BitVec.toNat (0x20 : CodeUnit) = 0x20 := rfl
        rw [BitVec.toNat_add, hslash, hgap] at hsum
        omega
      · rw [h, hslash] at hupper
        omega
    · exact Iff.rfl
  visible _ h hnil := h (List.map_eq_nil_iff.1 hnil)

theorem oneLine : ∀ u ∈ text "a.ts", endsLine u = false := by
  have hall : (text "a.ts").all (fun u ↦ !endsLine u) = true := by decide +kernel
  intro u hu
  simpa using List.all_eq_true.1 hall u hu

end Sample

/-- A file of secrets is capped, whatever its case. -/
theorem held_secrets :
    Held Sample.lowerAscii .routine [text "docs/a.md", text "src/Secrets/a.ts"] :=
  (held_iff Sample.lowerAscii_folds .routine [text "docs/a.md", text "src/Secrets/a.ts"]
    ⟨text "src/Secrets/a.ts", by simp, text "src/Secrets/a.ts", by decide +kernel, .inl
      ⟨text "secrets", by decide +kernel, [text "src"], [text "a.ts"], by decide +kernel,
        by simp⟩⟩).2
    (.inl ⟨[text "docs/a.md"], text "src/Secrets/a.ts", [], rfl,
      List.forall_mem_singleton.2 ⟨text "docs/a.md", by decide +kernel⟩, text "src/Secrets/a.ts",
      by decide +kernel, .inl ⟨text "secrets", by decide +kernel, [text "src"], [text "a.ts"],
        by decide +kernel, by simp, List.forall_mem_singleton.2 Sample.oneLine⟩⟩)

/-- A line break in a name below a sensitive directory, and the artifact passes as routine. -/
theorem broken_line : ¬∀ toLowerCase, Folds toLowerCase → ∀ riskClass paths,
    (∃ path ∈ paths, Within toLowerCase Sensitive path) → Held toLowerCase riskClass paths := by
  intro h
  have hheld := h Sample.lowerAscii Sample.lowerAscii_folds .routine [text "auth/a\nb"]
    ⟨text "auth/a\nb", by simp, text "auth/a\nb", by decide +kernel, .inl
      ⟨text "auth", by decide +kernel, [], [text "a\nb"], by decide +kernel, by simp⟩⟩
  have hceiling : ceilingFor Sample.lowerAscii .routine [text "auth/a\nb"] =
      .ok .silentWithReceipt := by decide +kernel
  rw [hheld.ceiling] at hceiling
  cases hceiling

end Servanda.Gradient
