import Servanda.Cuts
import Servanda.Json
import Servanda.Scan

/-!
The judge of what a client shows: no text is reported that is put together from what the client
wrote, what was declared as content, and what says nothing.
-/

namespace Servanda.Judge

open Unicode Scan

/-- The classes of code points that a regular expression names; no surrogate is in one. -/
structure PointClasses where
  /-- `\p{P}`. -/
  isPunctuation : ℕ → Bool
  /-- `\p{S}`. -/
  isSymbol : ℕ → Bool
  surrogate (c : ℕ) : isSurrogate c = true → (isPunctuation c || isSymbol c) = false

structure RenderedFact where
  tag : Text
  classes : List Text
  attrs : List (Text × Text)
  text : Text
  ordinal : ℕ
  scope : Text
  deriving DecidableEq

structure Surface where
  id : Text
  facts : List RenderedFact

inductive Rule
  | m12 | m21
  deriving DecidableEq, Repr

structure Verdict where
  rule : Rule
  surface : Text
  detail : Text
  fact : Option RenderedFact
  deriving DecidableEq

structure Content where
  allowlist : List Text
  copy : List Text

/-- What is deleted from a text, in this order: each set lists its strings as they came first. -/
def Content.known (content : Content) : List Text :=
  content.copy.eraseDups ++ content.allowlist.eraseDups

section Judge

variable (classes : PointClasses)

def isIgnorablePoint (c : ℕ) : Bool :=
  c < 0x10000 && isSpace (BitVec.ofNat 16 c) || classes.isPunctuation c || classes.isSymbol c ||
    0x30 ≤ c && c ≤ 0x39

/-- `IGNORABLE`. -/
def isIgnorable (s : Text) : Bool := (codePoints s).all (isIgnorablePoint classes)

/-- `rest.split(known).join('')`. -/
def withoutKnown (rest known : Text) : Text := if known = [] then rest else Cuts.without known rest

def unclaimed (content : Content) (s : Text) : Text := trim (content.known.foldl withoutKnown s)

def judgeFact (surface : Surface) (content : Content) (fact : RenderedFact) : Option Verdict :=
  let s := trim fact.text
  if s = [] ∨ isIgnorable classes s then none
  else if s ∈ content.copy ∨ s ∈ content.allowlist then none
  else
    let left := unclaimed content s
    if left = [] ∨ isIgnorable classes left then none
    else some ⟨.m21, surface.id, text ("a string reached the screen that the client neither " ++
      "authored nor declared as content: ") ++ units (serializeString (left.take 80)), some fact⟩

def judgeCopy (surface : Surface) (content : Content) : List Verdict :=
  surface.facts.filterMap (judgeFact classes surface content)

end Judge

section Points

variable {s a b : Text}

def pair (u v : CodeUnit) : Bool := isHigh u && isLow v

theorem codePoints_append (h : Cuts.Parted pair a b) :
    codePoints (a ++ b) = codePoints a ++ codePoints b := by
  induction a using codePoints.induct with
  | case1 => rfl
  | case2 u =>
    cases b with
    | nil => rfl
    | cons v b =>
      have hpair : (isHigh u && isLow v) = false := h u rfl v rfl
      simp [codePoints, hpair]
  | case3 u v rest hpair ih =>
    have h' : Cuts.Parted pair ([u, v] ++ rest) b := h
    simp only [List.cons_append, codePoints, hpair, if_true, ih h'.last]
  | case4 u v rest hpair ih =>
    have h' : Cuts.Parted pair ([u] ++ v :: rest) b := h
    have ih' := ih h'.last
    rw [List.cons_append] at ih'
    simp only [List.cons_append, codePoints, hpair, Bool.false_eq_true, if_false, ih']

/-- A high surrogate at the end of a text is alone. -/
theorem last_mem_codePoints {u : CodeUnit} (hlast : u ∈ s.getLast?) (hhigh : isHigh u = true) :
    u.toNat ∈ codePoints s := by
  induction s using codePoints.induct with
  | case1 => cases hlast
  | case2 v =>
    cases hlast
    exact List.mem_cons_self
  | case3 v w rest hpair ih =>
    simp only [codePoints, hpair, if_true]
    cases rest with
    | nil =>
      have hw : w = u := Option.some.inj hlast
      have hlow : isLow u = true := hw ▸ (Bool.and_eq_true_iff.mp hpair).2
      simp only [isHigh, isLow, Bool.and_eq_true, decide_eq_true_eq] at hhigh hlow
      omega
    | cons x rest => exact List.mem_cons_of_mem _ (ih (by simpa using hlast))
  | case4 v w rest hpair ih =>
    simp only [codePoints, hpair, Bool.false_eq_true, if_false]
    exact List.mem_cons_of_mem _ (ih (by simpa using hlast))

end Points

section Ignorable

variable {classes : PointClasses} {s a b : Text}

theorem isIgnorablePoint_surrogate {c : ℕ} (h : isSurrogate c = true) :
    isIgnorablePoint classes c = false := by
  have hclasses := classes.surrogate c h
  simp only [isSurrogate, Bool.and_eq_true, decide_eq_true_eq] at h
  have hval : (BitVec.ofNat 16 c).toNat = c := by
    rw [BitVec.toNat_ofNat]
    omega
  have hspace : (decide (c < 0x10000) && isSpace (BitVec.ofNat 16 c)) = false := by
    rw [Bool.and_eq_false_iff]
    refine .inr ?_
    simp only [isSpace, hval, List.mem_cons, List.not_mem_nil, or_false, Bool.or_eq_false_iff,
      decide_eq_false_iff_not, Bool.and_eq_false_iff]
    omega
  rw [Bool.or_eq_false_iff] at hclasses
  rw [isIgnorablePoint, hspace, hclasses.1, hclasses.2]
  simp only [Bool.false_or, Bool.and_eq_false_iff, decide_eq_false_iff_not]
  omega

theorem isIgnorable_blanks : Cuts.Blanks pair (isIgnorable classes · = true) where
  nil := rfl
  append {a b} ha hb := by
    rw [isIgnorable, List.all_eq_true] at ha hb ⊢
    have hparted : Cuts.Parted pair a b := by
      intro u hu v hv
      rw [pair, Bool.and_eq_false_iff]
      refine .inl (Bool.eq_false_iff.mpr fun hhigh ↦ ?_)
      have hsurrogate : isSurrogate u.toNat = true := by
        simp only [isHigh, Bool.and_eq_true, decide_eq_true_eq] at hhigh
        simp only [isSurrogate, Bool.and_eq_true, decide_eq_true_eq]
        omega
      have hignorable := ha _ (last_mem_codePoints hu hhigh)
      rw [isIgnorablePoint_surrogate hsurrogate] at hignorable
      cases hignorable
    rw [codePoints_append hparted]
    exact List.forall_mem_append.mpr ⟨ha, hb⟩
  parted {a b} h hparted := by
    rw [isIgnorable, List.all_eq_true, codePoints_append hparted] at h
    rw [isIgnorable, isIgnorable, List.all_eq_true, List.all_eq_true]
    exact List.forall_mem_append.mp h

theorem isIgnorable_space {u : CodeUnit} (h : isSpace u = true) : isIgnorable classes [u] = true := by
  have hlt := u.isLt
  simp [isIgnorable, codePoints, isIgnorablePoint, BitVec.ofNat_toNat, h, hlt]

theorem not_high_of_space {u : CodeUnit} (h : isSpace u = true) : isHigh u = false := by
  rw [Bool.eq_false_iff]
  intro hhigh
  simp only [isHigh, Bool.and_eq_true, decide_eq_true_eq] at hhigh
  simp only [isSpace, List.mem_cons, List.not_mem_nil, or_false, Bool.or_eq_true,
    decide_eq_true_eq, Bool.and_eq_true] at h
  omega

theorem not_low_of_space {u : CodeUnit} (h : isSpace u = true) : isLow u = false := by
  rw [Bool.eq_false_iff]
  intro hlow
  simp only [isLow, Bool.and_eq_true, decide_eq_true_eq] at hlow
  simp only [isSpace, List.mem_cons, List.not_mem_nil, or_false, Bool.or_eq_true,
    decide_eq_true_eq, Bool.and_eq_true] at h
  omega

theorem isIgnorable_spaces (h : ∀ u ∈ s, isSpace u = true) : isIgnorable classes s = true := by
  induction s with
  | nil => rfl
  | cons u s ih =>
    obtain ⟨hu, hs⟩ := List.forall_mem_cons.mp h
    exact isIgnorable_blanks.append (isIgnorable_space hu) (ih hs)

/-- Trimming takes away what says nothing, and no more than that. -/
theorem isIgnorable_trim : isIgnorable classes (trim s) = true ↔ isIgnorable classes s = true := by
  have hblank := @isIgnorable_blanks classes
  have hlead : ∀ u ∈ s.takeWhile isSpace, isSpace u = true := fun u hu ↦ List.mem_takeWhile_imp hu
  have htrail : ∀ u ∈ (s.dropWhile isSpace).rtakeWhile isSpace, isSpace u = true :=
    fun u hu ↦ List.mem_rtakeWhile_imp hu
  have hs : s = s.takeWhile isSpace ++ (trim s ++ (s.dropWhile isSpace).rtakeWhile isSpace) := by
    rw [trim, List.rdropWhile_append_rtakeWhile, List.takeWhile_append_dropWhile]
  constructor
  · intro h
    rw [hs]
    exact hblank.append (isIgnorable_spaces hlead) (hblank.append h (isIgnorable_spaces htrail))
  · intro h
    rw [hs] at h
    have hfront : Cuts.Parted pair (s.takeWhile isSpace)
        (trim s ++ (s.dropWhile isSpace).rtakeWhile isSpace) := by
      intro u hu v _
      rw [pair, not_high_of_space (hlead u (List.mem_of_getLast? hu)), Bool.false_and]
    have hback : Cuts.Parted pair (trim s) ((s.dropWhile isSpace).rtakeWhile isSpace) := by
      intro u _ v hv
      rw [pair, not_low_of_space (htrail v (List.mem_of_head? hv)), Bool.and_false]
    exact (hblank.parted (hblank.parted h hfront).2 hback).1

end Ignorable

section Reports

variable {classes : PointClasses} {content content' : Content} {surface : Surface}
  {fact : RenderedFact} {s : Text}

/-- A text put together from what is known and what says nothing. -/
def Claimed (classes : PointClasses) (content : Content) (s : Text) : Prop :=
  Cuts.Cut (isIgnorable classes · = true) content.known s

/-- The deletions leave the texts of a surface in order: those that are judged by what is left. -/
def Orderly (classes : PointClasses) (content : Content) (s : Text) : Prop :=
  isIgnorable classes s = true ∨ s ∈ content.known ∨
    Cuts.Clean pair (content.known.filter (· ≠ [])) [s]

theorem mem_known : s ∈ content.known ↔ s ∈ content.copy ∨ s ∈ content.allowlist := by
  rw [Content.known, List.mem_append, List.mem_eraseDups, List.mem_eraseDups]

theorem foldl_withoutKnown (known : List Text) (s : Text) : known.foldl withoutKnown s =
    (known.filter (· ≠ [])).foldl (fun rest k ↦ Cuts.without k rest) s := by
  induction known generalizing s with
  | nil => rfl
  | cons k known ih =>
    rw [List.foldl_cons, ih]
    by_cases hk : k = []
    · rw [withoutKnown, if_pos hk, List.filter_cons_of_neg (by simpa using hk)]
    · rw [withoutKnown, if_neg hk, List.filter_cons_of_pos (by simpa using hk), List.foldl_cons]

/-- An empty text is no piece that matters. -/
theorem claimed_iff_filter : Claimed classes content s ↔
    Cuts.Cut (isIgnorable classes · = true) (content.known.filter (· ≠ [])) s := by
  constructor
  · rintro ⟨parts, hs, hparts⟩
    refine ⟨parts, hs, fun q hq ↦ ?_⟩
    by_cases hnil : q = []
    · exact .inr (hnil ▸ rfl)
    · exact (hparts q hq).imp_left fun hmem ↦ List.mem_filter.mpr ⟨hmem, by simpa using hnil⟩
  · exact Cuts.Cut.mono fun k hk ↦ List.mem_of_mem_filter hk

theorem isIgnorable_nil : isIgnorable classes [] = true := rfl

/-- What is left of an orderly text is nothing to report where the text is claimed. -/
theorem isIgnorable_unclaimed (h : Cuts.Clean pair (content.known.filter (· ≠ [])) [s]) :
    isIgnorable classes (unclaimed content s) = true ↔ Claimed classes content s := by
  have hknown : ∀ k ∈ content.known.filter (· ≠ []), k ≠ [] := fun k hk ↦ by
    simpa using (List.mem_filter.mp hk).2
  have hcut := Cuts.blank_iff_cut (@isIgnorable_blanks classes) hknown h
  rw [List.flatten_singleton, List.forall_mem_singleton, ← foldl_withoutKnown] at hcut
  rw [unclaimed, isIgnorable_trim, hcut, claimed_iff_filter]

theorem judgeFact_eq_none_iff (h : Orderly classes content (trim fact.text)) :
    judgeFact classes surface content fact = none ↔ Claimed classes content (trim fact.text) := by
  have hnothing {s : Text} : s = [] ∨ isIgnorable classes s = true ↔ isIgnorable classes s = true :=
    or_iff_right_of_imp fun hnil ↦ hnil ▸ isIgnorable_nil
  unfold judgeFact
  dsimp only
  split_ifs with hignorable hknown hleft
  · exact iff_of_true rfl (.of_part (.inr (hnothing.mp hignorable)))
  · exact iff_of_true rfl (.of_part (.inl (mem_known.mpr hknown)))
  all_goals
    have hclean := (h.resolve_left (hnothing.not.mp hignorable)).resolve_left (mem_known.not.mpr hknown)
  · exact iff_of_true rfl ((isIgnorable_unclaimed hclean).mp (hnothing.mp hleft))
  · refine iff_of_false not_false ((isIgnorable_unclaimed hclean).not.mp ?_)
    exact hnothing.not.mp hleft

theorem fact_of_judgeFact {v : Verdict} (h : judgeFact classes surface content fact = some v) :
    v.fact = some fact := by
  unfold judgeFact at h
  dsimp only at h
  split_ifs at h
  cases h
  rfl

/-- The facts that are reported, in order. -/
def reported (classes : PointClasses) (surface : Surface) (content : Content) : List RenderedFact :=
  (judgeCopy classes surface content).filterMap (·.fact)

theorem reported_eq : reported classes surface content =
    surface.facts.filter fun fact ↦ (judgeFact classes surface content fact).isSome := by
  rw [reported, judgeCopy]
  induction surface.facts with
  | nil => rfl
  | cons fact facts ih =>
    cases hjudge : judgeFact classes surface content fact with
    | none => simp [hjudge, ih]
    | some v => simp [hjudge, ih, fact_of_judgeFact hjudge]

open Classical in
/-- Where the deletions are orderly, what is reported is what is not put together from known strings
and what says nothing: the order of the lists is of no matter, and a longer list reports no more. -/
theorem reported_iff_claimed (h : ∀ fact ∈ surface.facts, Orderly classes content (trim fact.text))
    (h' : ∀ fact ∈ surface.facts, Orderly classes content' (trim fact.text)) :
    reported classes surface content =
        surface.facts.filter (fun fact ↦ ¬Claimed classes content (trim fact.text)) ∧
      ((∀ s, s ∈ content.known ↔ s ∈ content'.known) →
        reported classes surface content' = reported classes surface content) ∧
      ((∀ s ∈ content.known, s ∈ content'.known) →
        (reported classes surface content').Sublist (reported classes surface content)) := by
  have heq {content : Content} (h : ∀ fact ∈ surface.facts, Orderly classes content (trim fact.text)) :
      reported classes surface content =
        surface.facts.filter (fun fact ↦ ¬Claimed classes content (trim fact.text)) := by
    rw [reported_eq]
    refine List.filter_congr fun fact hfact ↦ ?_
    rw [Bool.eq_iff_iff, decide_eq_true_eq, Option.isSome_iff_ne_none, ne_eq,
      judgeFact_eq_none_iff (h fact hfact)]
  have hmono {content content' : Content} (hsub : ∀ s ∈ content.known, s ∈ content'.known) (s : Text)
      (hs : Claimed classes content s) : Claimed classes content' s := Cuts.Cut.mono hsub hs
  rw [heq h, heq h']
  refine ⟨rfl, fun hsame ↦ ?_, fun hsub ↦ ?_⟩
  · refine List.filter_congr fun fact _ ↦ ?_
    rw [decide_eq_decide]
    exact not_congr ⟨hmono (fun s ↦ (hsame s).mpr) _, hmono (fun s ↦ (hsame s).mp) _⟩
  · refine List.monotone_filter_right _ fun fact hfact ↦ ?_
    rw [decide_eq_true_eq] at hfact ⊢
    exact fun hclaimed ↦ hfact (hmono hsub _ hclaimed)

end Reports

namespace Sample

def ascii : PointClasses where
  isPunctuation c := c ∈ [0x2C, 0x2D, 0x2E]
  isSymbol c := c ∈ [0x2B]
  surrogate c hc := by
    simp only [isSurrogate, Bool.and_eq_true, decide_eq_true_eq] at hc
    simp only [List.mem_cons, List.not_mem_nil, or_false, Bool.or_eq_false_iff,
      decide_eq_false_iff_not]
    omega

def line (s : String) : RenderedFact := ⟨text "line", [], [], text s, 0, text "0"⟩

def screen : Surface := ⟨text "terminal", [line " Due - Ana ", line "Due Bo"]⟩

def content : Content := ⟨[text "Ana"], [text "Due"]⟩

def swapped : Content := ⟨[text "Due"], [text "Ana"]⟩

theorem orderly_of_clean {content : Content} (h : (screen.facts.all fun fact ↦
      decide (Cuts.Clean pair (content.known.filter (· ≠ [])) [trim fact.text])) = true) :
    ∀ fact ∈ screen.facts, Orderly ascii content (trim fact.text) := fun fact hfact ↦
  .inr (.inr (of_decide_eq_true (List.all_eq_true.mp h fact hfact)))

theorem swapped_reports : reported ascii screen swapped = reported ascii screen content := by
  have hsame : ∀ s, s ∈ content.known ↔ s ∈ swapped.known := by
    intro s
    simp only [mem_known, content, swapped]
    exact or_comm
  exact (reported_iff_claimed (orderly_of_clean (by decide +kernel))
    (orderly_of_clean (by decide +kernel))).2.1 hsame

/-- A known string that two remnants make together hides what nobody claimed. -/
example : judgeFact ascii screen ⟨[text "ac"], [text "b"]⟩ (line "abc") = none := by decide +kernel

end Sample

end Servanda.Judge
