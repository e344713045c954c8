import Mathlib.Data.List.Infix

/-!
Texts cut into pieces that are known or blank, and known pieces deleted from a text one after
another: when what the deletions leave says whether the text can be cut.
-/

namespace Servanda.Cuts

variable {α : Type}

/-- No two symbols that make one meet where the texts do. -/
def Parted (pair : α → α → Bool) (a b : List α) : Prop :=
  ∀ x ∈ a.getLast?, ∀ y ∈ b.head?, pair x y = false

instance (pair : α → α → Bool) (a b : List α) : Decidable (Parted pair a b) := by
  unfold Parted
  infer_instance

theorem Parted.inner {pair : α → α → Bool} {pre a b post : List α}
    (h : Parted pair (pre ++ a) (b ++ post)) : Parted pair a b := by
  intro x hx y hy
  refine h x ?_ y ?_
  · rw [List.getLast?_append, Option.mem_def.mp hx, Option.some_or]
    rfl
  · rw [List.head?_append, Option.mem_def.mp hy, Option.some_or]
    rfl

theorem Parted.last {pair : α → α → Bool} {pre a b : List α} (h : Parted pair (pre ++ a) b) :
    Parted pair a b := by
  rw [← List.append_nil b] at h
  exact h.inner

/-- Blank texts make blank texts, and are cut into such between their symbols. -/
structure Blanks (pair : α → α → Bool) (blank : List α → Prop) : Prop where
  nil : blank []
  append {a b : List α} : blank a → blank b → blank (a ++ b)
  parted {a b : List α} : blank (a ++ b) → Parted pair a b → blank a ∧ blank b

/-- A text can be cut into consecutive pieces each of which is known or blank. -/
def Cut (blank : List α → Prop) (known : List (List α)) (s : List α) : Prop :=
  ∃ parts : List (List α), parts.flatten = s ∧ ∀ q ∈ parts, q ∈ known ∨ blank q

section Cut

variable {blank : List α → Prop} {known later : List (List α)} {k a b s : List α}

theorem Cut.nil : Cut blank known [] := ⟨[], rfl, List.forall_mem_nil _⟩

theorem Cut.of_part (h : s ∈ known ∨ blank s) : Cut blank known s :=
  ⟨[s], List.append_nil s, fun _ hq ↦ List.mem_singleton.mp hq ▸ h⟩

theorem Cut.append (ha : Cut blank known a) (hb : Cut blank known b) :
    Cut blank known (a ++ b) := by
  obtain ⟨parts, rfl, hparts⟩ := ha
  obtain ⟨parts', rfl, hparts'⟩ := hb
  exact ⟨parts ++ parts', List.flatten_append, List.forall_mem_append.mpr ⟨hparts, hparts'⟩⟩

theorem Cut.mono (hsub : ∀ k ∈ known, k ∈ later) (h : Cut blank known s) : Cut blank later s := by
  obtain ⟨parts, hs, hparts⟩ := h
  exact ⟨parts, hs, fun q hq ↦ (hparts q hq).imp_left (hsub q)⟩

theorem cut_nil_iff {pair : α → α → Bool} (hblank : Blanks pair blank) :
    Cut blank [] s ↔ blank s := by
  refine ⟨?_, fun h ↦ .of_part (.inr h)⟩
  rintro ⟨parts, rfl, hparts⟩
  induction parts with
  | nil => exact hblank.nil
  | cons q parts ih =>
    have hq := (hparts q List.mem_cons_self).resolve_left List.not_mem_nil
    exact hblank.append hq (ih fun r hr ↦ hparts r (List.mem_cons_of_mem _ hr))

/-- What holds a known piece nowhere is cut without it. -/
theorem Cut.of_absent (h : Cut blank (k :: later) s) (habsent : ¬k <:+: s) :
    Cut blank later s := by
  obtain ⟨parts, rfl, hparts⟩ := h
  refine ⟨parts, rfl, fun q hq ↦ (hparts q hq).imp_left fun hmem ↦ ?_⟩
  refine (List.mem_cons.mp hmem).resolve_left fun heq ↦ habsent ?_
  exact heq ▸ List.infix_of_mem_flatten hq

end Cut

/-- Two occurrences are one, or share no symbol. -/
def Apart (i : ℕ) (k : List α) (j : ℕ) (k' : List α) : Prop :=
  i = j ∧ k' = k ∨ i + k.length ≤ j ∨ j + k'.length ≤ i

/-- Deleting a piece from a text disturbs no other: an occurrence of the piece shares no symbol with
one of a piece that is still to be deleted, and parts no pair. -/
def Undisturbed (pair : α → α → Bool) (k : List α) (later : List (List α)) (s : List α) : Prop :=
  ∀ i < s.length, k <+: s.drop i →
    (∀ k' ∈ k :: later, ∀ j < s.length, k' <+: s.drop j → Apart i k j k') ∧
    Parted pair (s.take i) (s.drop i) ∧
    Parted pair (s.take (i + k.length)) (s.drop (i + k.length))

section Around

variable {pair : α → α → Bool} {blank : List α → Prop} {later : List (List α)} {k s : List α}

/-- What comes after an occurrence is cut, of which no part that sticks out is known. -/
theorem cut_after (hblank : Blanks pair blank) (hk : k ≠ []) (h : Undisturbed pair k later s) {i : ℕ}
    (hi : i < s.length) (hoccurs : k <+: s.drop i) {parts : List (List α)} {pre : List α}
    (hs : s = pre ++ parts.flatten) (hparts : ∀ q ∈ parts, q ∈ k :: later ∨ blank q)
    (hfrom : i ≤ pre.length) (hto : pre.length ≤ i + k.length) :
    Cut blank (k :: later) (s.drop (i + k.length)) := by
  obtain ⟨hapart, -, hafter⟩ := h i hi hoccurs
  have hpos := List.length_pos_iff.mpr hk
  induction parts generalizing pre with
  | nil =>
    have hend := hoccurs.length_le
    rw [List.length_drop] at hend
    rw [List.flatten_nil, List.append_nil] at hs
    rw [List.drop_of_length_le (by rw [hs]; omega)]
    exact .nil
  | cons q rest ih =>
    rw [List.flatten_cons, ← List.append_assoc] at hs
    have hrest := fun r hr ↦ hparts r (List.mem_cons_of_mem _ hr)
    by_cases hinside : pre.length + q.length ≤ i + k.length
    · exact ih hs hrest (by rw [List.length_append]; omega) (by rw [List.length_append]; omega)
    · by_cases hends : pre.length = i + k.length
      · rw [hs, ← hends, List.append_assoc, List.drop_left]
        exact (Cut.of_part (hparts q List.mem_cons_self)).append ⟨rest, rfl, hrest⟩
      · have hq : blank q := by
          refine (hparts q List.mem_cons_self).resolve_left fun hmem ↦ ?_
          have hlt : pre.length < s.length := by
            rw [hs, List.length_append, List.length_append]
            omega
          have hdrop : s.drop pre.length = q ++ rest.flatten := by
            rw [hs, List.append_assoc, List.drop_left]
          have hwhere := hapart q hmem pre.length hlt (hdrop ▸ List.prefix_append _ _)
          obtain ⟨heq, rfl⟩ | hwhere | hwhere := hwhere <;> omega
        obtain ⟨x, y, rfl, hx⟩ : ∃ x y, q = x ++ y ∧ (pre ++ x).length = i + k.length := by
          refine ⟨q.take (i + k.length - pre.length), q.drop (i + k.length - pre.length),
            (List.take_append_drop _ _).symm, ?_⟩
          rw [List.length_append, List.length_take]
          omega
        rw [← List.append_assoc, List.append_assoc] at hs
        rw [hs, List.take_left' hx, List.drop_left' hx] at hafter
        rw [hs, List.drop_left' hx]
        exact (Cut.of_part (.inr (hblank.parted hq hafter.inner).2)).append ⟨rest, rfl, hrest⟩

/-- What comes before an occurrence and what comes after it are cut where the text is. -/
theorem cut_around (hblank : Blanks pair blank) (hk : k ≠ []) (h : Undisturbed pair k later s)
    {parts : List (List α)} {pre m b : List α} (hs : s = pre ++ (m ++ (k ++ b)))
    (hflat : parts.flatten = m ++ (k ++ b)) (hparts : ∀ q ∈ parts, q ∈ k :: later ∨ blank q) :
    Cut blank (k :: later) m ∧ Cut blank (k :: later) b := by
  have hpos := List.length_pos_iff.mpr hk
  induction parts generalizing pre m with
  | nil =>
    have hnil := congrArg List.length hflat
    simp only [List.flatten_nil, List.length_append, List.length_nil] at hnil
    omega
  | cons q rest ih =>
    have hq := hparts q List.mem_cons_self
    have hrest := fun r hr ↦ hparts r (List.mem_cons_of_mem _ hr)
    rw [List.flatten_cons] at hflat
    obtain ⟨c, rfl, hc⟩ | ⟨c, rfl, hc⟩ := List.append_eq_append_iff.mp hflat
    · have hs' : s = (pre ++ q) ++ (c ++ (k ++ b)) := by simp only [hs, List.append_assoc]
      obtain ⟨hfront, hback⟩ := ih hs' hc hrest
      exact ⟨(Cut.of_part hq).append hfront, hback⟩
    · have hi : (pre ++ m).length < s.length := by
        simp only [hs, List.length_append]
        omega
      have hat : s = (pre ++ m) ++ (k ++ b) := by rw [hs, List.append_assoc]
      have hoccurs : k <+: s.drop (pre ++ m).length := by
        rw [hat, List.drop_left]
        exact List.prefix_append k b
      have hback : s.drop ((pre ++ m).length + k.length) = b := by
        rw [hat, List.drop_length_add_append, List.drop_left]
      have hwhole : s = (pre ++ m) ++ (c ++ rest.flatten) := by rw [hat, hc]
      obtain ⟨hapart, hparted, -⟩ := h _ hi hoccurs
      obtain hmem | hblankq := hq
      · -- A known part that starts before the occurrence and is not over there is the occurrence.
        have hstart : pre.length < s.length := by
          rw [List.length_append] at hi
          omega
        have hhere : m ++ c <+: s.drop pre.length := by
          rw [hwhole, List.append_assoc, List.drop_left, ← List.append_assoc]
          exact List.prefix_append _ _
        have hwhere := hapart _ hmem _ hstart hhere
        simp only [Apart, List.length_append] at hwhere
        obtain ⟨hplace, hsame⟩ | hwhere | hwhere := hwhere
        · have hm : m = [] := List.length_eq_zero_iff.mp (by omega)
          rw [hm, List.nil_append] at hsame
          rw [hsame] at hc
          rw [hm, List.append_cancel_left hc]
          exact ⟨.nil, rest, rfl, hrest⟩
        · omega
        · have hnil : c = [] := List.length_eq_zero_iff.mp (by omega)
          rw [hnil, List.append_nil] at hmem
          refine ⟨.of_part (.inl hmem), ?_⟩
          rw [hnil, List.nil_append] at hc
          have hs' : s = (pre ++ m) ++ ([] ++ (k ++ b)) := by rw [hat, List.nil_append]
          exact (ih hs' hc.symm hrest).2
      · rw [hwhole, List.take_left, List.drop_left] at hparted
        obtain ⟨hm, hblankc⟩ := hblank.parted hblankq hparted.inner
        have hs' : s = (pre ++ m) ++ (c :: rest).flatten := hwhole
        have hparts' : ∀ q ∈ c :: rest, q ∈ k :: later ∨ blank q :=
          List.forall_mem_cons.mpr ⟨.inr hblankc, hrest⟩
        have hafter := cut_after hblank hk h hi hoccurs hs' hparts' le_rfl (Nat.le_add_right _ _)
        exact ⟨.of_part (.inr hm), hback ▸ hafter⟩

theorem Undisturbed.rest {a b : List α} (h : Undisturbed pair k later (a ++ (k ++ b))) :
    Undisturbed pair k later b := by
  intro i hi hoccurs
  have hassoc : a ++ (k ++ b) = (a ++ k) ++ b := (List.append_assoc _ _ _).symm
  have hdrop (j : ℕ) : (a ++ (k ++ b)).drop ((a ++ k).length + j) = b.drop j := by
    rw [hassoc, List.drop_length_add_append]
  have htake (j : ℕ) : (a ++ (k ++ b)).take ((a ++ k).length + j) = (a ++ k) ++ b.take j := by
    rw [hassoc, List.take_length_add_append]
  have hlt (j : ℕ) (hj : j < b.length) : (a ++ k).length + j < (a ++ (k ++ b)).length := by
    rw [hassoc]
    simp only [List.length_append]
    omega
  obtain ⟨hapart, hbefore, hafter⟩ := h _ (hlt i hi) (by rwa [hdrop])
  rw [Nat.add_assoc, hdrop, htake] at hafter
  rw [hdrop, htake] at hbefore
  rw [← List.append_nil (b.drop _)] at hbefore hafter
  refine ⟨fun k' hk' j hj hoccurs' ↦ ?_, hbefore.inner, hafter.inner⟩
  have hwhere := hapart k' hk' _ (hlt j hj) (by rwa [hdrop])
  refine hwhere.imp (fun hsame ↦ ⟨by omega, hsame.2⟩) fun hwhere ↦ ?_
  omega

end Around

/-- No pair is made where the stretches meet. -/
def Unpaired (pair : α → α → Bool) : List (List α) → Prop
  | [] => True
  | s :: pieces => Parted pair s pieces.flatten ∧ Unpaired pair pieces

theorem blank_flatten_iff {pair : α → α → Bool} {blank : List α → Prop} {pieces : List (List α)}
    (hblank : Blanks pair blank) (h : Unpaired pair pieces) :
    blank pieces.flatten ↔ ∀ s ∈ pieces, blank s := by
  induction pieces with
  | nil => exact iff_of_true hblank.nil (List.forall_mem_nil _)
  | cons s pieces ih =>
    rw [List.flatten_cons, List.forall_mem_cons, ← ih h.2]
    exact ⟨fun hall ↦ hblank.parted hall h.1, fun hall ↦ hblank.append hall.1 hall.2⟩

variable [DecidableEq α]

instance (i : ℕ) (k : List α) (j : ℕ) (k' : List α) : Decidable (Apart i k j k') := by
  unfold Apart
  infer_instance

instance (pair : α → α → Bool) (k : List α) (later : List (List α)) (s : List α) :
    Decidable (Undisturbed pair k later s) := by
  unfold Undisturbed
  infer_instance

/-- The text between the occurrences of a piece, from left to right. -/
def splitBy (k : List α) : ℕ → List α → List (List α)
  | _, [] => [[]]
  | skip + 1, _ :: s => splitBy k skip s
  | 0, x :: s =>
    if k.isPrefixOf (x :: s) then [] :: splitBy k (k.length - 1) s
    else (splitBy k 0 s).modifyHead (x :: ·)

def without (k s : List α) : List α := (splitBy k 0 s).flatten

section Split

variable {k s : List α}

theorem splitBy_drop (k s : List α) (n : ℕ) : splitBy k n s = splitBy k 0 (s.drop n) := by
  induction s generalizing n with
  | nil => cases n <;> rfl
  | cons x s ih =>
    cases n with
    | zero => rfl
    | succ n => exact ih n

/-- A text holds a piece nowhere, or is split at its first occurrence. -/
theorem splitBy_cases (hk : k ≠ []) (s : List α) :
    (¬k <:+: s ∧ splitBy k 0 s = [s]) ∨
      ∃ a b, s = a ++ (k ++ b) ∧ ¬k <:+: a ∧ splitBy k 0 s = a :: splitBy k 0 b := by
  induction s with
  | nil => exact .inl ⟨fun h ↦ hk (List.eq_nil_of_infix_nil h), rfl⟩
  | cons x s ih =>
    by_cases hprefix : k.isPrefixOf (x :: s) = true
    · obtain ⟨b, hb⟩ := List.isPrefixOf_iff_prefix.mp hprefix
      refine .inr ⟨[], b, hb.symm, fun h ↦ hk (List.eq_nil_of_infix_nil h), ?_⟩
      rw [splitBy, if_pos hprefix, splitBy_drop]
      cases k with
      | nil => exact absurd rfl hk
      | cons y k =>
        have hs : k ++ b = s := (List.cons.inj hb).2
        rw [← hs, List.length_cons, Nat.add_sub_cancel, List.drop_left]
    · have hnot : ¬k <+: x :: s := fun h ↦ hprefix (List.isPrefixOf_iff_prefix.mpr h)
      rw [splitBy, if_neg hprefix]
      obtain ⟨habsent, hsplit⟩ | ⟨a, b, hs, habsent, hsplit⟩ := ih
      · rw [hsplit]
        refine .inl ⟨fun h ↦ ?_, rfl⟩
        exact (List.infix_cons_iff.mp h).elim hnot habsent
      · rw [hsplit]
        refine .inr ⟨x :: a, b, by rw [hs]; rfl, fun h ↦ ?_, rfl⟩
        refine (List.infix_cons_iff.mp h).elim (fun h ↦ hnot ?_) habsent
        rw [hs]
        exact h.trans (List.prefix_append (x :: a) (k ++ b))

end Split

section Clean

variable {pair : α → α → Bool} {blank : List α → Prop} {known later : List (List α)} {k s : List α}
  {pieces : List (List α)}

/-- A text is cut where, undisturbed, all is that a deletion leaves of it. -/
theorem cut_splitBy (hblank : Blanks pair blank) (hk : k ≠ []) (h : Undisturbed pair k later s) :
    Cut blank (k :: later) s ↔ ∀ r ∈ splitBy k 0 s, Cut blank later r := by
  induction hn : s.length using Nat.strong_induction_on generalizing s with
  | h n ih =>
    have hlater : ∀ x ∈ later, x ∈ k :: later := fun x hx ↦ List.mem_cons_of_mem _ hx
    obtain ⟨habsent, hsplit⟩ | ⟨a, b, rfl, habsent, hsplit⟩ := splitBy_cases hk s
    · rw [hsplit, List.forall_mem_singleton]
      exact ⟨fun hcut ↦ hcut.of_absent habsent, fun hcut ↦ hcut.mono hlater⟩
    · have hpos := List.length_pos_iff.mpr hk
      have hshort : b.length < n := by
        simp only [List.length_append] at hn
        omega
      rw [hsplit, List.forall_mem_cons, ← ih _ hshort h.rest rfl]
      constructor
      · rintro ⟨parts, hflat, hparts⟩
        obtain ⟨hfront, hback⟩ := cut_around hblank hk h (List.nil_append _).symm hflat hparts
        exact ⟨hfront.of_absent habsent, hback⟩
      · intro hcut
        exact (hcut.1.mono hlater).append ((Cut.of_part (.inl List.mem_cons_self)).append hcut.2)

/-- The stretches of a text from which pieces have been deleted: no deletion disturbs another piece,
none finds a piece that stretches make together, and they make no pair in the end. -/
def Clean (pair : α → α → Bool) : List (List α) → List (List α) → Prop
  | [], pieces => Unpaired pair pieces
  | k :: later, pieces => (∀ s ∈ pieces, Undisturbed pair k later s) ∧
      without k pieces.flatten = (pieces.map (without k)).flatten ∧
      Clean pair later (pieces.flatMap (splitBy k 0))

instance decidableUnpaired (pair : α → α → Bool) :
    (pieces : List (List α)) → Decidable (Unpaired pair pieces)
  | [] => isTrue trivial
  | s :: pieces =>
    have := decidableUnpaired pair pieces
    inferInstanceAs (Decidable (Parted pair s pieces.flatten ∧ Unpaired pair pieces))

instance decidableClean (pair : α → α → Bool) :
    (known pieces : List (List α)) → Decidable (Clean pair known pieces)
  | [], pieces => inferInstanceAs (Decidable (Unpaired pair pieces))
  | k :: later, pieces =>
    have := decidableClean pair later (pieces.flatMap (splitBy k 0))
    inferInstanceAs (Decidable ((∀ s ∈ pieces, Undisturbed pair k later s) ∧
      without k pieces.flatten = (pieces.map (without k)).flatten ∧
      Clean pair later (pieces.flatMap (splitBy k 0))))

theorem flatten_flatMap_splitBy (k : List α) (pieces : List (List α)) :
    (pieces.flatMap (splitBy k 0)).flatten = (pieces.map (without k)).flatten := by
  induction pieces with
  | nil => rfl
  | cons s pieces ih =>
    rw [List.flatMap_cons, List.flatten_append, ih, List.map_cons, List.flatten_cons, without]

/-- What clean deletions leave is blank where all the stretches they began with can be cut. -/
theorem blank_iff_cut (hblank : Blanks pair blank) (hknown : ∀ k ∈ known, k ≠ [])
    (h : Clean pair known pieces) :
    blank (known.foldl (fun s k ↦ without k s) pieces.flatten) ↔
      ∀ s ∈ pieces, Cut blank known s := by
  induction known generalizing pieces with
  | nil =>
    rw [List.foldl_nil, blank_flatten_iff hblank h]
    exact forall₂_congr fun s _ ↦ (cut_nil_iff hblank).symm
  | cons k later ih =>
    obtain ⟨hundisturbed, hwithin, hclean⟩ := h
    obtain ⟨hk, hlater⟩ := List.forall_mem_cons.mp hknown
    rw [List.foldl_cons, hwithin, ← flatten_flatMap_splitBy, ih hlater hclean,
      List.forall_mem_flatMap]
    exact forall₂_congr fun s hs ↦ (cut_splitBy hblank hk (hundisturbed s hs)).symm

end Clean

end Servanda.Cuts
