import Servanda.Chains
import Servanda.Vault

/-!
The files of an assertion chain: a directory of numbered names, which any number of handles append
to, each by a count, an exclusive create and a commit.
-/

namespace Servanda

/-- The files of one chain, each under its name. -/
abbrev ChainDir := Directory (Prod.fst : List Char × Assertion → List Char)

namespace ChainDir

def count (d : ChainDir) : ℕ := d.values.length

/-- The records in the order that a listing gives the names. -/
def getAssertions (d : ChainDir) : List Assertion := d.values.map Prod.snd

/-- The exclusive create: nothing where the name is taken. -/
def linkAtomic (d : ChainDir) (seq : ℕ) (a : Assertion) : Option ChainDir :=
  match d.get? (fileName seq) with
  | some _ => none
  | none => some (d.put (fileName seq, a))

def appendAssertion (d : ChainDir) (a : Assertion) : Option (ChainDir × ℕ) :=
  (d.linkAtomic d.count a).map fun d' ↦ (d', d.count)

/-- Whatever is listed after the next name is the assertion it is to hold. -/
def SortsLast (d : ChainDir) (a : Assertion) : Prop :=
  ∀ file ∈ d.values, fileName d.count < file.1 → file.2 = a

/-- A directory that holds a list, each item under its number. -/
def Numbered (d : ChainDir) (l : List Assertion) : Prop :=
  d.values.Perm (l.zipIdx.map fun x ↦ (fileName x.2, x.1))

end ChainDir

/-- Where a handle is in an append: it has counted the files, or has created its own. -/
inductive AppendPhase
  | idle
  | counted (seq : ℕ) (a : Assertion)
  | linked (a : Assertion)

/-- One chain and the handles that are open on it. -/
structure SharedChain (ι : Type) where
  dir : ChainDir
  phase : ι → AppendPhase

inductive AppendEvent (ι : Type)
  | counts (handle : ι) (a : Assertion)
  | links (handle : ι) (a : Assertion)
  | returns (handle : ι)
  | throws (handle : ι)

namespace SharedChain

open ChainDir

variable {ι : Type} [DecidableEq ι]

def start : SharedChain ι := ⟨.empty, fun _ ↦ .idle⟩

def moved (s : SharedChain ι) (handle : ι) (phase : AppendPhase) : SharedChain ι :=
  { s with phase := Function.update s.phase handle phase }

/-- One step of one handle. An append throws where the name is taken, and where git refuses the
commit. -/
inductive Step (s : SharedChain ι) : AppendEvent ι → SharedChain ι → Prop
  | counts {handle : ι} (a : Assertion) (hphase : s.phase handle = .idle) :
      Step s (.counts handle a) (s.moved handle (.counted s.dir.count a))
  | links {handle : ι} {seq : ℕ} {a : Assertion} {d : ChainDir}
      (hphase : s.phase handle = .counted seq a) (hlink : s.dir.linkAtomic seq a = some d) :
      Step s (.links handle a) { s.moved handle (.linked a) with dir := d }
  | taken {handle : ι} {seq : ℕ} {a : Assertion} (hphase : s.phase handle = .counted seq a)
      (hlink : s.dir.linkAtomic seq a = none) : Step s (.throws handle) (s.moved handle .idle)
  | returns {handle : ι} {a : Assertion} (hphase : s.phase handle = .linked a) :
      Step s (.returns handle) (s.moved handle .idle)
  | uncommitted {handle : ι} {a : Assertion} (hphase : s.phase handle = .linked a) :
      Step s (.throws handle) (s.moved handle .idle)

inductive Reached : SharedChain ι → Prop
  | start : Reached start
  | step {s s' : SharedChain ι} {event : AppendEvent ι} (h : Reached s) (hstep : Step s event s') :
      Reached s'

/-- An append extends the list by its own assertion, or throws with nothing written. -/
def Faithful (s : SharedChain ι) : AppendEvent ι → SharedChain ι → Prop
  | .links _ a, s' => s'.dir.getAssertions = s.dir.getAssertions ++ [a]
  | .throws handle, s' =>
    s'.dir.getAssertions = s.dir.getAssertions ∧ ∀ a, s.phase handle ≠ .linked a
  | _, s' => s'.dir.getAssertions = s.dir.getAssertions

/-- The name that is created is listed last, and git refuses no commit. -/
def Meets (s : SharedChain ι) : AppendEvent ι → Prop
  | .links _ a => s.dir.SortsLast a
  | .throws handle => ∀ a, s.phase handle ≠ .linked a
  | _ => True

/-- What holds of a chain whoever appends to it: its files are numbered from zero, and no handle has
counted more of them than there are. -/
structure Sound (s : SharedChain ι) : Prop where
  numbered : ∃ l, s.dir.Numbered l
  counted : ∀ handle seq a, s.phase handle = .counted seq a → seq ≤ s.dir.count

end SharedChain

theorem padStart_value (width n : ℕ) : Nat.ofDigitChars 10 (padStart width n) 0 = n := by
  rw [padStart, Nat.ofDigitChars_append, Nat.ofDigitChars_replicate_zero, Nat.mul_zero]
  exact Nat.ofDigitChars_toDigits (by decide) le_rfl

theorem fileName_injective : Function.Injective fileName := by
  intro i j h
  have hpad : padStart 4 i = padStart 4 j := List.append_cancel_right h
  rw [← padStart_value 4 i, hpad, padStart_value]

namespace ChainDir

variable {d d' : ChainDir} {l : List Assertion} {a : Assertion} {seq : ℕ}

theorem Numbered.count_eq (h : d.Numbered l) : d.count = l.length := by
  rw [count, h.length_eq, List.length_map, List.length_zipIdx]

theorem Numbered.mem_values_iff (h : d.Numbered l) {file : List Char × Assertion} :
    file ∈ d.values ↔ ∃ i, l[i]? = some file.2 ∧ file.1 = fileName i := by
  rw [List.Perm.mem_iff h, List.mem_map]
  constructor
  · rintro ⟨⟨b, i⟩, hx, rfl⟩
    exact ⟨i, List.mem_zipIdx_iff_getElem?.mp hx, rfl⟩
  · rintro ⟨i, hi, hname⟩
    exact ⟨(file.2, i), List.mem_zipIdx_iff_getElem?.mpr hi, by rw [← hname]⟩

theorem Numbered.get?_eq_none_iff (h : d.Numbered l) :
    d.get? (fileName seq) = none ↔ l.length ≤ seq := by
  rw [Directory.get?_eq_none_iff]
  constructor
  · intro hfree
    by_contra hle
    have hlt : seq < l.length := not_le.mp hle
    have hmem : (fileName seq, l[seq]) ∈ d.values :=
      h.mem_values_iff.mpr ⟨seq, List.getElem?_eq_getElem hlt, rfl⟩
    exact hfree _ hmem rfl
  · intro hle file hfile hname
    obtain ⟨i, hi, hi'⟩ := h.mem_values_iff.mp hfile
    obtain rfl := fileName_injective (hi'.symm.trans hname)
    obtain ⟨hlt, -⟩ := List.getElem?_eq_some_iff.mp hi
    omega

theorem linkAtomic_eq_some_iff : d.linkAtomic seq a = some d' ↔
    d.get? (fileName seq) = none ∧ d' = d.put (fileName seq, a) := by
  unfold linkAtomic
  cases d.get? (fileName seq) with
  | some file => simp
  | none => simpa using eq_comm

theorem Numbered.link (h : d.Numbered l) (hseq : seq ≤ d.count)
    (hlink : d.linkAtomic seq a = some d') : seq = d.count ∧ d'.Numbered (l ++ [a]) := by
  obtain ⟨hfree, rfl⟩ := linkAtomic_eq_some_iff.mp hlink
  have hle := h.get?_eq_none_iff.mp hfree
  rw [h.count_eq] at hseq ⊢
  obtain rfl : seq = l.length := le_antisymm hseq hle
  refine ⟨rfl, ?_⟩
  have hput : (d.put (fileName l.length, a)).values.Perm ((fileName l.length, a) :: d.values) :=
    Directory.values_put_perm hfree
  rw [Numbered, List.zipIdx_append, List.map_append]
  refine hput.trans ((List.Perm.cons _ h).trans ?_)
  simpa using (List.perm_append_singleton _ _).symm

/-- The directory lists what a vault that keeps the list of its appends does. -/
theorem Numbered.getAssertions_eq (h : d.Numbered l) {s : Subtree} {edgeId : Sha256Hex}
    (hfiles : s.files edgeId = l) : d.getAssertions = s.getAssertions edgeId := by
  have hsorted : (l.zipIdx.insertionSort fun x y ↦ fileName x.2 ≤ fileName y.2).Pairwise
      fun x y ↦ fileName x.2 ≤ fileName y.2 := by
    have : Std.Total fun x y : Assertion × ℕ ↦ fileName x.2 ≤ fileName y.2 :=
      ⟨fun _ _ ↦ le_total _ _⟩
    have : IsTrans (Assertion × ℕ) fun x y ↦ fileName x.2 ≤ fileName y.2 := ⟨fun _ _ _ ↦ le_trans⟩
    exact List.pairwise_insertionSort _ _
  have hperm : (d.values).Perm ((l.zipIdx.insertionSort fun x y ↦
      fileName x.2 ≤ fileName y.2).map fun x ↦ (fileName x.2, x.1)) :=
    h.trans ((List.perm_insertionSort _ _).map _).symm
  have hvalues := hperm.eq_of_pairwise (fun x y hx hy hxy hyx ↦
      Directory.name_injOn hx (hperm.mem_iff.mpr hy) (le_antisymm hxy hyx))
    (d.sorted.imp fun hlt ↦ hlt.le) (List.pairwise_map.mpr hsorted)
  rw [getAssertions, hvalues, Subtree.getAssertions, hfiles, List.map_map]
  rfl

theorem cons_eq_append_singleton_iff {α : Type} {a : α} {l : List α} :
    a :: l = l ++ [a] ↔ ∀ x ∈ l, x = a := by
  constructor
  · intro h
    induction l with
    | nil => exact List.forall_mem_nil _
    | cons b l ih =>
      obtain ⟨rfl, htail⟩ := List.cons.inj h
      exact List.forall_mem_cons.mpr ⟨rfl, ih htail⟩
  · intro h
    rw [List.eq_replicate_of_mem h, ← List.replicate_succ', ← List.replicate_succ]

/-- A file that is created extends the listing where no other record is listed after it. -/
theorem getAssertions_link_iff (hlink : d.linkAtomic d.count a = some d') :
    d'.getAssertions = d.getAssertions ++ [a] ↔ d.SortsLast a := by
  obtain ⟨hfree, rfl⟩ := linkAtomic_eq_some_iff.mp hlink
  have hput : (d.put (fileName d.count, a)).values = _ := Directory.values_put_of_absent hfree
  have hsplit := Directory.values_split_of_absent hfree
  rw [getAssertions, getAssertions, hput]
  nth_rewrite 3 [hsplit]
  rw [List.map_append, List.map_append, List.append_assoc, List.append_right_inj, List.map_cons,
    cons_eq_append_singleton_iff, List.forall_mem_map]
  simp only [List.mem_filter, decide_eq_true_eq, and_imp]
  rfl

/-- Four digits are enough for names that sort as numbers do. -/
theorem Numbered.sortsLast (h : d.Numbered l) (hlength : l.length < 10000) : d.SortsLast a := by
  intro file hfile hlt
  obtain ⟨i, hi, hname⟩ := h.mem_values_iff.mp hfile
  obtain ⟨hilt, -⟩ := List.getElem?_eq_some_iff.mp hi
  rw [hname, h.count_eq] at hlt
  exact absurd hlt (not_lt.mpr (fileName_lt hilt hlength).le)

end ChainDir

namespace SharedChain

open ChainDir

variable {ι : Type} [DecidableEq ι] {s s' : SharedChain ι} {event : AppendEvent ι} {handle : ι}
  {phase : AppendPhase}

@[simp] theorem moved_dir : (s.moved handle phase).dir = s.dir := rfl

@[simp] theorem moved_phase_self : (s.moved handle phase).phase handle = phase :=
  Function.update_self _ _ _

theorem moved_phase_of_ne {other : ι} (h : other ≠ handle) :
    (s.moved handle phase).phase other = s.phase other := Function.update_of_ne h _ _

theorem Sound.moved (h : s.Sound) (handle : ι)
    (hphase : ∀ seq a, phase = .counted seq a → seq ≤ s.dir.count) :
    (s.moved handle phase).Sound where
  numbered := h.numbered
  counted other seq a hother := by
    by_cases heq : other = handle
    · rw [heq, moved_phase_self] at hother
      exact hphase seq a hother
    · rw [moved_phase_of_ne heq] at hother
      exact h.counted other seq a hother

theorem Sound.link {seq : ℕ} {a : Assertion} {d : ChainDir} (h : s.Sound)
    (hphase : s.phase handle = .counted seq a) (hlink : s.dir.linkAtomic seq a = some d) :
    seq = s.dir.count ∧ ({ s.moved handle (.linked a) with dir := d } : SharedChain ι).Sound := by
  obtain ⟨l, hl⟩ := h.numbered
  obtain ⟨hseq, hd⟩ := hl.link (h.counted handle seq a hphase) hlink
  have hgrown : d.count = s.dir.count + 1 := by
    rw [hd.count_eq, hl.count_eq, List.length_append, List.length_singleton]
  refine ⟨hseq, ⟨l ++ [a], hd⟩, fun other seq' b hother ↦ ?_⟩
  have hmoved : (s.moved handle (.linked a)).Sound := h.moved handle fun _ _ hne ↦ by simp at hne
  exact (hmoved.counted other seq' b hother).trans (hgrown ▸ Nat.le_succ _)

theorem Sound.step (h : s.Sound) (hstep : Step s event s') : s'.Sound := by
  cases hstep with
  | counts a =>
    refine h.moved _ fun seq b hphase ↦ ?_
    obtain ⟨rfl, -⟩ := AppendPhase.counted.inj hphase
    exact le_rfl
  | links hphase hlink => exact (h.link hphase hlink).2
  | taken | returns | uncommitted => exact h.moved _ fun _ _ hne ↦ by simp at hne

theorem Reached.sound (h : Reached s) : s.Sound := by
  induction h with
  | start => exact ⟨⟨[], .refl _⟩, fun _ _ _ hne ↦ by simp [SharedChain.start] at hne⟩
  | step _ hstep ih => exact ih.step hstep

theorem faithful_iff (h : s.Sound) (hstep : Step s event s') :
    Faithful s event s' ↔ Meets s event := by
  cases hstep with
  | counts | returns => exact iff_of_true rfl trivial
  | @links handle seq a d hphase hlink =>
    obtain ⟨rfl, -⟩ := h.link hphase hlink
    exact getAssertions_link_iff hlink
  | taken | uncommitted => exact ⟨And.right, fun hmeets ↦ ⟨rfl, hmeets⟩⟩

omit [DecidableEq ι] in
theorem appendAssertion_isSome (h : s.Sound) (a : Assertion) :
    ∃ d, s.dir.linkAtomic s.dir.count a = some d := by
  obtain ⟨l, hl⟩ := h.numbered
  exact ⟨_, linkAtomic_eq_some_iff.mpr ⟨hl.get?_eq_none_iff.mpr hl.count_eq.ge, rfl⟩⟩

/-- One handle alone appends as often as it likes. -/
theorem exists_reached (a : Assertion) (n : ℕ) :
    ∃ s : SharedChain Unit, Reached s ∧ s.phase () = .idle ∧ s.dir.Numbered (List.replicate n a) := by
  induction n with
  | zero => exact ⟨start, .start, rfl, .refl _⟩
  | succ n ih =>
    obtain ⟨s, hreached, hidle, hnumbered⟩ := ih
    have hcounted := hreached.step (.counts a hidle)
    obtain ⟨d, hlink⟩ := appendAssertion_isSome hcounted.sound a
    have hlinked := hcounted.step (.links moved_phase_self hlink)
    have hphase := @moved_phase_self Unit _ (s.moved () (.counted s.dir.count a)) () (.linked a)
    have hreturned := hlinked.step (@Step.returns Unit _ _ () a hphase)
    refine ⟨_, hreturned, moved_phase_self, ?_⟩
    rw [List.replicate_succ']
    exact (hnumbered.link le_rfl hlink).2

theorem fileName_ten_thousand : fileName 10000 < fileName 9999 := by
  have hten : fileName 10000 = "10000.json".toList := by decide
  have hnine : fileName 9999 = "9999.json".toList := by decide
  rw [hten, hnine]
  decide

end SharedChain

end Servanda
