import Servanda.Git
import Servanda.Inbox

namespace Servanda

def messageId (crypto : Crypto) (m : WireMessage) : Sha256Hex := crypto.hashCanonical (.message m)

namespace GitTransport

/-- The party a message is sent to: a persona's key, or a text that is none. -/
inductive Recipient
  | persona (key : PublicKeyHex)
  | text (s : String)
  deriving DecidableEq

/-- The directory a message is filed under: its edge's, or its recipient's under `_direct`. -/
inductive Dir
  | edge (edgeId : Sha256Hex)
  | direct (recipient : PublicKeyHex)
  deriving DecidableEq

/-- A file `servanda/{dir}/{seq}-{type}.json`. Its name carries the type of the message in it. -/
structure File where
  dir : Dir
  seq : ℕ
  message : WireMessage
  deriving DecidableEq

def File.path (f : File) : Dir × ℕ × WireMessageType := (f.dir, f.seq, f.message.body.type)

abbrev Outgoing := Recipient × WireMessage

/-- `none` where the source throws: an edge identifier or a recipient that is not 64 hex digits. -/
def relativeDirFor : Outgoing → Option Dir
  | (recipient, message) =>
    match message.body.edgeIdOf with
    | some (.id edgeId) => some (.edge edgeId)
    | some (.text _) => none
    | none =>
      match recipient with
      | .persona key => some (.direct key)
      | .text _ => none

def inDir (dir : Dir) (work : List File) : List File := work.filter (·.dir = dir)

def alreadyPresent (crypto : Crypto) (work : List File) (dir : Dir) (id : Sha256Hex) : Bool :=
  (inDir dir work).any fun f ↦
    crypto.verifyObject (.message f.message) f.message.sender && messageId crypto f.message == id

/-- Writing a path that exists replaces its file. -/
def writeFile (work : List File) (file : File) : List File :=
  if ∃ f ∈ work, f.path = file.path then
    work.map fun f ↦ if f.path = file.path then file else f
  else work ++ [file]

/-- The work tree, and the content addresses this side has placed. -/
structure Placement where
  work : List File
  placed : List Sha256Hex
  deriving DecidableEq

/-- One turn of the loop of `placeAll`; `none` where it throws. -/
def Placement.place (crypto : Crypto) (p : Placement) (out : Outgoing) : Option Placement :=
  let id := messageId crypto out.2
  if id ∈ p.placed then some p
  else match relativeDirFor out with
    | none => none
    | some dir =>
      let work := if alreadyPresent crypto p.work dir id then p.work
        else writeFile p.work ⟨dir, (inDir dir p.work).length + 1, out.2⟩
      some ⟨work, id :: p.placed⟩

/-- What the loop leaves behind, and whether it got to its end. -/
def Placement.placeAll (crypto : Crypto) : List Outgoing → Placement → Placement × Bool
  | [], p => (p, true)
  | out :: pending, p =>
    match p.place crypto out with
    | none => (p, false)
    | some p' => p'.placeAll crypto pending

/-- A transport's side: its clone's branch, the files of the work tree that the branch does not
hold, and whether a sync has committed and has yet to push. -/
structure Clone where
  head : Git.History File
  untracked : List File
  pending : List Outgoing
  placed : List Sha256Hex
  pushing : Bool
  deriving DecidableEq

namespace Clone

def init : Clone := ⟨[], [], [], [], false⟩

def send (crypto : Crypto) (c : Clone) (out : Outgoing) : Clone :=
  if messageId crypto out.2 ∈ c.placed then c else { c with pending := c.pending ++ [out] }

/-- `fetch` and `checkout -B main origin/main`. Without a remote branch the clone stays where it is;
`none` where an untracked file stands in the way of a different one of the remote's. -/
def adopt (remote : Git.History File) (c : Clone) : Option Clone :=
  if remote = [] then some c
  else if ∃ f ∈ c.untracked, ∃ g ∈ Git.tree remote, f.path = g.path ∧ f ≠ g then none
  else some { c with
    head := remote, untracked := c.untracked.filter (· ∉ Git.tree remote) }

/-- `sync` up to its push. Where `placeAll` throws, what it wrote stays in the work tree and what it
was to place stays pending. -/
def prepare (crypto : Crypto) (remote : Git.History File) (stamp : ℕ) (c : Clone) : Clone :=
  match c.adopt remote with
  | none => c
  | some c =>
    let tree := Git.tree c.head
    let (p, complete) := Placement.placeAll crypto c.pending ⟨tree ++ c.untracked, c.placed⟩
    if complete then
      { head := Git.commitAll c.head p.work stamp, untracked := [], pending := [],
        placed := p.placed, pushing := true }
    else { c with untracked := p.work.filter (· ∉ tree), placed := p.placed }

end Clone

inductive Action (ι : Type*)
  | send (i : ι) (out : Outgoing)
  | prepare (i : ι) (stamp : ℕ)
  | push (i : ι)

/-- The shared repository's branch and every clone of it; `sent` is what each clone's `send` has
accepted. -/
structure World (ι : Type*) where
  shared : Git.History File
  clones : ι → Clone
  sent : ι → List WireMessage

namespace World

variable {ι : Type*} [DecidableEq ι]

def init : World ι := ⟨[], fun _ ↦ .init, fun _ ↦ []⟩

def setClone (w : World ι) (i : ι) (c : Clone) : World ι :=
  { w with clones := Function.update w.clones i c }

/-- Between its commit and its push a clone does nothing else, and it pushes only then. -/
def step (crypto : Crypto) (w : World ι) : Action ι → World ι
  | .send i out =>
    if (w.clones i).pushing then w
    else { w.setClone i ((w.clones i).send crypto out) with
      sent := Function.update w.sent i (w.sent i ++ [out.2]) }
  | .prepare i stamp =>
    if (w.clones i).pushing then w
    else w.setClone i ((w.clones i).prepare crypto w.shared stamp)
  | .push i =>
    if (w.clones i).pushing then
      let done := w.setClone i { w.clones i with pushing := false }
      if Git.FastForward w.shared (w.clones i).head then { done with shared := (w.clones i).head }
      else done
    else w

def messages (h : Git.History File) : List WireMessage := (Git.tree h).map File.message

end World

/-- Sequence numbers stay within what their directory holds. -/
def Numbered (work : List File) : Prop := ∀ f ∈ work, f.seq ≤ (inDir f.dir work).length

variable {crypto : Crypto} {work : List File} {dir : Dir} {m : WireMessage} {out : Outgoing}
  {pending : List Outgoing} {p p' : Placement}

theorem Numbered.fresh (h : Numbered work) :
    ¬∃ f ∈ work, f.path = (File.mk dir ((inDir dir work).length + 1) m).path := by
  intro ⟨f, hf, hpath⟩
  have hseq := h f hf
  simp only [File.path, Prod.mk.injEq] at hpath
  rw [hpath.1] at hseq
  omega

theorem writeFile_next (h : Numbered work) :
    writeFile work ⟨dir, (inDir dir work).length + 1, m⟩ =
      work ++ [⟨dir, (inDir dir work).length + 1, m⟩] :=
  if_neg h.fresh

theorem Numbered.append (h : Numbered work) :
    Numbered (work ++ [⟨dir, (inDir dir work).length + 1, m⟩]) := by
  intro f hf
  obtain hf | hf := List.mem_append.1 hf
  · have hseq := h f hf
    simp only [inDir, List.filter_append, List.length_append] at hseq ⊢
    omega
  · rw [List.mem_singleton.1 hf]
    simp [inDir, List.filter_append]

theorem alreadyPresent_eq_true_iff {id : Sha256Hex} : alreadyPresent crypto work dir id = true ↔
    ∃ f ∈ work, f.dir = dir ∧ crypto.verifyObject (.message f.message) f.message.sender = true ∧
      messageId crypto f.message = id := by
  simp [alreadyPresent, inDir]

/-- What one turn of the loop does to a numbered work tree. -/
inductive Placed (crypto : Crypto) (p : Placement) (out : Outgoing) : Placement → Prop
  | skipped (hid : messageId crypto out.2 ∈ p.placed) : Placed crypto p out p
  | present {dir : Dir} (hid : messageId crypto out.2 ∉ p.placed)
      (hdir : relativeDirFor out = some dir)
      (hpresent : alreadyPresent crypto p.work dir (messageId crypto out.2) = true) :
      Placed crypto p out ⟨p.work, messageId crypto out.2 :: p.placed⟩
  | written {dir : Dir} (hid : messageId crypto out.2 ∉ p.placed)
      (hdir : relativeDirFor out = some dir)
      (habsent : alreadyPresent crypto p.work dir (messageId crypto out.2) = false) :
      Placed crypto p out ⟨p.work ++ [⟨dir, (inDir dir p.work).length + 1, out.2⟩],
        messageId crypto out.2 :: p.placed⟩

theorem placed_of_place (hnum : Numbered p.work) (h : p.place crypto out = some p') :
    Placed crypto p out p' := by
  unfold Placement.place at h
  by_cases hid : messageId crypto out.2 ∈ p.placed
  · simp only [hid, if_true, Option.some.injEq] at h
    exact h ▸ .skipped hid
  · simp only [hid, if_false] at h
    cases hdir : relativeDirFor out with
    | none => simp [hdir] at h
    | some dir =>
      simp only [hdir, Option.some.injEq] at h
      cases hpresent : alreadyPresent crypto p.work dir (messageId crypto out.2) with
      | true =>
        simp only [hpresent, if_true] at h
        exact h ▸ .present hid hdir hpresent
      | false =>
        simp only [hpresent, Bool.false_eq_true, if_false, writeFile_next hnum] at h
        exact h ▸ .written hid hdir hpresent

theorem place_eq_none_iff : p.place crypto out = none ↔
    messageId crypto out.2 ∉ p.placed ∧ relativeDirFor out = none := by
  unfold Placement.place
  by_cases hid : messageId crypto out.2 ∈ p.placed
  · simp [hid]
  · cases hdir : relativeDirFor out <;> simp [hid]

theorem place_mono (h : p.place crypto out = some p') :
    p.placed ⊆ p'.placed ∧ messageId crypto out.2 ∈ p'.placed := by
  unfold Placement.place at h
  by_cases hid : messageId crypto out.2 ∈ p.placed
  · simp only [hid, if_true, Option.some.injEq] at h
    exact h ▸ ⟨List.Subset.refl _, hid⟩
  · simp only [hid, if_false] at h
    cases hdir : relativeDirFor out with
    | none => simp [hdir] at h
    | some dir =>
      simp only [hdir, Option.some.injEq] at h
      exact h ▸ ⟨List.subset_cons_self _ _, List.mem_cons_self⟩

namespace Placed

theorem numbered (h : Placed crypto p out p') (hnum : Numbered p.work) : Numbered p'.work := by
  cases h with
  | skipped => exact hnum
  | present => exact hnum
  | written => exact hnum.append

theorem work_grows (h : Placed crypto p out p') : p.work <+: p'.work := by
  cases h with
  | skipped => exact List.prefix_rfl
  | present => exact List.prefix_rfl
  | written => exact List.prefix_append _ _

theorem placed_subset (h : Placed crypto p out p') : p.placed ⊆ p'.placed := by
  cases h with
  | skipped => exact List.Subset.refl _
  | present => exact List.subset_cons_self _ _
  | written => exact List.subset_cons_self _ _

theorem mem_placed (h : Placed crypto p out p') : messageId crypto out.2 ∈ p'.placed := by
  cases h with
  | skipped hid => exact hid
  | present => exact List.mem_cons_self
  | written => exact List.mem_cons_self

end Placed

/-- What every turn of the loop keeps holds at the end of a loop that got there. -/
theorem placeAll_induction {Q : List Outgoing → Placement → Prop}
    (hstep : ∀ out rest p p', Placed crypto p out p' → Q (out :: rest) p → Q rest p')
    (hnum : Numbered p.work) (hQ : Q pending p) (h : p.placeAll crypto pending = (p', true)) :
    Q [] p' ∧ Numbered p'.work := by
  induction pending generalizing p with
  | nil =>
    simp only [Placement.placeAll, Prod.mk.injEq, and_true] at h
    exact h ▸ ⟨hQ, hnum⟩
  | cons out pending ih =>
    unfold Placement.placeAll at h
    cases hplace : p.place crypto out with
    | none => simp [hplace] at h
    | some p₁ =>
      have hplaced := placed_of_place hnum hplace
      rw [hplace] at h
      exact ih (hplaced.numbered hnum) (hstep _ _ _ _ hplaced hQ) h

/-- A message nothing can address waits in `pending` behind messages that are all placed. -/
def Blocked (crypto : Crypto) (pending : List Outgoing) (placed : List Sha256Hex) : Prop :=
  ∃ before out after, pending = before ++ out :: after ∧
    (∀ o ∈ before, messageId crypto o.2 ∈ placed) ∧ messageId crypto out.2 ∉ placed ∧
    relativeDirFor out = none

theorem Blocked.append {placed : List Sha256Hex} (h : Blocked crypto pending placed)
    (outs : List Outgoing) : Blocked crypto (pending ++ outs) placed := by
  obtain ⟨before, out, after, rfl, hout⟩ := h
  exact ⟨before, out, after ++ outs, by simp, hout⟩

theorem not_blocked_nil {placed : List Sha256Hex} : ¬Blocked crypto [] placed := by
  intro ⟨before, out, after, h, _⟩
  simp at h

theorem placeAll_of_blocked (h : Blocked crypto pending p.placed) :
    p.placeAll crypto pending = (p, false) := by
  obtain ⟨before, out, after, rfl, hbefore, hid, hdir⟩ := h
  induction before with
  | nil => simp [Placement.placeAll, place_eq_none_iff.2 ⟨hid, hdir⟩]
  | cons o before ih =>
    have hplace : p.place crypto o = some p := if_pos (hbefore o List.mem_cons_self)
    simp only [List.cons_append, Placement.placeAll, hplace]
    exact ih fun o ho ↦ hbefore o (List.mem_cons_of_mem _ ho)

/-- A loop that throws has placed everything before the message it throws at. -/
theorem blocked_of_placeAll (h : p.placeAll crypto pending = (p', false)) :
    p.placed ⊆ p'.placed ∧ Blocked crypto pending p'.placed := by
  induction pending generalizing p with
  | nil => simp [Placement.placeAll] at h
  | cons out pending ih =>
    unfold Placement.placeAll at h
    cases hplace : p.place crypto out with
    | none =>
      simp only [hplace, Prod.mk.injEq, and_true] at h
      obtain ⟨hid, hdir⟩ := place_eq_none_iff.1 hplace
      subst h
      exact ⟨List.Subset.refl _, [], out, pending, rfl, by simp, hid, hdir⟩
    | some p₁ =>
      rw [hplace] at h
      obtain ⟨hsub, before, o, after, rfl, hbefore, ho⟩ := ih h
      obtain ⟨hmono, hmem⟩ := place_mono hplace
      refine ⟨fun id hid ↦ hsub (hmono hid), out :: before, o, after, rfl, ?_, ho⟩
      intro o' ho'
      obtain rfl | ho' := List.mem_cons.1 ho'
      · exact hsub hmem
      · exact hbefore o' ho'

end GitTransport

end Servanda
