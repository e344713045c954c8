import Servanda.GitTransport

/-!
What clones of one repository publish through it: over every interleaving of their sends and syncs,
which messages the shared history holds.
-/

namespace Servanda.GitTransport

open World

variable {crypto : Crypto} {shared shared' : Git.History File} {stamp : ℕ} {c : Clone}
  {out : Outgoing} {p : Placement}

/-- A clone's branch is at the shared history or one commit above a part of it. -/
structure Clone.Sound (crypto : Crypto) (shared : Git.History File) (c : Clone) : Prop where
  unborn : shared = [] → c.pushing = false → c.head = []
  based : c.pushing = true → ∃ base, base <:+ shared ∧ Git.Adds base c.head
  numbered : c.pushing = true → Numbered (Git.tree c.head)
  drained : c.pushing = true → c.pending = []
  clean : c.untracked = [] ∨ Blocked crypto c.pending c.placed

theorem Clone.Sound.pushing_eq_false (h : c.Sound crypto shared)
    (hblocked : Blocked crypto c.pending c.placed) : c.pushing = false := by
  by_contra hpushing
  rw [h.drained (by simpa using hpushing)] at hblocked
  exact not_blocked_nil hblocked

theorem Clone.Sound.send (h : c.Sound crypto shared) (hpushing : c.pushing = false) :
    (c.send crypto out).Sound crypto shared := by
  unfold Clone.send
  split
  · exact h
  · refine ⟨h.unborn, by simp [hpushing], by simp [hpushing], by simp [hpushing], ?_⟩
    exact h.clean.imp_right (·.append _)

/-- What `sync` comes to before its push: it committed on top of the shared history, or it threw at
a message nothing can address. -/
inductive Prepared (crypto : Crypto) (shared : Git.History File) (stamp : ℕ) (c : Clone) :
    Clone → Prop
  | committed {p : Placement}
      (hplace : Placement.placeAll crypto c.pending ⟨Git.tree shared, c.placed⟩ = (p, true)) :
      Prepared crypto shared stamp c
        ⟨Git.commitAll shared p.work stamp, [], [], p.placed, true⟩
  | blocked {c' : Clone} (hblocked : Blocked crypto c.pending c'.placed) (hpending : c'.pending = c.pending)
      (hhead : c'.head = c.head ∨ c'.head = shared) (hpushing : c'.pushing = false) :
      Prepared crypto shared stamp c c'

theorem Clone.Sound.adopt (h : c.Sound crypto shared) (hpushing : c.pushing = false)
    (huntracked : c.untracked = []) : c.adopt shared = some { c with head := shared } := by
  unfold Clone.adopt
  by_cases hshared : shared = []
  · simp [hshared, ← h.unborn hshared hpushing]
  · simp [hshared, huntracked]

theorem Clone.Sound.prepared (h : c.Sound crypto shared) (hpushing : c.pushing = false) :
    Prepared crypto shared stamp c (c.prepare crypto shared stamp) := by
  unfold Clone.prepare
  obtain huntracked | hblocked := h.clean
  · rw [h.adopt hpushing huntracked]
    simp only [huntracked, List.append_nil]
    obtain ⟨⟨p, complete⟩, hplace⟩ : ∃ r, Placement.placeAll crypto c.pending
      ⟨Git.tree shared, c.placed⟩ = r := ⟨_, rfl⟩
    cases complete with
    | true =>
      simp only [hplace, if_true]
      exact .committed hplace
    | false =>
      simp only [hplace, Bool.false_eq_true, if_false]
      exact .blocked (blocked_of_placeAll hplace).2 rfl (.inr rfl) hpushing
  · cases hadopt : c.adopt shared with
    | none => exact .blocked hblocked rfl (.inl rfl) hpushing
    | some c' =>
      obtain ⟨hpending, hplaced, hpushing', hhead⟩ : c'.pending = c.pending ∧
          c'.placed = c.placed ∧ c'.pushing = c.pushing ∧ (c'.head = c.head ∨ c'.head = shared) := by
        unfold Clone.adopt at hadopt
        split_ifs at hadopt <;> cases hadopt <;> simp
      have hthrow := placeAll_of_blocked
        (p := ⟨Git.tree c'.head ++ c'.untracked, c'.placed⟩) (by rw [hplaced]; exact hblocked)
      simp only [hpending, hthrow, Bool.false_eq_true, if_false]
      exact .blocked (hplaced ▸ hblocked) rfl hhead (hpushing'.trans hpushing)

theorem Numbered.placeAll {pending : List Outgoing} {p p' : Placement} (h : Numbered p.work)
    (hplace : p.placeAll crypto pending = (p', true)) : Numbered p'.work ∧ p.work <+: p'.work := by
  obtain ⟨hgrows, hnum⟩ := placeAll_induction (Q := fun _ p' ↦ p.work <+: p'.work)
    (fun _ _ _ _ hplaced hgrows ↦ hgrows.trans hplaced.work_grows) h List.prefix_rfl hplace
  exact ⟨hnum, hgrows⟩

theorem Clone.Sound.prepare (h : c.Sound crypto shared) (hpushing : c.pushing = false)
    (hnum : Numbered (Git.tree shared)) : (c.prepare crypto shared stamp).Sound crypto shared := by
  generalize hc' : c.prepare crypto shared stamp = c'
  have hprepared : Prepared crypto shared stamp c c' := hc' ▸ h.prepared hpushing
  cases hprepared with
  | committed hplace =>
    obtain ⟨hnum', hgrows⟩ := Numbered.placeAll hnum hplace
    refine ⟨by simp, fun _ ↦ ⟨shared, List.suffix_rfl, Git.adds_commitAll hgrows⟩, ?_,
      fun _ ↦ rfl, .inl rfl⟩
    intro _
    simpa using hnum'
  | blocked hblocked hpending hhead hpushing' =>
    refine ⟨fun hshared _ ↦ ?_, by simp [hpushing'], by simp [hpushing'], by simp [hpushing'],
      .inr (hpending ▸ hblocked)⟩
    obtain hhead | hhead := hhead
    · rw [hhead, h.unborn hshared hpushing]
    · rw [hhead, hshared]

/-- The shared history only ever gets longer under a clone. -/
theorem Clone.Sound.mono (h : c.Sound crypto shared) (hgrown : shared <:+ shared') :
    c.Sound crypto shared' := by
  refine ⟨fun hshared hpushing ↦ h.unborn ?_ hpushing, fun hpushing ↦ ?_, h.numbered, h.drained,
    h.clean⟩
  · exact List.eq_nil_of_suffix_nil (hshared ▸ hgrown)
  · obtain ⟨base, hbase, hadds⟩ := h.based hpushing
    exact ⟨base, hbase.trans hgrown, hadds⟩

theorem Clone.Sound.pushed (h : c.Sound crypto shared) (hunborn : shared = [] → c.head = []) :
    Clone.Sound crypto shared { c with pushing := false } :=
  ⟨fun hshared _ ↦ hunborn hshared, by simp, by simp, by simp, h.clean⟩

variable {ι : Type*} [DecidableEq ι] {w w' : World ι} {a : Action ι} {i : ι}

/-- The push that is taken. -/
def World.Pushes (w : World ι) (i : ι) : Prop :=
  (w.clones i).pushing = true ∧ Git.FastForward w.shared (w.clones i).head

instance decidablePushes (w : World ι) (i : ι) : Decidable (w.Pushes i) :=
  inferInstanceAs (Decidable (_ ∧ _))

/-- What a step does: nothing out of turn, else one clone moves, and a push that is taken moves the
shared branch to that clone's. -/
inductive Stepped (crypto : Crypto) (w : World ι) : Action ι → World ι → Prop
  | idle (a : Action ι) : Stepped crypto w a w
  | sent {i : ι} {out : Outgoing} (hpushing : (w.clones i).pushing = false) :
      Stepped crypto w (.send i out) ⟨w.shared,
        Function.update w.clones i ((w.clones i).send crypto out),
        Function.update w.sent i (w.sent i ++ [out.2])⟩
  | prepared {i : ι} {stamp : ℕ} (hpushing : (w.clones i).pushing = false) :
      Stepped crypto w (.prepare i stamp) ⟨w.shared,
        Function.update w.clones i ((w.clones i).prepare crypto w.shared stamp), w.sent⟩
  | published {i : ι} (hpush : w.Pushes i) :
      Stepped crypto w (.push i) ⟨(w.clones i).head,
        Function.update w.clones i { w.clones i with pushing := false }, w.sent⟩
  | refused {i : ι} (hpushing : (w.clones i).pushing = true)
      (hff : ¬Git.FastForward w.shared (w.clones i).head) :
      Stepped crypto w (.push i) ⟨w.shared,
        Function.update w.clones i { w.clones i with pushing := false }, w.sent⟩

theorem stepped (crypto : Crypto) (w : World ι) (a : Action ι) :
    Stepped crypto w a (w.step crypto a) := by
  cases a with
  | send i out =>
    cases hpushing : (w.clones i).pushing with
    | true => simpa [World.step, hpushing] using Stepped.idle (.send i out)
    | false => simpa [World.step, setClone, hpushing] using Stepped.sent hpushing
  | prepare i stamp =>
    cases hpushing : (w.clones i).pushing with
    | true => simpa [World.step, hpushing] using Stepped.idle (.prepare i stamp)
    | false => simpa [World.step, setClone, hpushing] using Stepped.prepared hpushing
  | push i =>
    cases hpushing : (w.clones i).pushing with
    | false => simpa [World.step, hpushing] using Stepped.idle (.push i)
    | true =>
      by_cases hff : Git.FastForward w.shared (w.clones i).head
      · simpa [World.step, setClone, hpushing, hff] using Stepped.published ⟨hpushing, hff⟩
      · simpa [World.step, setClone, hpushing, hff] using Stepped.refused hpushing hff

structure World.Sound (crypto : Crypto) (w : World ι) : Prop where
  numbered : Numbered (Git.tree w.shared)
  clones : ∀ i, (w.clones i).Sound crypto w.shared

omit [DecidableEq ι] in
theorem World.sound_init : (init : World ι).Sound crypto :=
  ⟨by simp [init, Numbered, Git.tree], fun _ ↦
    ⟨fun _ _ ↦ rfl, by simp [init, Clone.init], by simp [init, Clone.init],
      by simp [init, Clone.init], .inl rfl⟩⟩

omit [DecidableEq ι] in
theorem World.Sound.tree_grows (h : w.Sound crypto) (hpush : w.Pushes i) :
    Git.tree w.shared <+: Git.tree (w.clones i).head := by
  obtain ⟨base, hbase, hadds⟩ := (h.clones i).based hpush.1
  exact hadds.published_grows hbase hpush.2

/-- One clone takes a step while the others stay. -/
theorem forall_update {P : ι → Clone → Prop} {clones : ι → Clone} (hown : P i c)
    (hothers : ∀ j, j ≠ i → P j (clones j)) (j : ι) : P j (Function.update clones i c j) := by
  by_cases hj : j = i
  · rw [hj, Function.update_self]
    exact hown
  · rw [Function.update_of_ne hj]
    exact hothers j hj

theorem World.Sound.stepped (h : w.Sound crypto) (hstep : Stepped crypto w a w') :
    w'.Sound crypto := by
  cases hstep with
  | idle => exact h
  | sent hpushing =>
    exact ⟨h.numbered, forall_update (P := fun _ c ↦ c.Sound crypto w.shared)
      ((h.clones _).send hpushing) fun j _ ↦ h.clones j⟩
  | prepared hpushing =>
    exact ⟨h.numbered, forall_update (P := fun _ c ↦ c.Sound crypto w.shared)
      ((h.clones _).prepare hpushing h.numbered) fun j _ ↦ h.clones j⟩
  | @published i hpush =>
    refine ⟨(h.clones i).numbered hpush.1,
      forall_update (P := fun _ c ↦ c.Sound crypto (w.clones i).head) ?_ fun j _ ↦
        (h.clones j).mono hpush.2.2⟩
    exact ((h.clones i).mono hpush.2.2).pushed id
  | @refused i hpushing hff =>
    refine ⟨h.numbered, forall_update (P := fun _ c ↦ c.Sound crypto w.shared) ?_ fun j _ ↦
      h.clones j⟩
    refine (h.clones i).pushed fun hshared ↦ ?_
    by_contra hhead
    exact hff ⟨hhead, hshared ▸ List.nil_suffix⟩

/-- No step takes a file out of the shared tree or puts another in its place. -/
theorem World.Sound.kept (h : w.Sound crypto) (hstep : Stepped crypto w a w') :
    Git.tree w.shared <+: Git.tree w'.shared := by
  cases hstep with
  | idle | sent | prepared | refused => exact List.prefix_rfl
  | published hpush => exact h.tree_grows hpush

/-- Before the loop of a sync comes to a message that the tree holds already, the tree has it where
the loop will look, under a signature that verifies. -/
def Fileable (crypto : Crypto) (tree : List File) (pending : List Outgoing)
    (placed : List Sha256Hex) : Prop :=
  ∀ before out after dir, pending = before ++ out :: after → messageId crypto out.2 ∉ placed →
    (∀ o ∈ before, messageId crypto o.2 ≠ messageId crypto out.2) →
    relativeDirFor out = some dir → ∀ f ∈ tree, f.message = out.2 →
      f.dir = dir ∧ crypto.verifyObject (.message f.message) f.message.sender = true

theorem fileable_of_absent {tree : List File} {pending : List Outgoing} {placed : List Sha256Hex}
    (h : ∀ out ∈ pending, ∀ f ∈ tree, f.message ≠ out.2) :
    Fileable crypto tree pending placed := by
  intro before out after dir hpending _ _ _ f hf hmessage
  exact absurd hmessage (h out (by simp [hpending]) f hf)

/-- The steps that lose nothing: a send of a message whose content address no other accepted message
has, a sync whose messages are not filed elsewhere or unverified, and a push that is taken, or one
that is refused with nothing in it that the shared history lacks. -/
def World.Met (crypto : Crypto) (w : World ι) : Action ι → Prop
  | .send _ out => ∀ j, ∀ m ∈ w.sent j, messageId crypto m = messageId crypto out.2 → m = out.2
  | .prepare i _ =>
    Fileable crypto (Git.tree w.shared) (w.clones i).pending (w.clones i).placed
  | .push i => (w.clones i).pushing = true → ¬Git.FastForward w.shared (w.clones i).head →
    messages (w.clones i).head ⊆ messages w.shared

def World.Accepted (w : World ι) (m : WireMessage) : Prop := ∃ i, m ∈ w.sent i

/-- A message the shared history holds, or will once this clone's push is taken. -/
def Safe (shared : Git.History File) (c : Clone) (m : WireMessage) : Prop :=
  m ∈ messages shared ∨ c.pushing = true ∧ m ∈ messages c.head

/-- Unless a message nothing can address blocks it, a clone has what it accepted on its way or
pending, and what it counts as placed is on its way. -/
structure Clone.Whole (crypto : Crypto) (accepted : WireMessage → Prop) (mine : List WireMessage)
    (shared : Git.History File) (c : Clone) : Prop where
  pendingAccepted : ∀ out ∈ c.pending, accepted out.2
  headAccepted : c.pushing = true → ∀ m ∈ messages c.head, accepted m
  headOnce : c.pushing = true → (messages c.head).Nodup
  placed : Blocked crypto c.pending c.placed ∨
    ∀ id ∈ c.placed, ∃ m, messageId crypto m = id ∧ accepted m ∧ Safe shared c m
  accounted : Blocked crypto c.pending c.placed ∨
    ∀ m ∈ mine, Safe shared c m ∨ ∃ out ∈ c.pending, out.2 = m

structure World.Whole (crypto : Crypto) (w : World ι) : Prop where
  distinct : ∀ m m', w.Accepted m → w.Accepted m' → messageId crypto m = messageId crypto m' →
    m = m'
  sharedAccepted : ∀ m ∈ messages w.shared, w.Accepted m
  once : (messages w.shared).Nodup
  clones : ∀ i, (w.clones i).Whole crypto w.Accepted (w.sent i) w.shared

section Clones

variable {accepted accepted' : WireMessage → Prop} {mine : List WireMessage}

theorem Safe.mono {m : WireMessage} (hshared : messages shared ⊆ messages shared')
    (h : Safe shared c m) : Safe shared' c m := h.imp_left (@hshared m)

theorem Clone.Whole.mono (h : c.Whole crypto accepted mine shared)
    (haccepted : ∀ m, accepted m → accepted' m) (hshared : messages shared ⊆ messages shared') :
    c.Whole crypto accepted' mine shared' where
  pendingAccepted out hout := haccepted _ (h.pendingAccepted out hout)
  headAccepted hpushing m hm := haccepted _ (h.headAccepted hpushing m hm)
  headOnce := h.headOnce
  placed := h.placed.imp_right fun h id hid ↦
    let ⟨m, hm, hacc, hsafe⟩ := h id hid
    ⟨m, hm, haccepted m hacc, hsafe.mono hshared⟩
  accounted := h.accounted.imp_right fun h m hm ↦ (h m hm).imp_left (·.mono hshared)

theorem Clone.Whole.send (h : c.Whole crypto accepted mine shared)
    (hdistinct : ∀ m, accepted m → messageId crypto m = messageId crypto out.2 → m = out.2)
    (hpushing : c.pushing = false) (haccepted : accepted out.2) :
    (c.send crypto out).Whole crypto accepted (mine ++ [out.2]) shared := by
  unfold Clone.send
  split
  · next hid =>
    refine { h with accounted := ?_ }
    obtain hblocked | hplaced := h.placed
    · exact .inl hblocked
    apply h.accounted.imp_right
    intro haccounted m hm
    obtain hm | hm := List.mem_append.1 hm
    · exact haccounted m hm
    obtain ⟨m', hm', hacc, hsafe⟩ := hplaced _ hid
    rw [List.mem_singleton.1 hm, ← hdistinct m' hacc hm']
    exact .inl hsafe
  · next hid =>
    refine ⟨?_, by simp [hpushing], by simp [hpushing], h.placed.imp_left (·.append _), ?_⟩
    · intro o ho
      obtain ho | ho := List.mem_append.1 ho
      · exact h.pendingAccepted o ho
      · rw [List.mem_singleton.1 ho]
        exact haccepted
    apply h.accounted.imp (·.append _)
    intro haccounted m hm
    obtain hm | hm := List.mem_append.1 hm
    · obtain hsafe | ⟨o, ho, rfl⟩ := haccounted m hm
      · exact .inl hsafe
      · exact .inr ⟨o, List.mem_append_left _ ho, rfl⟩
    · exact .inr ⟨out, by simp, (List.mem_singleton.1 hm).symm⟩

theorem Placed.mem_work {p p' : Placement} {f : File} (h : Placed crypto p out p')
    (hf : f ∈ p'.work) : f ∈ p.work ∨ f.message = out.2 := by
  cases h with
  | skipped | present => exact .inl hf
  | written =>
    obtain hf | hf := List.mem_append.1 hf
    · exact .inl hf
    · rw [List.mem_singleton.1 hf]
      exact .inr rfl

theorem Fileable.placed {p p' : Placement} {rest : List Outgoing}
    (h : Fileable crypto p.work (out :: rest) p.placed) (hplaced : Placed crypto p out p') :
    Fileable crypto p'.work rest p'.placed := by
  intro before o after dir hrest hid hbefore hdir f hf hmessage
  have hne : messageId crypto out.2 ≠ messageId crypto o.2 := by
    intro heq
    exact hid (heq ▸ hplaced.mem_placed)
  refine h (out :: before) o after dir (by simp [hrest]) (fun hmem ↦
    hid (hplaced.placed_subset hmem)) ?_ hdir f ?_ hmessage
  · intro o' ho'
    obtain rfl | ho' := List.mem_cons.1 ho'
    · exact hne
    · exact hbefore o' ho'
  · obtain hf | hf := hplaced.mem_work hf
    · exact hf
    · exact absurd (congrArg (messageId crypto) (hf.symm.trans hmessage)) hne

/-- What the loop of a sync keeps, with the messages it still has to come to. -/
structure Filing (crypto : Crypto) (accepted : WireMessage → Prop) (pending todo : List Outgoing)
    (p : Placement) : Prop where
  workAccepted : ∀ m ∈ p.work.map File.message, accepted m
  pendingAccepted : ∀ out ∈ todo, accepted out.2
  once : (p.work.map File.message).Nodup
  placed : ∀ id ∈ p.placed, ∃ m ∈ p.work.map File.message, messageId crypto m = id
  fileable : Fileable crypto p.work todo p.placed
  covered : ∀ o ∈ pending, o ∈ todo ∨ messageId crypto o.2 ∈ p.placed

theorem Filing.step {p p' : Placement} {pending rest : List Outgoing}
    (h : Filing crypto accepted pending (out :: rest) p) (hplaced : Placed crypto p out p') :
    Filing crypto accepted pending rest p' := by
  have hrest : ∀ o ∈ rest, accepted o.2 := fun o ho ↦
    h.pendingAccepted o (List.mem_cons_of_mem _ ho)
  have hcovered : ∀ o ∈ pending, o ∈ rest ∨ messageId crypto o.2 ∈ p'.placed := by
    intro o ho
    obtain ho | ho := h.covered o ho
    · obtain rfl | ho := List.mem_cons.1 ho
      · exact .inr hplaced.mem_placed
      · exact .inl ho
    · exact .inr (hplaced.placed_subset ho)
  have hfileable := h.fileable.placed hplaced
  cases hplaced with
  | skipped hid => exact ⟨h.workAccepted, hrest, h.once, h.placed, hfileable, hcovered⟩
  | present hid hdir hpresent =>
    refine ⟨h.workAccepted, hrest, h.once, ?_, hfileable, hcovered⟩
    intro id hmem
    obtain rfl | hmem := List.mem_cons.1 hmem
    · obtain ⟨f, hf, -, -, hid⟩ := alreadyPresent_eq_true_iff.1 hpresent
      exact ⟨f.message, List.mem_map_of_mem hf, hid⟩
    · exact h.placed id hmem
  | written hid hdir habsent =>
    have hfresh : out.2 ∉ p.work.map File.message := by
      intro hmem
      obtain ⟨f, hf, hmessage⟩ := List.mem_map.1 hmem
      obtain ⟨hfdir, hverified⟩ := h.fileable [] out rest _ rfl hid (by simp) hdir f hf hmessage
      have hpresent := alreadyPresent_eq_true_iff.2
        ⟨f, hf, hfdir, hverified, congrArg (messageId crypto) hmessage⟩
      rw [habsent] at hpresent
      cases hpresent
    refine ⟨?_, hrest, ?_, ?_, hfileable, hcovered⟩
    · intro m hm
      simp only [List.map_append, List.mem_append, List.map_cons, List.map_nil,
        List.mem_singleton] at hm
      obtain hm | rfl := hm
      · exact h.workAccepted m hm
      · exact h.pendingAccepted out List.mem_cons_self
    · rw [List.map_append]
      exact h.once.append (List.nodup_singleton _) (List.disjoint_singleton.2 hfresh)
    · intro id hmem
      simp only [List.map_append, List.mem_append, List.map_cons, List.map_nil,
        List.mem_singleton]
      obtain rfl | hmem := List.mem_cons.1 hmem
      · exact ⟨out.2, .inr rfl, rfl⟩
      · obtain ⟨m, hm, hid⟩ := h.placed id hmem
        exact ⟨m, .inl hm, hid⟩

theorem Clone.Whole.prepare (h : c.Whole crypto accepted mine shared)
    (hsound : c.Sound crypto shared) (hpushing : c.pushing = false)
    (hnum : Numbered (Git.tree shared))
    (hdistinct : ∀ m m', accepted m → accepted m' → messageId crypto m = messageId crypto m' →
      m = m')
    (hshared : ∀ m ∈ messages shared, accepted m) (honce : (messages shared).Nodup)
    (hfileable : Fileable crypto (Git.tree shared) c.pending c.placed) :
    (c.prepare crypto shared stamp).Whole crypto accepted mine shared := by
  generalize hc' : c.prepare crypto shared stamp = c'
  have hprepared : Prepared crypto shared stamp c c' := hc' ▸ hsound.prepared hpushing
  cases hprepared with
  | blocked hblocked hpending hhead hpushing' =>
    exact ⟨hpending ▸ h.pendingAccepted, by simp [hpushing'], by simp [hpushing'],
      .inl (hpending ▸ hblocked), .inl (hpending ▸ hblocked)⟩
  | @committed p hplace =>
    have hunblocked : ¬Blocked crypto c.pending c.placed := by
      intro hblocked
      rw [placeAll_of_blocked (p := ⟨Git.tree shared, c.placed⟩) hblocked] at hplace
      cases hplace
    have hsafe : ∀ m, Safe shared c m → m ∈ messages shared := by
      intro m hm
      obtain hm | ⟨hp, -⟩ := hm
      · exact hm
      · rw [hpushing] at hp
        cases hp
    have hstart : Filing crypto accepted c.pending c.pending ⟨Git.tree shared, c.placed⟩ := by
      refine ⟨hshared, h.pendingAccepted, honce, ?_, hfileable, fun o ho ↦ .inl ho⟩
      intro id hid
      obtain ⟨m, hm, -, hmsafe⟩ := h.placed.resolve_left hunblocked id hid
      exact ⟨m, hsafe m hmsafe, hm⟩
    obtain ⟨hend, -⟩ := placeAll_induction (Q := Filing crypto accepted c.pending)
      (fun _ _ _ _ hplaced hfiling ↦ hfiling.step hplaced) hnum hstart hplace
    obtain ⟨-, hgrows⟩ := Numbered.placeAll hnum hplace
    have hmessages : messages (Git.commitAll shared p.work stamp) = p.work.map File.message := by
      simp [messages]
    refine ⟨by simp, fun _ ↦ hmessages ▸ hend.workAccepted, fun _ ↦ hmessages ▸ hend.once, .inr ?_,
      .inr ?_⟩
    · intro id hid
      obtain ⟨m, hm, hmid⟩ := hend.placed id hid
      exact ⟨m, hmid, hend.workAccepted m hm, .inr ⟨rfl, hmessages ▸ hm⟩⟩
    · intro m hm
      obtain hmsafe | ⟨o, ho, rfl⟩ := h.accounted.resolve_left hunblocked m hm
      · exact .inl (.inl (hsafe m hmsafe))
      · have hid := (hend.covered o ho).resolve_left (List.not_mem_nil)
        obtain ⟨m', hm', hid'⟩ := hend.placed _ hid
        have heq := hdistinct m' o.2 (hend.workAccepted m' hm') (h.pendingAccepted o ho) hid'
        exact .inl (.inr ⟨rfl, hmessages ▸ heq ▸ hm'⟩)

/-- A push, taken or refused with nothing lost, leaves what was on its way in the shared history. -/
theorem Clone.Whole.pushed (h : c.Whole crypto accepted mine shared)
    (hshared : messages shared ⊆ messages shared') (hhead : messages c.head ⊆ messages shared') :
    Clone.Whole crypto accepted mine shared' { c with pushing := false } := by
  have hsafe : ∀ m, Safe shared c m → m ∈ messages shared' := by
    intro m hm
    obtain hm | ⟨-, hm⟩ := hm
    · exact hshared hm
    · exact hhead hm
  refine ⟨h.pendingAccepted, by simp, by simp, h.placed.imp_right fun h id hid ↦ ?_,
    h.accounted.imp_right fun h m hm ↦ (h m hm).imp_left fun hm ↦ .inl (hsafe m hm)⟩
  obtain ⟨m, hm, hacc, hmsafe⟩ := h id hid
  exact ⟨m, hm, hacc, .inl (hsafe m hmsafe)⟩

end Clones

omit [DecidableEq ι] in
theorem World.whole_init : (init : World ι).Whole crypto := by
  refine ⟨fun m m' h ↦ ?_, by simp [init, messages, Git.tree], by simp [init, messages, Git.tree],
    fun i ↦ ⟨by simp [init, Clone.init], by simp [init, Clone.init], by simp [init, Clone.init],
      .inr (by simp [init, Clone.init]), .inr (by simp [init])⟩⟩
  obtain ⟨i, hi⟩ := h
  simp [init] at hi

omit [DecidableEq ι] in
theorem messages_subset {h h' : Git.History File} (hgrows : Git.tree h <+: Git.tree h') :
    messages h ⊆ messages h' := List.map_subset _ hgrows.subset

theorem mem_sent_send {j : ι} {m : WireMessage} :
    m ∈ Function.update w.sent i (w.sent i ++ [out.2]) j ↔ m ∈ w.sent j ∨ j = i ∧ m = out.2 := by
  by_cases hj : j = i
  · subst hj
    simp
  · simp [hj]

theorem World.Whole.step (h : w.Whole crypto) (hsound : w.Sound crypto) (hmet : w.Met crypto a)
    (hstep : Stepped crypto w a w') : w'.Whole crypto := by
  cases hstep with
  | idle => exact h
  | @sent i out hpushing =>
    have hacc : ∀ m, World.Accepted ⟨w.shared,
        Function.update w.clones i ((w.clones i).send crypto out),
        Function.update w.sent i (w.sent i ++ [out.2])⟩ m ↔ w.Accepted m ∨ m = out.2 := by
      intro m
      constructor
      · intro ⟨j, hj⟩
        exact (mem_sent_send.1 hj).imp (⟨j, ·⟩) And.right
      · rintro (⟨j, hj⟩ | rfl)
        · exact ⟨j, mem_sent_send.2 (.inl hj)⟩
        · exact ⟨i, mem_sent_send.2 (.inr ⟨rfl, rfl⟩)⟩
    have hnew : ∀ m, w.Accepted m → messageId crypto m = messageId crypto out.2 → m = out.2 :=
      fun m ⟨j, hj⟩ ↦ hmet j m hj
    refine ⟨fun m m' hm hm' heq ↦ ?_, fun m hm ↦ (hacc m).2 (.inl (h.sharedAccepted m hm)), h.once,
      fun j ↦ ?_⟩
    · obtain hm | rfl := (hacc m).1 hm
      · obtain hm' | rfl := (hacc m').1 hm'
        · exact h.distinct m m' hm hm' heq
        · exact hnew m hm heq
      · obtain hm' | rfl := (hacc m').1 hm'
        · exact (hnew m' hm' heq.symm).symm
        · rfl
    · have hmono : ∀ m, w.Accepted m → _ := fun m hm ↦ (hacc m).2 (.inl hm)
      by_cases hj : j = i
      · subst hj
        simp only [Function.update_self]
        refine ((h.clones j).mono hmono (List.Subset.refl _)).send (fun m hm heq ↦ ?_) hpushing
          ((hacc out.2).2 (.inr rfl))
        exact ((hacc m).1 hm).elim (hnew m · heq) id
      · simp only [Function.update_of_ne hj]
        exact (h.clones j).mono hmono (List.Subset.refl _)
  | @prepared i stamp hpushing =>
    exact ⟨h.distinct, h.sharedAccepted, h.once, forall_update
      (P := fun j c ↦ c.Whole crypto w.Accepted (w.sent j) w.shared)
      ((h.clones i).prepare (hsound.clones i) hpushing hsound.numbered h.distinct h.sharedAccepted
        h.once hmet) fun j _ ↦ h.clones j⟩
  | @published i hpush =>
    have hgrown := messages_subset (hsound.tree_grows hpush)
    exact ⟨h.distinct, (h.clones i).headAccepted hpush.1, (h.clones i).headOnce hpush.1,
      forall_update (P := fun j c ↦ c.Whole crypto w.Accepted (w.sent j) (w.clones i).head)
      ((h.clones i).pushed hgrown (List.Subset.refl _)) fun j _ ↦
        (h.clones j).mono (fun _ hm ↦ hm) hgrown⟩
  | @refused i hpushing hff =>
    exact ⟨h.distinct, h.sharedAccepted, h.once, forall_update
      (P := fun j c ↦ c.Whole crypto w.Accepted (w.sent j) w.shared)
      ((h.clones i).pushed (List.Subset.refl _) (hmet hpushing hff)) fun j _ ↦ h.clones j⟩

omit [DecidableEq ι] in
theorem World.Whole.delivered (h : w.Whole crypto) (hsound : w.Sound crypto) (hpush : w.Pushes i) :
    w.sent i ⊆ messages (w.clones i).head := by
  have hpending := (hsound.clones i).drained hpush.1
  have haccounted := (h.clones i).accounted
  rw [hpending] at haccounted
  intro m hm
  obtain (hm | ⟨-, hm⟩) | ⟨o, ho, -⟩ := (haccounted.resolve_left not_blocked_nil) m hm
  · exact messages_subset (hsound.tree_grows hpush) hm
  · exact hm
  · simp at ho

/-- What a step keeps to: a push that is taken publishes everything its clone's sends accepted, no
file leaves the shared tree or is replaced in it, and no message is in it twice. -/
structure World.Upheld (crypto : Crypto) (w : World ι) (a : Action ι) : Prop where
  delivered : ∀ i, a = .push i → w.Pushes i → w.sent i ⊆ messages (w.step crypto a).shared
  kept : Git.tree w.shared <+: Git.tree (w.step crypto a).shared
  once : (messages (w.step crypto a).shared).Nodup

/-- Every step of a run is as `P` says. -/
def Along (crypto : Crypto) (P : World ι → Action ι → Prop) : List (Action ι) → World ι → Prop
  | [], _ => True
  | a :: actions, w => P w a ∧ Along crypto P actions (w.step crypto a)

theorem World.Whole.upheld (h : w.Whole crypto) (hsound : w.Sound crypto)
    (hmet : w.Met crypto a) : w.Upheld crypto a := by
  have hstep := stepped crypto w a
  refine ⟨fun i ha hpush ↦ ?_, hsound.kept hstep, (h.step hsound hmet hstep).once⟩
  subst ha
  have hshared : (w.step crypto (.push i)).shared = (w.clones i).head := by
    simp [World.step, hpush.1, hpush.2]
  rw [hshared]
  exact h.delivered hsound hpush

theorem along_upheld (actions : List (Action ι)) (h : w.Whole crypto) (hsound : w.Sound crypto)
    (hmet : Along crypto (Met crypto) actions w) : Along crypto (Upheld crypto) actions w := by
  induction actions generalizing w with
  | nil => trivial
  | cons a actions ih =>
    have hstep := stepped crypto w a
    exact ⟨h.upheld hsound hmet.1,
      ih (h.step hsound hmet.1 hstep) (hsound.stepped hstep) hmet.2⟩

/-- Over every interleaving of the clones whose steps lose nothing, the transport loses nothing. -/
theorem transport_lossless (actions : List (Action ι))
    (hmet : Along crypto (Met crypto) actions init) :
    Along crypto (Upheld crypto) actions init :=
  along_upheld actions whole_init sound_init hmet

namespace Sample

/-- A digest that tells messages apart by their signatures, each of which verifies. -/
def addressed : Crypto :=
  { Servanda.Sample.crypto with
    canonicalBytes := fun
      | .message m => [UInt8.ofNat m.sig.toNat]
      | _ => []
    sha256Hex := fun octets ↦ BitVec.ofNat 256 (octets.headD 0).toNat }

/-- A publication of one edge's visibility by one of its parties. -/
def publication (sender recipient : PublicKeyHex) (sig : SignatureHex) : WireMessage :=
  ⟨.publish (some (.id Servanda.Sample.edge.edgeId)), sender, recipient,
    Servanda.Sample.edge.proposedAt, sig⟩

def owners : WireMessage := publication Servanda.Sample.edge.owner Servanda.Sample.edge.owedTo 1

def creditors : WireMessage := publication Servanda.Sample.edge.owedTo Servanda.Sample.edge.owner 2

/-- Two clones commit over the same shared history; the second push is refused, and the next sync
of that clone succeeds. -/
def overlapping : List (Action Bool) :=
  [.send false (.persona owners.recipient, owners),
    .send true (.persona creditors.recipient, creditors),
    .prepare false 0, .prepare true 1, .push false, .push true, .prepare true 2, .push true]

/-- The clones sync one after the other, the second also while it has nothing to push. -/
def takingTurns : List (Action Bool) :=
  [.prepare true 0, .push true, .send false (.persona owners.recipient, owners),
    .prepare false 1, .push false, .send true (.persona creditors.recipient, creditors),
    .prepare true 2, .push true]

end Sample

theorem turns_lossless : Along Sample.addressed (Upheld Sample.addressed) Sample.takingTurns
    (init : World Bool) := by
  refine transport_lossless Sample.takingTurns ⟨fileable_of_absent ?_, fun _ _ ↦ ?_,
    fun j m hm ↦ ?_, fileable_of_absent ?_, fun _ h ↦ absurd ?_ h, fun j m hm ↦ ?_,
    fileable_of_absent ?_, fun _ h ↦ absurd ?_ h, trivial⟩
  case refine_3 | refine_6 =>
    revert j m hm
    decide +kernel
  all_goals decide +kernel

theorem refused_push_loses : ¬Along Sample.addressed (Upheld Sample.addressed) Sample.overlapping
    (init : World Bool) := by
  intro ⟨_, _, _, _, _, _, _, h, _⟩
  have hdelivered := h.delivered true rfl (by decide +kernel)
  have hmem : Sample.creditors ∈ _ := hdelivered (by decide +kernel)
  revert hmem
  decide +kernel

end Servanda.GitTransport
