import Servanda.Effects
import Servanda.Gestures
import Servanda.StoreInvariant

/-!
The confirmation queue: how extraction fills it, what a reader is shown of it, what a decision on
one of its items records, and the cards a person meets it through.
-/

namespace Servanda

open ServandaNode

inductive CandidateKind
  | commitment | expectation
  deriving DecidableEq, Repr

/-- What makes two queued candidates the same one: who, in which envelope, and what was said. -/
structure PendingIdentity where
  persona : PublicKeyHex
  envelopeId : Option Sha256Hex
  kind : CandidateKind
  intent : String
  owedTo : Option Counterparty
  due : Option Rfc3339
  deriving DecidableEq

/-- An expectation has neither an `owed_to` nor an `owed_by`, so its other party counts for nothing. -/
def pendingIdentity (persona : PublicKeyHex) (envelopeId : Option Sha256Hex) :
    Candidate → PendingIdentity
  | .commitment c => ⟨persona, envelopeId, .commitment, c.intent, c.owedTo, c.due⟩
  | .expectation e => ⟨persona, envelopeId, .expectation, e.expect, none, none⟩

structure IngestCandidate where
  commitment : Option Commitment
  expectation : Option Expectation

/-- The record a sink stores of a candidate. -/
def IngestCandidate.record (c : IngestCandidate) : Option Candidate :=
  (c.expectation.map .expectation).or (c.commitment.map .commitment)

structure LocalPendingSink where
  node : ServandaNode
  ingested : PublicKeyHex → List Sha256Hex

section

variable (crypto : Crypto) (pendingId : PendingIdentity → Sha256Hex) (now : Rfc3339)

def ServandaNode.queuePendingExtraction (node : ServandaNode) (persona : PublicKeyHex)
    (candidate : Candidate) (envelopeId : Option Sha256Hex) : ServandaNode × Sha256Hex :=
  let id := pendingId (pendingIdentity persona envelopeId candidate)
  let queue := Directory.insertValue PendingExtraction.id ⟨id, candidate, now⟩ (node.pending persona)
  ({ node with pending := Function.update node.pending persona queue }, id)

namespace LocalPendingSink

def hasIngestedEnvelope (sink : LocalPendingSink) (persona : PublicKeyHex)
    (envelopeId : Sha256Hex) : Bool := (sink.ingested persona).contains envelopeId

/-- The candidates are queued in order, and the envelope is marked after them. -/
def ingestEnvelope (sink : LocalPendingSink) (persona : PublicKeyHex) (envelopeId : Sha256Hex)
    (candidates : List IngestCandidate) : LocalPendingSink × List Sha256Hex :=
  let (node, ids) := (candidates.filterMap IngestCandidate.record).foldl (fun (node, ids) record ↦
    let (node, id) := node.queuePendingExtraction pendingId now persona record (some envelopeId)
    (node, ids ++ [id])) (sink.node, [])
  (⟨node, Function.update sink.ingested persona (envelopeId :: sink.ingested persona)⟩, ids)

end LocalPendingSink

/-- What may be queued for a persona: a promise of its own, or somebody else's. -/
def Candidate.Fits (persona : PublicKeyHex) : Candidate → Prop
  | .commitment c => c.owner = persona
  | .expectation e => e.source ≠ .persona persona

/-- A register whose queues were filled by the sink alone, while people decided on what they held
and anything else was written to the vaults. -/
inductive Filled : LocalPendingSink → Prop
  | start {sink : LocalPendingSink} (h : ∀ persona, sink.node.pending persona = []) : Filled sink
  | ingest {sink : LocalPendingSink} (now : Rfc3339) (persona : PublicKeyHex)
      (envelopeId : Sha256Hex) (candidates : List IngestCandidate) (h : Filled sink)
      (hfits : ∀ c ∈ candidates, ∀ r, c.record = some r → r.Fits persona) :
      Filled (sink.ingestEnvelope pendingId now persona envelopeId candidates).1
  | decided {sink : LocalPendingSink} (now : Rfc3339) (input : ConfirmInput) (h : Filled sink) :
      Filled { sink with node := (sink.node.confirm crypto now input).1 }
  | written {sink : LocalPendingSink} (vault : PublicKeyHex → Subtree) (h : Filled sink) :
      Filled { sink with node := { sink.node with vault := vault } }

end

/-- The queues as the sink leaves them: each in the order of its names, none twice. -/
structure Queued (node : ServandaNode) : Prop where
  sorted : ∀ persona, (node.pending persona).Pairwise fun p q ↦ p.id < q.id
  fits : ∀ persona, ∀ p ∈ node.pending persona, p.candidate.Fits persona

namespace Queued

variable {crypto : Crypto} {pendingId : PendingIdentity → Sha256Hex} {now : Rfc3339}
  {node : ServandaNode}

theorem of_pending (h : Queued node) {after : ServandaNode} (hsame : after.pending = node.pending) :
    Queued after := ⟨hsame ▸ h.sorted, hsame ▸ h.fits⟩

theorem eq_of_id (h : Queued node) {persona : PublicKeyHex} {p q : PendingExtraction}
    (hp : p ∈ node.pending persona) (hq : q ∈ node.pending persona) (hid : p.id = q.id) : p = q :=
  Directory.name_injOn (d := ⟨_, h.sorted persona⟩) hp hq hid

theorem getPending (h : Queued node) {persona : PublicKeyHex} {p : PendingExtraction}
    (hp : p ∈ node.pending persona) : node.getPending persona p.id = some p :=
  (Directory.get?_eq_some_iff (d := ⟨_, h.sorted persona⟩)).mpr ⟨hp, rfl⟩

theorem update (h : Queued node) {persona : PublicKeyHex} {queue : List PendingExtraction}
    (hsorted : queue.Pairwise fun p q ↦ p.id < q.id)
    (hfits : ∀ p ∈ queue, p.candidate.Fits persona) :
    Queued { node with pending := Function.update node.pending persona queue } := by
  constructor <;> intro other <;> by_cases ho : other = persona
  · subst ho
    simpa using hsorted
  · simpa [ho] using h.sorted other
  · subst ho
    simpa using hfits
  · simpa [ho] using h.fits other

theorem queue (h : Queued node) {persona : PublicKeyHex} {candidate : Candidate}
    {envelopeId : Option Sha256Hex} (hfits : candidate.Fits persona) :
    Queued (node.queuePendingExtraction pendingId now persona candidate envelopeId).1 := by
  apply h.update
  · exact Directory.insertValue_sorted _ (h.sorted persona)
  · intro p hp
    rcases Directory.mem_insertValue hp with rfl | hp
    · exact hfits
    · exact h.fits persona p hp

theorem deletePending (h : Queued node) (persona : PublicKeyHex) (id : Sha256Hex) :
    Queued (node.deletePending persona id) := by
  apply h.update
  · exact (h.sorted persona).filter _
  · exact fun p hp ↦ h.fits persona p (List.mem_of_mem_filter hp)

theorem confirm (h : Queued node) (input : ConfirmInput) :
    Queued (node.confirm crypto now input).1 := by
  have heffect := @confirm_confirmed crypto now node input
  generalize (node.confirm crypto now input).1 = after at heffect ⊢
  cases heffect with
  | refused => exact h
  | dequeued persona => exact h.deletePending persona _
  | expected | recorded =>
    have hvault (persona : PublicKeyHex) (s : Subtree) : Queued (node.withVault persona s) :=
      h.of_pending rfl
    exact (hvault _ _).deletePending _ _
  | dismissed => exact h.of_pending rfl
  | confirmed => exact h.of_pending rfl

theorem ingestEnvelope {sink : LocalPendingSink} (h : Queued sink.node) {persona : PublicKeyHex}
    {envelopeId : Sha256Hex} {candidates : List IngestCandidate}
    (hfits : ∀ c ∈ candidates, ∀ r, c.record = some r → r.Fits persona) :
    Queued (sink.ingestEnvelope pendingId now persona envelopeId candidates).1.node := by
  have hrecords : ∀ r ∈ candidates.filterMap IngestCandidate.record, r.Fits persona := by
    intro r hr
    obtain ⟨c, hc, hrecord⟩ := List.mem_filterMap.mp hr
    exact hfits c hc r hrecord
  apply List.foldlRecOn (motive := fun acc : ServandaNode × List Sha256Hex ↦ Queued acc.1)
  · exact h
  · exact fun acc hacc r hr ↦ hacc.queue (hrecords r hr)

end Queued

theorem Filled.queued {crypto : Crypto} {pendingId : PendingIdentity → Sha256Hex}
    {sink : LocalPendingSink} (h : Filled crypto pendingId sink) : Queued sink.node := by
  induction h with
  | start hempty => constructor <;> intro persona <;> simp [hempty]
  | ingest _ _ _ _ _ hfits ih => exact ih.ingestEnvelope hfits
  | decided _ input _ ih => exact ih.confirm input
  | written _ _ ih => exact ih.of_pending rfl

section

variable (crypto : Crypto)

/-- A listed item says what its candidate says. -/
def Shows (item : OpenLoopItem) : Candidate → Prop
  | .commitment c => item.intentOrExpect = c.intent ∧ item.counterparty.map Prod.fst = c.owedTo ∧
      item.due = c.due
  | .expectation e => item.intentOrExpect = e.expect ∧
      item.counterparty.map Prod.fst = some e.source ∧ item.due = none

/-- A candidate with the edited fields replaced. -/
def Candidate.edited (edit : Option ConfirmEdit) : Candidate → Candidate
  | .commitment c => .commitment { c with
      intent := (edit.bind (·.intent)).getD c.intent
      due := (edit.bind (·.due)).or c.due }
  | .expectation e => .expectation { e with expect := (edit.bind (·.intent)).getD e.expect }

def Subtree.record (s : Subtree) (id : Sha256Hex) : Candidate → Subtree
  | .commitment c => s.putCommitment crypto c
  | .expectation e => s.putExpectation id e

/-- A candidate is stored, and only its item has left the queue. -/
structure Taken (node after : ServandaNode) (viewer : PublicKeyHex) (p : PendingExtraction)
    (candidate : Candidate) : Prop where
  vault : after.vault = Function.update node.vault viewer
    ((node.vault viewer).record crypto p.id candidate)
  queue : ∀ q, q ∈ after.pending viewer ↔ q ∈ node.pending viewer ∧ q ≠ p
  others : ∀ persona, persona ≠ viewer → after.pending persona = node.pending persona

/-- What a viewer's queue shows is what deciding on it records. -/
structure QueueFaithful (node : ServandaNode) (viewer : PublicKeyHex) : Prop where
  shows : ∀ now (input : OpenLoopsInput) out, input.view = .pending →
    input.persona = some (.key viewer) → node.openLoops crypto now input = .ok out →
    ∀ item ∈ out.items, item.kind ≠ .edge →
      ∃ p ∈ node.pending viewer, item.id = p.id ∧ Shows item p.candidate
  confirms : ∀ now edit, ∀ p ∈ node.pending viewer,
    (node.confirm crypto now ⟨p.id, .confirm, edit⟩).2 = .ok .confirmed ∧
      Taken crypto node (node.confirm crypto now ⟨p.id, .confirm, edit⟩).1 viewer p p.candidate
  edits : ∀ now edit, ∀ p ∈ node.pending viewer,
    (∃ e, node.confirm crypto now ⟨p.id, .edit, edit⟩ = (node, .error e)) ∨
      (node.confirm crypto now ⟨p.id, .edit, edit⟩).2 = .ok .revised ∧
        Taken crypto node (node.confirm crypto now ⟨p.id, .edit, edit⟩).1 viewer p
          (p.candidate.edited edit)
  cards : ∀ now (options : Gestures.QueueCardOptions) out cards, options.viewer = viewer →
    node.openLoops crypto now (Gestures.queuePage options) = .ok out → out.total ≤ options.limit →
    Gestures.queueCards crypto now node options = .ok cards →
    ∀ id, (∃ card ∈ cards, card.id = id) ↔ ∃ p ∈ node.pending viewer, p.id = id ∧
      ∃ c, p.candidate = .commitment c ∧ c.owner = viewer

end

/-- Is the name one that a reader is shown? -/
def Counterparty.shown : Counterparty → Bool
  | .persona _ => true
  | .label s => !s.toList.all isWhitespace

/-- A promise of the viewer's own, owed to nobody or to somebody with a name. -/
def Candidate.plain : Candidate → Bool
  | .commitment c => c.owedTo.all Counterparty.shown
  | .expectation _ => false

section

variable {crypto : Crypto} {now asOf : Rfc3339} {node : ServandaNode} {viewer : PublicKeyHex}

theorem counterpartyOf_shown {c : Option Counterparty} :
    (counterpartyOf c).map Prod.fst = c ↔ c.all Counterparty.shown = true := by
  cases c with
  | none => simp [counterpartyOf]
  | some c =>
    cases c with
    | persona key => simp [counterpartyOf, Counterparty.shown]
    | label s =>
      by_cases hs : s.toList.all isWhitespace <;>
        simp [counterpartyOf, Counterparty.shown, hs]

theorem pendingItem_shows {p : PendingExtraction} :
    Shows (node.pendingItem crypto now viewer asOf p) p.candidate ↔ p.candidate.plain = true := by
  cases hp : p.candidate with
  | commitment c =>
    simp [Shows, pendingItem, candidateMembers, hp, Candidate.plain, counterpartyOf_shown]
  | expectation e => simp [Shows, pendingItem, candidateMembers, hp, Candidate.plain, counterpartyOf]

theorem edgeItem_kind {edge : Edge} {item : OpenLoopItem} {view : OpenLoopsView}
    (h : node.edgeItem crypto now viewer view asOf edge = some item) : item.kind = .edge := by
  simp only [edgeItem] at h
  split_ifs at h <;> rw [← Option.some.inj h]

/-- Besides inbound proposals, the view `pending` lists the queue. -/
theorem mem_itemsFor_pending {item : OpenLoopItem} (hkind : item.kind ≠ .edge) :
    item ∈ node.itemsFor crypto now viewer .pending asOf ↔
      ∃ p ∈ node.pending viewer, node.pendingItem crypto now viewer asOf p = item := by
  simp only [itemsFor, List.mem_append, List.mem_filterMap, true_or, if_true, List.mem_map]
  constructor
  · rintro (((⟨edge, -, hedge⟩ | ⟨c, -, hc⟩) | hp) | ⟨e, -, he⟩)
    · exact absurd (edgeItem_kind hedge) hkind
    · simp [commitmentItem] at hc
    · exact hp
    · simp [expectationItem] at he
  · exact fun hp ↦ .inl (.inr hp)

theorem mem_page {input : OpenLoopsInput} {out : OpenLoopsOutput} {item : OpenLoopItem}
    (hview : input.view = .pending) (hpersona : input.persona = some (.key viewer))
    (hout : node.openLoops crypto now input = .ok out) (hitem : item ∈ out.items)
    (hkind : item.kind ≠ .edge) :
    ∃ asOf, ∃ p ∈ node.pending viewer, node.pendingItem crypto now viewer asOf p = item := by
  have hpage (cursor : Option PageCursor)
      (hpage : item ∈ (node.servePage crypto now viewer .pending input.limit cursor).items) :
      ∃ asOf, ∃ p ∈ node.pending viewer, node.pendingItem crypto now viewer asOf p = item := by
    have hordered := List.mem_of_mem_drop (List.mem_of_mem_take hpage)
    exact ⟨_, (mem_itemsFor_pending hkind).mp ((List.mem_insertionSort _).mp hordered)⟩
  cases hcursor : input.cursor with
  | none =>
    simp only [openLoops, hpersona, hview, resolvePersona, hcursor] at hout
    cases hout
    exact hpage none hitem
  | some cursor =>
    cases cursor with
    | none => simp [openLoops, hpersona, resolvePersona, hcursor] at hout
    | some cursor =>
      simp only [openLoops, hpersona, hview, resolvePersona, hcursor] at hout
      split_ifs at hout
      cases hout
      exact hpage _ hitem

/-- A first page that reaches the end of the queue shows every item of it. -/
theorem queuePage_all {options : Gestures.QueueCardOptions} {out : OpenLoopsOutput}
    (hviewer : options.viewer = viewer)
    (hout : node.openLoops crypto now (Gestures.queuePage options) = .ok out)
    (htotal : out.total ≤ options.limit) {p : PendingExtraction} (hp : p ∈ node.pending viewer) :
    node.pendingItem crypto now viewer now p ∈ out.items := by
  subst hviewer
  simp only [openLoops, Gestures.queuePage, resolvePersona] at hout
  cases hout
  simp only [servePage, pageStart, List.drop_zero]
  rw [List.take_of_length_le htotal, ordered, List.mem_insertionSort]
  exact (mem_itemsFor_pending (by simp [pendingItem])).mpr ⟨p, hp, rfl⟩

/-- A decision on a queued promise of the viewer's own. -/
theorem confirm_commitment (h : Queued node) {p : PendingExtraction} {c : Commitment}
    (hp : p ∈ node.pending viewer) (hc : p.candidate = .commitment c)
    (hlocate : node.locate p.id = some (viewer, .pending)) (decision : ConfirmDecision)
    (hdecision : decision ≠ .dismiss) (edit : Option ConfirmEdit) :
    node.confirm crypto now ⟨p.id, decision, edit⟩ =
      ((node.withVault viewer ((node.vault viewer).putCommitment crypto
        (decided ⟨p.id, decision, edit⟩ c))).deletePending viewer p.id,
        .ok (if decision = .edit then .revised else .confirmed)) := by
  have howner : c.owner = viewer := by
    have hfits := h.fits viewer p hp
    rwa [hc] at hfits
  subst howner
  simp only [ServandaNode.confirm, hlocate, confirmPending, h.getPending hp, hc, hdecision, if_false,
    ne_eq, not_true_eq_false]
  rfl

theorem taken_of_filed (h : Queued node) {p : PendingExtraction} (hp : p ∈ node.pending viewer)
    (candidate : Candidate) :
    Taken crypto node ((node.withVault viewer
      ((node.vault viewer).record crypto p.id candidate)).deletePending viewer p.id) viewer p
      candidate := by
  refine ⟨rfl, fun q ↦ ?_, fun persona hne ↦ ?_⟩
  · simp only [ServandaNode.deletePending, withVault, Function.update_self, List.mem_filter, ne_eq,
      decide_not, Bool.not_eq_true', decide_eq_false_iff_not]
    apply and_congr_right
    intro hq
    exact not_congr ⟨fun hid ↦ h.eq_of_id hq hp hid, fun heq ↦ by rw [heq]⟩
  · simp [ServandaNode.deletePending, withVault, hne]

theorem confirmEdge_pending (persona : PublicKeyHex) (input : ConfirmInput) :
    (node.confirmEdge crypto now persona input).1.pending = node.pending := by
  obtain ⟨id, decision, edit⟩ := input
  simp only [confirmEdge]
  cases (node.vault persona).getEdge id with
  | none => rfl
  | some edge =>
    cases decision with
    | dismiss | edit => rfl
    | confirm =>
      dsimp only
      split_ifs <;> rfl

theorem confirmPending_others {persona : PublicKeyHex} (input : ConfirmInput)
    (hne : viewer ≠ persona) :
    (node.confirmPending crypto persona input).1.pending viewer = node.pending viewer := by
  have hsame (after : ServandaNode) (hafter : after.pending = node.pending) :
      (after.deletePending persona input.id).pending viewer = node.pending viewer := by
    simp [ServandaNode.deletePending, hafter, hne]
  simp only [confirmPending]
  cases node.getPending persona input.id with
  | none => rfl
  | some pending =>
    by_cases hdismiss : input.decision = .dismiss
    · simpa only [hdismiss, if_true] using hsame node rfl
    · simp only [hdismiss, if_false]
      cases pending.candidate with
      | expectation e => exact hsame (node.withVault _ _) rfl
      | commitment c =>
        by_cases howner : c.owner = persona
        · simpa only [howner, ne_eq, not_true_eq_false, if_false] using
            hsame (node.withVault _ _) rfl
        · simp only [howner, ne_eq, not_false_eq_true, if_true]

/-- A decision on an identifier that is not found in the viewer's queue leaves the queue as it is. -/
theorem confirm_elsewhere {input : ConfirmInput}
    (hlocate : node.locate input.id ≠ some (viewer, .pending)) :
    (node.confirm crypto now input).1.pending viewer = node.pending viewer := by
  unfold ServandaNode.confirm
  split
  · rfl
  next persona hpersona =>
    apply confirmPending_others
    intro heq
    exact hlocate (heq ▸ hpersona)
  · rw [confirmEdge_pending]

/-- A page of the queue as long as it takes. -/
theorem queuePage_exists (now : Rfc3339) : ∃ options : Gestures.QueueCardOptions, ∃ out,
    options.viewer = viewer ∧ node.openLoops crypto now (Gestures.queuePage options) = .ok out ∧
      out.total ≤ options.limit :=
  ⟨{  viewer := viewer
      place := .chat
      refFor := fun _ ↦ ⟨.message, []⟩
      limit := (node.ordered crypto now viewer .pending now).length + 1
      limit_pos := Nat.succ_pos _ }, _, rfl, rfl, Nat.le_succ _⟩

theorem plain_of_faithful (hqueued : Queued node) (h : QueueFaithful crypto node viewer)
    (now : Rfc3339) {p : PendingExtraction} (hp : p ∈ node.pending viewer) :
    p.candidate.plain = true := by
  obtain ⟨options, out, hviewer, hout, htotal⟩ :=
    @queuePage_exists crypto node viewer now
  have hitem := queuePage_all hviewer hout htotal hp
  obtain ⟨q, hq, hid, hshows⟩ := h.shows now (Gestures.queuePage options) out rfl
    (by rw [← hviewer]; rfl) hout _ hitem (by simp [pendingItem])
  obtain rfl := hqueued.eq_of_id hp hq hid
  exact pendingItem_shows.mp hshows

theorem cards_of_commitments {options : Gestures.QueueCardOptions} {out : OpenLoopsOutput}
    {cards : List Gestures.ConfirmCard} (hqueued : Queued node)
    (hcommitment : ∀ p ∈ node.pending viewer, ∃ c, p.candidate = .commitment c)
    (hviewer : options.viewer = viewer)
    (hout : node.openLoops crypto now (Gestures.queuePage options) = .ok out)
    (htotal : out.total ≤ options.limit)
    (hcards : Gestures.queueCards crypto now node options = .ok cards) (id : Sha256Hex) :
    (∃ card ∈ cards, card.id = id) ↔ ∃ p ∈ node.pending viewer, p.id = id ∧
      ∃ c, p.candidate = .commitment c ∧ c.owner = viewer := by
  rw [Gestures.queueCards, hout] at hcards
  cases hcards
  constructor
  · intro ⟨card, hcard, hid⟩
    obtain ⟨item, hitem, rfl⟩ := List.mem_map.mp hcard
    obtain ⟨hmem, hkind⟩ := List.mem_filter.mp hitem
    have hkind : item.kind ≠ .edge := by
      rw [of_decide_eq_true hkind]
      decide
    have hpersona : (Gestures.queuePage options).persona = some (.key viewer) := by
      rw [← hviewer]
      rfl
    obtain ⟨asOf, p, hp, rfl⟩ := mem_page rfl hpersona hout hmem hkind
    obtain ⟨c, hc⟩ := hcommitment p hp
    have hfits := hqueued.fits viewer p hp
    rw [hc] at hfits
    exact ⟨p, hp, hid, c, hc, hfits⟩
  · intro ⟨p, hp, hid, _⟩
    have hitem := queuePage_all hviewer hout htotal hp
    refine ⟨_, List.mem_map_of_mem (List.mem_filter.mpr ⟨hitem, rfl⟩), hid⟩

theorem queue_faithful_iff {pendingId : PendingIdentity → Sha256Hex} {sink : LocalPendingSink}
    (hfilled : Filled crypto pendingId sink) (viewer : PublicKeyHex) :
    QueueFaithful crypto sink.node viewer ↔ ∀ p ∈ sink.node.pending viewer,
      p.candidate.plain = true ∧ sink.node.locate p.id = some (viewer, .pending) := by
  have hqueued := hfilled.queued
  constructor
  · intro h p hp
    refine ⟨plain_of_faithful hqueued h p.queuedAt hp, ?_⟩
    by_contra hlocate
    obtain ⟨-, htaken⟩ := h.confirms p.queuedAt none p hp
    have hgone := (htaken.queue p).not.mpr fun hkept ↦ hkept.2 rfl
    rw [confirm_elsewhere hlocate] at hgone
    exact hgone hp
  · intro h
    have hcommitment (p : PendingExtraction) (hp : p ∈ sink.node.pending viewer) :
        ∃ c, p.candidate = .commitment c := by
      have hplain := (h p hp).1
      cases hc : p.candidate with
      | commitment c => exact ⟨c, rfl⟩
      | expectation e => simp [hc, Candidate.plain] at hplain
    constructor
    · intro now input out hview hpersona hout item hitem hkind
      obtain ⟨asOf, p, hp, rfl⟩ := mem_page hview hpersona hout hitem hkind
      exact ⟨p, hp, rfl, pendingItem_shows.mpr (h p hp).1⟩
    · intro now edit p hp
      obtain ⟨c, hc⟩ := hcommitment p hp
      rw [confirm_commitment hqueued hp hc (h p hp).2 .confirm (by decide)]
      refine ⟨rfl, ?_⟩
      have htaken := @taken_of_filed crypto _ _ hqueued p hp p.candidate
      rwa [hc] at htaken ⊢
    · intro now edit p hp
      obtain ⟨c, hc⟩ := hcommitment p hp
      rw [confirm_commitment hqueued hp hc (h p hp).2 .edit (by decide)]
      refine .inr ⟨rfl, ?_⟩
      have htaken := @taken_of_filed crypto _ _ hqueued p hp (p.candidate.edited edit)
      rw [hc] at htaken ⊢
      cases edit <;> exact htaken
    · intro now options out cards hviewer hout htotal hcards id
      exact cards_of_commitments hqueued hcommitment hviewer hout htotal hcards id

end

section QueuedOne

open Sample StoreInvariant

def emptySink : LocalPendingSink := ⟨creditorNode.node, fun _ ↦ []⟩

def queueOne (candidate : IngestCandidate) : LocalPendingSink :=
  (emptySink.ingestEnvelope (fun _ ↦ 7) (date 3 1 9) creditorKey 1 [candidate]).1

def theirs : IngestCandidate :=
  ⟨none, some ⟨"send the logo", .persona ownerKey, date 3 1 9, none, .opened⟩⟩

def mine : IngestCandidate :=
  ⟨some ⟨⟨"send the logo", creditorKey, some (.label "Studio"), none, date 3 1 9⟩, []⟩, none⟩

theorem queueOne_filled {candidate : IngestCandidate}
    (hfits : ∀ r, candidate.record = some r → r.Fits creditorKey) :
    Filled Sample.crypto (fun _ ↦ 7) (queueOne candidate) := by
  apply Filled.ingest _ _ _ _ (.start fun _ ↦ rfl)
  intro c hc
  rwa [List.mem_singleton.mp hc]

theorem queued_expectation_unfaithful :
    Filled Sample.crypto (fun _ ↦ 7) (queueOne theirs) ∧
      (((queueOne theirs).node.itemsFor Sample.crypto (date 3 2 9) creditorKey .pending
        (date 3 2 9)).map fun item ↦ (item.intentOrExpect, item.counterparty)) =
          [(noLocalPlaintext, none)] ∧
      ((queueOne theirs).node.confirm Sample.crypto (date 3 2 9)
        ⟨7, .edit, some ⟨some "send both logos", none⟩⟩).2 = .ok .confirmed ∧
      ¬QueueFaithful Sample.crypto (queueOne theirs).node creditorKey := by
  have hfilled : Filled Sample.crypto (fun _ ↦ 7) (queueOne theirs) :=
    queueOne_filled fun r hr ↦ by
      cases hr
      simp [Candidate.Fits, ownerKey, creditorKey]
  refine ⟨hfilled, by decide +kernel, by decide +kernel, fun h ↦ ?_⟩
  have hp : (⟨7, .expectation ⟨"send the logo", .persona ownerKey, date 3 1 9, none, .opened⟩,
      date 3 1 9⟩ : PendingExtraction) ∈ (queueOne theirs).node.pending creditorKey :=
    List.mem_singleton_self _
  exact absurd (plain_of_faithful hfilled.queued h (date 3 2 9) hp) (by decide)

theorem queued_promise_faithful : QueueFaithful Sample.crypto (queueOne mine).node creditorKey := by
  have hfilled : Filled Sample.crypto (fun _ ↦ 7) (queueOne mine) :=
    queueOne_filled fun r hr ↦ by
      cases hr
      rfl
  refine (queue_faithful_iff hfilled creditorKey).mpr fun p hp ↦ ?_
  rw [List.mem_singleton.mp hp]
  exact ⟨by decide +kernel, by decide +kernel⟩

end QueuedOne

end Servanda
