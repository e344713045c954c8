import Servanda.Directory
import Servanda.Ingest
import Servanda.IdentityHash

/-!
The identity a candidate is queued under, as the digest of canonical text, and the queue that is
keyed by it.
-/

namespace Servanda.Pending

open Unicode Extraction IdentityHash

inductive CandidateKind
  | commitment | expectation
  deriving DecidableEq, Repr

def CandidateKind.name : CandidateKind → Text
  | commitment => text "commitment"
  | expectation => text "expectation"

inductive Candidate
  | commitment (c : Commitment)
  | expectation (e : Expectation)

namespace Candidate

/-- `c.intent ?? c.expect`. -/
def words : Candidate → Text
  | commitment c => c.intent.val
  | expectation e => e.expect.val

/-- `c.owed_to ?? c.owed_by`: an expectation has neither of them. -/
def owedTo : Candidate → Option Text
  | commitment c => c.owedTo.map Subtype.val
  | expectation _ => none

def due : Candidate → Option Text
  | commitment c => c.due.map Subtype.val
  | expectation _ => none

/-- The other party: whom a commitment is owed to, or whom an expectation is of. -/
def party : Candidate → Option Text
  | commitment c => c.owedTo.map Subtype.val
  | expectation e => some e.promiser.val

/-- Another reading of the same promise. -/
def Rereads : Candidate → Candidate → Prop
  | commitment c, commitment c' =>
    c' = { c with createdAt := c'.createdAt, source := c'.source, confidence := c'.confidence }
  | expectation e, expectation e' => e' = { e with since := e'.since }
  | _, _ => False

end Candidate

/-- What is queued, for whom and from which envelope. -/
structure Submission where
  persona : Checked isHex64
  envelopeId : Option (Checked isHex64)
  kind : CandidateKind
  candidate : Candidate

structure PendingExtraction where
  id : Sha256Hex
  persona : Checked isHex64
  candidate : Candidate
  candidateKind : CandidateKind
  envelopeId : Option (Checked isHex64)
  queuedAt : Text

/-- The queue of each persona, one file an item under the item's id. -/
structure LocalStore where
  pending : Checked isHex64 → Directory PendingExtraction.id

namespace LocalStore

def putPending (store : LocalStore) (item : PendingExtraction) : LocalStore :=
  ⟨Function.update store.pending item.persona ((store.pending item.persona).put item)⟩

def getPending (store : LocalStore) (persona : Checked isHex64) (id : Sha256Hex) :
    Option PendingExtraction := (store.pending persona).get? id

end LocalStore

def pendingPreimage (x : Submission) : Json :=
  .obj [(text "persona", .str x.persona.val),
    (text "envelopeId", nullable (x.envelopeId.map Subtype.val)),
    (text "kind", .str x.kind.name), (text "intent", .str x.candidate.words),
    (text "owed_to", nullable x.candidate.owedTo), (text "due", nullable x.candidate.due)]

theorem canonicalBytes_isSome (x : Submission) : (canonicalBytes (pendingPreimage x)).isSome := by
  have hheight (s : Option Text) : (nullable s).height = 0 := by cases s <;> rfl
  rw [canonicalBytes, Option.isSome_map, canonicalize, write_isSome_iff]
  simp [pendingPreimage, Json.height, Json.membersHeight, hheight, maxCanonicalizationDepth]

/-- The octets whose digest identifies a candidate. -/
def pendingOctets (x : Submission) : List UInt8 :=
  (canonicalBytes (pendingPreimage x)).get (canonicalBytes_isSome x)

variable (sha256Hex : List UInt8 → Sha256Hex)

def pendingId (x : Submission) : Sha256Hex := sha256Hex (pendingOctets x)

def queuePendingExtraction (store : LocalStore) (x : Submission) (queuedAt : Text) : LocalStore :=
  store.putPending
    ⟨pendingId sha256Hex x, x.persona, x.candidate, x.kind, x.envelopeId, queuedAt⟩

/-- Candidates queued one after another, each at its instant. -/
def queueAll (store : LocalStore) (batch : List (Submission × Text)) : LocalStore :=
  batch.foldl (fun store x ↦ queuePendingExtraction sha256Hex store x.1 x.2) store

/-- The promise a candidate is a reading of. -/
structure Promise where
  persona : Checked isHex64
  envelopeId : Option (Checked isHex64)
  kind : CandidateKind
  words : Text
  party : Option Text
  due : Option Text
  deriving DecidableEq

namespace Submission

def promise (x : Submission) : Promise :=
  ⟨x.persona, x.envelopeId, x.kind, x.candidate.words, x.candidate.party, x.candidate.due⟩

def Rereads (x y : Submission) : Prop :=
  x.persona = y.persona ∧ x.envelopeId = y.envelopeId ∧ x.kind = y.kind ∧
    x.candidate.Rereads y.candidate

/-- The same words at the same place to different people, where no `owed_to` tells them apart. -/
def OnlyPartiesDiffer (x y : Submission) : Prop :=
  x.persona = y.persona ∧ x.envelopeId = y.envelopeId ∧ x.kind = y.kind ∧
    x.candidate.words = y.candidate.words ∧ x.candidate.due = y.candidate.due ∧
    x.candidate.owedTo = y.candidate.owedTo ∧ x.candidate.party ≠ y.candidate.party

end Submission

/-- The ids of a batch name its promises, and its queue has an entry for each. -/
structure Distinguishes (batch : List (Submission × Text)) : Prop where
  apart : ∀ x ∈ batch, ∀ y ∈ batch, pendingId sha256Hex x.1 = pendingId sha256Hex y.1 →
    x.1.promise = y.1.promise
  rereads : ∀ x ∈ batch, ∀ y ∈ batch, x.1.Rereads y.1 →
    pendingId sha256Hex x.1 = pendingId sha256Hex y.1
  entries : (batch.map (·.1.promise)).Nodup → ∀ store,
    (batch.map fun x ↦ pendingId sha256Hex x.1).Nodup ∧ ∀ x ∈ batch,
      (queueAll sha256Hex store batch).getPending x.1.persona (pendingId sha256Hex x.1) =
        some ⟨pendingId sha256Hex x.1, x.1.persona, x.1.candidate, x.1.kind, x.1.envelopeId, x.2⟩

section Preimage

variable {x y : Submission}

theorem pendingOctets_spec (x : Submission) :
    canonicalBytes (pendingPreimage x) = some (pendingOctets x) := (Option.some_get _).symm

theorem distinct_pendingPreimage (x : Submission) : (pendingPreimage x).Distinct := by
  have hnullable (s : Option Text) : (nullable s).Distinct := by
    cases s with
    | none => exact .null
    | some s => exact .str s
  refine .obj (by decide : [text "persona", text "envelopeId", text "kind", text "intent",
    text "owed_to", text "due"].Nodup) ?_
  simp only [List.mem_cons, List.not_mem_nil, or_false]
  rintro m (rfl | rfl | rfl | rfl | rfl | rfl)
  · exact .str _
  · exact hnullable _
  · exact .str _
  · exact .str _
  · exact hnullable _
  · exact hnullable _

theorem name_injective : Function.Injective CandidateKind.name := by
  have hne : text "commitment" ≠ text "expectation" := by decide
  intro kind kind' h
  cases kind <;> cases kind'
  · rfl
  · exact absurd h hne
  · exact absurd h.symm hne
  · rfl

/-- What the octets of a candidate say of it. -/
theorem pendingOctets_eq_iff : pendingOctets x = pendingOctets y ↔
    x.persona = y.persona ∧ x.envelopeId = y.envelopeId ∧ x.kind = y.kind ∧
      x.candidate.words = y.candidate.words ∧ x.candidate.due = y.candidate.due ∧
      x.candidate.owedTo = y.candidate.owedTo := by
  constructor
  · intro h
    have hsame := same_of_canonicalBytes (distinct_pendingPreimage x) (distinct_pendingPreimage y)
      (pendingOctets_spec x) (h ▸ pendingOctets_spec y)
    have henvelope {s t : Option (Checked isHex64)} (h : s.map Subtype.val = t.map Subtype.val) :
        s = t := Option.map_injective Subtype.val_injective h
    have hmembers := members_of_same hsame rfl
    simp only [List.forall₂_cons, List.forall₂_nil_left_iff] at hmembers
    obtain ⟨hpersona, henvelopeId, hkind, hwords, howedTo, hdue, -⟩ := hmembers
    exact ⟨Subtype.ext (str_of_same hpersona), henvelope (nullable_of_same henvelopeId),
      name_injective (str_of_same hkind), str_of_same hwords, nullable_of_same hdue,
      nullable_of_same howedTo⟩
  · rintro ⟨hpersona, henvelope, hkind, hwords, hdue, howed⟩
    have hpreimage : pendingPreimage x = pendingPreimage y := by
      simp only [pendingPreimage, hpersona, henvelope, hkind, hwords, hdue, howed]
    unfold pendingOctets
    congr 1
    rw [hpreimage]

end Preimage

section Queue

variable {sha256Hex}

theorem getPending_queue_of_ne {store : LocalStore} {x : Submission} {queuedAt : Text}
    {persona : Checked isHex64} {id : Sha256Hex} (h : id ≠ pendingId sha256Hex x) :
    (queuePendingExtraction sha256Hex store x queuedAt).getPending persona id =
      store.getPending persona id := by
  unfold queuePendingExtraction LocalStore.putPending LocalStore.getPending
  by_cases hpersona : persona = x.persona
  · subst hpersona
    dsimp only
    rw [Function.update_self]
    exact Directory.get?_put_of_ne _ h
  · dsimp only
    rw [Function.update_of_ne hpersona]

theorem getPending_queue_self (store : LocalStore) (x : Submission) (queuedAt : Text) :
    (queuePendingExtraction sha256Hex store x queuedAt).getPending x.persona
      (pendingId sha256Hex x) = some ⟨pendingId sha256Hex x, x.persona, x.candidate, x.kind,
        x.envelopeId, queuedAt⟩ := by
  unfold queuePendingExtraction LocalStore.putPending LocalStore.getPending
  dsimp only
  rw [Function.update_self]
  exact Directory.get?_put_self _ _

theorem getPending_queueAll_of_notMem {batch : List (Submission × Text)} {persona : Checked isHex64}
    {id : Sha256Hex} (h : id ∉ batch.map fun x ↦ pendingId sha256Hex x.1) (store : LocalStore) :
    (queueAll sha256Hex store batch).getPending persona id = store.getPending persona id := by
  induction batch generalizing store with
  | nil => rfl
  | cons x batch ih =>
    rw [List.map_cons, List.mem_cons, not_or] at h
    exact (ih h.2 _).trans (getPending_queue_of_ne h.1)

/-- Candidates of different ids each keep an entry. -/
theorem getPending_queueAll {batch : List (Submission × Text)}
    (h : (batch.map fun x ↦ pendingId sha256Hex x.1).Nodup) (store : LocalStore) :
    ∀ x ∈ batch, (queueAll sha256Hex store batch).getPending x.1.persona
      (pendingId sha256Hex x.1) = some ⟨pendingId sha256Hex x.1, x.1.persona, x.1.candidate,
        x.1.kind, x.1.envelopeId, x.2⟩ := by
  induction batch generalizing store with
  | nil => exact List.forall_mem_nil _
  | cons x batch ih =>
    obtain ⟨habsent, hnodup⟩ := List.nodup_cons.mp h
    refine List.forall_mem_cons.mpr ⟨?_, ih hnodup _⟩
    exact (getPending_queueAll_of_notMem habsent _).trans (getPending_queue_self store x.1 x.2)

end Queue

theorem Submission.Rereads.octets {x y : Submission} (h : x.Rereads y) :
    pendingOctets x = pendingOctets y := by
  obtain ⟨hpersona, henvelope, hkind, hcandidate⟩ := h
  refine pendingOctets_eq_iff.mpr ⟨hpersona, henvelope, hkind, ?_⟩
  cases hx : x.candidate with
  | commitment c =>
    cases hy : y.candidate with
    | commitment c' =>
      rw [hx, hy] at hcandidate
      change c' = _ at hcandidate
      rw [hcandidate]
      exact ⟨rfl, rfl, rfl⟩
    | expectation e => simp [hx, hy, Candidate.Rereads] at hcandidate
  | expectation e =>
    cases hy : y.candidate with
    | commitment c => simp [hx, hy, Candidate.Rereads] at hcandidate
    | expectation e' =>
      rw [hx, hy] at hcandidate
      change e' = _ at hcandidate
      rw [hcandidate]
      exact ⟨rfl, rfl, rfl⟩

/-- What somebody is expected to do, as it is queued. -/
def expected (promiser : Checked isKeyOrExternalLabel) : Submission where
  persona := ⟨List.replicate 64 0x30, by decide⟩
  envelopeId := some ⟨List.replicate 64 0x31, by decide⟩
  kind := .expectation
  candidate := .expectation
    { expect := ⟨text "send the report", by decide⟩
      promiser := promiser
      since := ⟨text "2026-07-14T10:00:00Z", by decide⟩
      contextRefs := []
      state := .opened }

def digest (bytes : List UInt8) : Sha256Hex :=
  BitVec.ofNat 256 (bytes.foldl (fun n b ↦ 256 * n + b.toNat) 0)

end Servanda.Pending
