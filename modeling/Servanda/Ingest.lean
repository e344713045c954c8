import Servanda.Extraction
import Servanda.Log

/-!
From the envelope log to the confirmation queue, one run after another.
-/

namespace Servanda.Extraction

inductive Disposition
  | reflexive | proposableAfterConfirmation | vaultLocalCounterpartyUnresolved | expectationOnly
  deriving DecidableEq

def Routed.disposition : Routed → Disposition
  | .reflexive _ => .reflexive
  | .proposableAfterConfirmation _ _ => .proposableAfterConfirmation
  | .vaultLocalCounterpartyUnresolved _ _ => .vaultLocalCounterpartyUnresolved
  | .expectationOnly _ _ => .expectationOnly

structure IngestCandidate where
  disposition : Disposition
  commitment : Option ExtractedCommitment
  expectation : Option Expectation
  quote : Text
  confidence : JsNumber

def toCandidate (routed : Routed) (quote : Text) (confidence : JsNumber) : IngestCandidate :=
  ⟨routed.disposition, routed.commitment, routed.expectation, quote, confidence⟩

/-- What ingest hands to a sink of an envelope. -/
abbrev Entry := Checked isHex64 × List IngestCandidate

structure PendingProposalSink (σ : Type) where
  hasIngestedEnvelope : σ → Checked isHex64 → Checked isHex64 → Bool
  ingestEnvelope : σ → Checked isHex64 → Checked isHex64 → List IngestCandidate → σ × List Text

/-- A sink that has an envelope exactly when it was given it. -/
structure PendingProposalSink.Remembers {σ : Type} (sink : PendingProposalSink σ) (empty : σ) :
    Prop where
  empty : ∀ persona id, sink.hasIngestedEnvelope empty persona id = false
  ingest : ∀ s persona id candidates persona' id',
    sink.hasIngestedEnvelope (sink.ingestEnvelope s persona id candidates).1 persona' id' = true ↔
      (persona', id') = (persona, id) ∨ sink.hasIngestedEnvelope s persona' id' = true

structure Queued where
  persona : Checked isHex64
  envelopeId : Checked isHex64
  candidate : IngestCandidate
  id : Text

structure MemoryPendingSink where
  ingested : List Text
  queued : List Queued
  next : ℕ

namespace MemoryPendingSink

def key (persona id : Checked isHex64) : Text := persona.val ++ text "/" ++ id.val

def ingestEnvelope (s : MemoryPendingSink) (persona id : Checked isHex64)
    (candidates : List IngestCandidate) : MemoryPendingSink × List Text :=
  let queued := candidates.mapIdx fun i candidate ↦
    (⟨persona, id, candidate, Unicode.units ("queued-".toList ++ Nat.toDigits 10 (s.next + i + 1))⟩
      : Queued)
  ( { ingested := key persona id :: s.ingested
      queued := s.queued ++ queued
      next := s.next + candidates.length },
    queued.map (·.id))

def sink : PendingProposalSink MemoryPendingSink where
  hasIngestedEnvelope s persona id := s.ingested.contains (key persona id)
  ingestEnvelope := ingestEnvelope

end MemoryPendingSink

/-- Of a size of zero there is no list of batches: the loop would not end. -/
def batched {α : Type} (items : List α) (size : ℕ+) : List (List α) :=
  (List.range ((items.length + size - 1) / size)).map fun b ↦ (items.drop (b * size)).take size

structure IngestOptions where
  persona : Text
  modelId : Text
  cursor : Option EnvelopeLogCursor
  batchSize : Option ℕ+
  maxBytes : Option ℕ
  resolveParty : Text → Option Text

structure IngestResult where
  persona : Text
  cursor : Option EnvelopeLogCursor
  cursorAdvanced : Bool
  log : Option EnvelopeLogStats
  logMissing : Bool
  alreadyIngested : ℕ
  envelopesIngested : ℕ
  envelopesDeferred : ℕ
  queued : ℕ
  rejectedBatches : List (ℕ × RunRejection)
  modelId : Text

inductive IngestError
  | notRegularFile | personaInvalid

/-- A model's answer to a batch, and the instant it is stamped with. -/
structure Turn where
  createdAt : Text
  response : Text

/-- A run: what it finds under the path, how it is asked, and what the model answers to each batch
if it answers at all. -/
structure IngestRun where
  target : LogTarget
  options : IngestOptions
  answers : ℕ → Option Turn

structure IngestTally (σ : Type) where
  sink : σ
  queued : ℕ
  ingested : ℕ
  deferred : ℕ
  rejectedBatches : List (ℕ × RunRejection)

section

variable {σ : Type} (sink : PendingProposalSink σ) (jsonParse : Text → Option Json)

/-- The candidates of each envelope of a batch, under its id as often as the id stands there. -/
def candidatesOf (batch : List Envelope) (run : ExtractionRun) : List Entry :=
  (batch.map (·.id)).eraseDups.map fun id ↦ (id,
    (run.items.filter fun item ↦ item.envelope.id = id).map fun item ↦
      toCandidate item.routed item.raw.quote.val item.raw.confidence.val)

def extractBatch (extractor : Extractor) (answer : Option Turn) (batch : List Envelope) :
    Except RunRejection (List Entry) :=
  match answer with
  | none => .error .transport
  | some turn =>
    match extractor.extract jsonParse turn.createdAt batch turn.response with
    | .error _ => .error .transport
    | .ok run =>
      match run.rejection with
      | some rejection => .error rejection
      | none => .ok (candidatesOf batch run)

/-- One entry after another goes to the sink. -/
def handOver (persona : Checked isHex64) (s : σ) (entries : List Entry) : σ :=
  entries.foldl (fun s entry ↦ (sink.ingestEnvelope s persona entry.1 entry.2).1) s

def ingestEntry (persona : Checked isHex64) (tally : IngestTally σ) (entry : Entry) :
    IngestTally σ :=
  let (s, ids) := sink.ingestEnvelope tally.sink persona entry.1 entry.2
  { tally with sink := s, queued := tally.queued + ids.length, ingested := tally.ingested + 1 }

def ingestBatch (extractor : Extractor) (answers : ℕ → Option Turn) (tally : IngestTally σ)
    (batch : List Envelope × ℕ) : IngestTally σ :=
  match extractBatch jsonParse extractor (answers batch.2) batch.1 with
  | .error rejection =>
    { tally with
      rejectedBatches := tally.rejectedBatches ++ [(batch.2 + 1, rejection)]
      deferred := tally.deferred + batch.1.length }
  | .ok entries => entries.foldl (ingestEntry sink extractor.persona) tally

namespace IngestRun

variable (run : IngestRun)

def read : Except EnvelopeLogError EnvelopeLogRead :=
  readEnvelopeLog jsonParse run.target ⟨run.options.persona, run.options.cursor,
    run.options.maxBytes⟩

def fresh (read : EnvelopeLogRead) (persona : Checked isHex64) (s : σ) : List Envelope :=
  read.envelopes.filter fun e ↦ !sink.hasIngestedEnvelope s persona e.id

def batches (read : EnvelopeLogRead) (persona : Checked isHex64) (s : σ) :
    List (List Envelope × ℕ) :=
  (batched (fresh sink read persona s) (run.options.batchSize.getD 12)).zipIdx

def extractor (persona : Checked isHex64) : Extractor :=
  ⟨persona, run.options.modelId, run.options.resolveParty⟩

/-- The function `ingestEnvelopeLog`. -/
def ingestEnvelopeLog (s : σ) : Except IngestError (IngestResult × σ) :=
  match run.read jsonParse with
  | .error .missing =>
    .ok ({  persona := run.options.persona
            cursor := run.options.cursor
            cursorAdvanced := false
            log := none
            logMissing := true
            alreadyIngested := 0
            envelopesIngested := 0
            envelopesDeferred := 0
            queued := 0
            rejectedBatches := []
            modelId := run.options.modelId }, s)
  | .error .notRegularFile => .error .notRegularFile
  | .ok read =>
    -- no line is an envelope of such a persona, and the constructor of `Extractor` throws
    match Checked.parse isHex64 (.str run.options.persona) with
    | none => .error .personaInvalid
    | some persona =>
      let startCursor : EnvelopeLogCursor :=
        { read.cursor with offset := read.cursor.offset - read.stats.bytesConsumed }
      let fresh := fresh sink read persona s
      let tally := (run.batches sink read persona s).foldl
        (ingestBatch sink jsonParse (run.extractor persona) run.answers) ⟨s, 0, 0, 0, []⟩
      let cursorAdvanced := decide (tally.deferred = 0)
      .ok ({  persona := run.options.persona
              cursor := some (if cursorAdvanced then read.cursor else startCursor)
              cursorAdvanced := cursorAdvanced
              log := some read.stats
              logMissing := false
              alreadyIngested := read.envelopes.length - fresh.length
              envelopesIngested := tally.ingested
              envelopesDeferred := tally.deferred
              queued := tally.queued
              rejectedBatches := tally.rejectedBatches
              modelId := run.options.modelId }, tally.sink)

/-- What the accepted batches come to, each with what it has for the sink. -/
def handed (persona : Checked isHex64) (s : σ) : List (List Entry) :=
  match run.read jsonParse with
  | .error _ => []
  | .ok read => (run.batches sink read persona s).filterMap fun batch ↦
    (extractBatch jsonParse (run.extractor persona) (run.answers batch.2) batch.1).toOption

/-- Where a run begins to read a file. -/
def startOf (dev ino : ℕ) (bytes : List UInt8) : ℕ :=
  match run.options.cursor with
  | none => 0
  | some cursor =>
    if cursor.dev = dev ∧ cursor.ino = ino ∧ cursor.offset ≤ bytes.length then cursor.offset else 0

/-- The persona's envelopes on the octets of a file between two offsets. -/
def envelopesBetween (bytes : List UInt8) (start stop : ℕ) : List Envelope :=
  ((Lines.decode ((bytes.drop start).take (stop - start))).splitOn Lines.newlineUnit).filterMap
    (standing jsonParse run.options.persona)

end IngestRun

/-- The sink with a list of what it was given beside it. -/
def recording : PendingProposalSink (σ × List (Checked isHex64 × Checked isHex64)) where
  hasIngestedEnvelope s := sink.hasIngestedEnvelope s.1
  ingestEnvelope s persona id candidates :=
    let (s', ids) := sink.ingestEnvelope s.1 persona id candidates
    ((s', s.2 ++ [(persona, id)]), ids)

/-- What is left of a list of batches when a run dies within one of them. -/
def cutShort {α : Type} (n j : ℕ) (batches : List (List α)) : List (List α) :=
  batches.take n ++ (batches[n]?.toList.map (·.take j))

/-- The states of a sink after runs of any log, persona, cursor and model, to their end or not. -/
inductive Reached (empty : σ) (C : List (List Entry) → Prop) :
    σ × List (Checked isHex64 × Checked isHex64) → Prop
  | start : Reached empty C (empty, [])
  | complete {s s' : σ × List (Checked isHex64 × Checked isHex64)} (h : Reached empty C s)
      (run : IngestRun) {result : IngestResult}
      (hrun : run.ingestEnvelopeLog (recording sink) jsonParse s = .ok (result, s'))
      (hc : ∀ persona, persona.val = run.options.persona →
        C (run.handed (recording sink) jsonParse persona s)) : Reached empty C s'
  | died {s : σ × List (Checked isHex64 × Checked isHex64)} (h : Reached empty C s)
      (run : IngestRun) (n j : ℕ) {persona : Checked isHex64}
      (hpersona : persona.val = run.options.persona)
      (hc : C (cutShort n j (run.handed (recording sink) jsonParse persona s))) :
      Reached empty C (handOver (recording sink) persona s
        (cutShort n j (run.handed (recording sink) jsonParse persona s)).flatten)

/-- No envelope is given twice, and none is left behind a cursor that moves on. -/
structure ExactlyOnce (s : σ × List (Checked isHex64 × Checked isHex64)) : Prop where
  once : s.2.Nodup
  covered : ∀ (run : IngestRun) (dev ino : ℕ) (bytes : List UInt8) (result : IngestResult)
    (s' : σ × List (Checked isHex64 × Checked isHex64)), run.target = .regular dev ino bytes →
    run.ingestEnvelopeLog (recording sink) jsonParse s = .ok (result, s') →
    result.cursorAdvanced = true →
      ∃ stop, run.startOf dev ino bytes ≤ stop ∧ result.cursor = some ⟨dev, ino, stop⟩ ∧
        ∀ e ∈ run.envelopesBetween jsonParse bytes (run.startOf dev ino bytes) stop,
          (e.content.persona, e.id) ∈ s'.2

/-- No envelope id stands in two of the batches. -/
def Apart (batches : List (List Entry)) : Prop :=
  batches.Pairwise fun a b ↦ ∀ x ∈ a, ∀ y ∈ b, x.1 ≠ y.1

end

theorem nodup_eraseDups {α : Type} [BEq α] [LawfulBEq α] (l : List α) : l.eraseDups.Nodup := by
  induction hlength : l.length using Nat.strong_induction_on generalizing l with
  | _ n ih =>
    cases l with
    | nil => exact List.nodup_nil
    | cons a l =>
      subst hlength
      rw [List.eraseDups_cons]
      refine List.nodup_cons.mpr ⟨by simp, ih _ ?_ _ rfl⟩
      exact Nat.lt_succ_of_le (List.length_filter_le _ _)

theorem mem_batched {α : Type} {items : List α} {size : ℕ+} {a : α} :
    (∃ batch ∈ batched items size, a ∈ batch) ↔ a ∈ items := by
  constructor
  · rintro ⟨batch, hbatch, ha⟩
    obtain ⟨b, -, rfl⟩ := List.mem_map.mp hbatch
    exact List.mem_of_mem_drop (List.mem_of_mem_take ha)
  · intro ha
    obtain ⟨i, hi, rfl⟩ := List.getElem_of_mem ha
    have hsize : 0 < (size : ℕ) := size.pos
    have hquotient : i / size * size ≤ i := Nat.div_mul_le_self i size
    have hremainder := Nat.lt_div_mul_add hsize (a := i)
    refine ⟨_, List.mem_map.mpr ⟨i / size, List.mem_range.mpr ?_, rfl⟩, ?_⟩
    · rw [Nat.lt_iff_add_one_le, Nat.le_div_iff_mul_le hsize, Nat.add_mul]
      omega
    · have hoffset : i - i / size * size < size := by omega
      rw [List.mem_iff_getElem]
      refine ⟨i - i / size * size, ?_, ?_⟩
      · rw [List.length_take, List.length_drop]
        omega
      · simp [Nat.add_sub_cancel' hquotient]

section

variable {σ : Type} {sink : PendingProposalSink σ} {jsonParse : Text → Option Json}
  {persona : Checked isHex64} {extractor : Extractor} {answers : ℕ → Option Turn}

theorem handOver_append (s : σ) (entries more : List Entry) :
    handOver sink persona s (entries ++ more) =
      handOver sink persona (handOver sink persona s entries) more := List.foldl_append

theorem ingestEntries_sink (tally : IngestTally σ) (entries : List Entry) :
    (entries.foldl (ingestEntry sink persona) tally).sink =
        handOver sink persona tally.sink entries ∧
      (entries.foldl (ingestEntry sink persona) tally).deferred = tally.deferred := by
  induction entries generalizing tally with
  | nil => exact ⟨rfl, rfl⟩
  | cons entry entries ih =>
    obtain ⟨hsink, hdeferred⟩ := ih (ingestEntry sink persona tally entry)
    exact ⟨hsink, hdeferred⟩

/-- The sink is given what the accepted batches have for it, and the others are deferred. -/
theorem ingestBatches (tally : IngestTally σ) (batches : List (List Envelope × ℕ)) :
    (batches.foldl (ingestBatch sink jsonParse extractor answers) tally).sink =
        handOver sink extractor.persona tally.sink (batches.filterMap fun batch ↦
          (extractBatch jsonParse extractor (answers batch.2) batch.1).toOption).flatten ∧
      ((batches.foldl (ingestBatch sink jsonParse extractor answers) tally).deferred = 0 →
        tally.deferred = 0 ∧ ∀ batch ∈ batches, batch.1 ≠ [] →
          ∃ entries, extractBatch jsonParse extractor (answers batch.2) batch.1 = .ok entries) := by
  induction batches generalizing tally with
  | nil => exact ⟨rfl, fun hdeferred ↦ ⟨hdeferred, by simp⟩⟩
  | cons batch batches ih =>
    rw [List.foldl_cons, List.filterMap_cons]
    obtain ⟨hsink, hdeferred⟩ := ih (ingestBatch sink jsonParse extractor answers tally batch)
    rw [hsink]
    cases hextract : extractBatch jsonParse extractor (answers batch.2) batch.1 with
    | error rejection =>
      have hbatch : ingestBatch sink jsonParse extractor answers tally batch =
          { tally with
            rejectedBatches := tally.rejectedBatches ++ [(batch.2 + 1, rejection)]
            deferred := tally.deferred + batch.1.length } := by
        rw [ingestBatch, hextract]
      rw [hbatch] at hdeferred ⊢
      refine ⟨rfl, fun hzero ↦ ?_⟩
      obtain ⟨hsum, hrest⟩ := hdeferred hzero
      obtain ⟨htally, hlength⟩ := Nat.add_eq_zero_iff.mp hsum
      refine ⟨htally, List.forall_mem_cons.mpr ⟨fun hne ↦ ?_, hrest⟩⟩
      exact absurd (List.eq_nil_of_length_eq_zero hlength) hne
    | ok entries =>
      have hbatch : ingestBatch sink jsonParse extractor answers tally batch =
          entries.foldl (ingestEntry sink extractor.persona) tally := by
        rw [ingestBatch, hextract]
      obtain ⟨hentries, hsame⟩ := @ingestEntries_sink σ sink extractor.persona
        tally entries
      rw [hbatch, hsame] at hdeferred
      rw [hbatch, hentries]
      refine ⟨(handOver_append _ _ _).symm, fun hzero ↦ ?_⟩
      obtain ⟨htally, hrest⟩ := hdeferred hzero
      exact ⟨htally, List.forall_mem_cons.mpr ⟨fun _ ↦ ⟨entries, hextract⟩, hrest⟩⟩

theorem handOver_recording (s : σ × List (Checked isHex64 × Checked isHex64))
    (entries : List Entry) : (handOver (recording sink) persona s entries).2 =
      s.2 ++ entries.map fun entry ↦ (persona, entry.1) := by
  induction entries generalizing s with
  | nil => simp [handOver]
  | cons entry entries ih =>
    have hstep := ih ((recording sink).ingestEnvelope s persona entry.1 entry.2).1
    rw [List.map_cons, List.append_cons]
    exact hstep

/-- A sink that answers for its list. -/
def Knows (sink : PendingProposalSink σ) (s : σ × List (Checked isHex64 × Checked isHex64)) :
    Prop := ∀ persona id, sink.hasIngestedEnvelope s.1 persona id = true ↔ (persona, id) ∈ s.2

theorem Knows.handOver {empty : σ} (hsink : sink.Remembers empty)
    {s : σ × List (Checked isHex64 × Checked isHex64)} (h : Knows sink s) (entries : List Entry) :
    Knows sink (handOver (recording sink) persona s entries) := by
  induction entries generalizing s with
  | nil => exact h
  | cons entry entries ih =>
    refine ih fun persona' id' ↦ ?_
    have hingest := hsink.ingest s.1 persona entry.1 entry.2 persona' id'
    rw [h] at hingest
    simpa [recording, or_comm] using hingest

/-- New ids, each under a name of its own, keep the list without repetition. -/
theorem nodup_handOver {s : σ × List (Checked isHex64 × Checked isHex64)} {entries : List Entry}
    (h : s.2.Nodup) (hentries : (entries.map Prod.fst).Nodup)
    (hnew : ∀ entry ∈ entries, (persona, entry.1) ∉ s.2) :
    (handOver (recording sink) persona s entries).2.Nodup := by
  rw [handOver_recording]
  refine h.append ?_ ?_
  · have hmap : entries.map (fun entry ↦ (persona, entry.1)) =
        (entries.map Prod.fst).map (Prod.mk persona) := by simp
    rw [hmap]
    exact hentries.map fun _ _ heq ↦ (Prod.mk.inj heq).2
  · intro call hcall hmem
    obtain ⟨entry, hentry, rfl⟩ := List.mem_map.mp hmem
    exact hnew entry hentry hcall

theorem cutShort_mem {α : Type} {n j : ℕ} {batches : List (List α)} {a : List α}
    (h : a ∈ cutShort n j batches) : ∃ b ∈ batches, a.Sublist b := by
  rcases List.mem_append.mp h with htake | hlast
  · exact ⟨a, List.mem_of_mem_take htake, .refl _⟩
  · obtain ⟨b, hb, rfl⟩ := List.mem_map.mp hlast
    exact ⟨b, List.mem_of_getElem? (Option.mem_toList.mp hb), List.take_sublist _ _⟩

theorem nodup_flatten {batches : List (List Entry)} (hapart : Apart batches)
    (hnodup : ∀ batch ∈ batches, (batch.map Prod.fst).Nodup) :
    (batches.flatten.map Prod.fst).Nodup := by
  rw [List.map_flatten, List.nodup_flatten]
  refine ⟨?_, ?_⟩
  · intro ids hids
    obtain ⟨batch, hbatch, rfl⟩ := List.mem_map.mp hids
    exact hnodup batch hbatch
  · refine List.pairwise_map.mpr (hapart.imp fun hne id ha hb ↦ ?_)
    obtain ⟨x, hx, rfl⟩ := List.mem_map.mp ha
    obtain ⟨y, hy, hxy⟩ := List.mem_map.mp hb
    exact hne x hx y hy hxy.symm

theorem toOption_eq_some_iff {ε α : Type} {x : Except ε α} {a : α} :
    x.toOption = some a ↔ x = .ok a := by
  cases x <;> simp [Except.toOption]

theorem extractBatch_ids {answer : Option Turn} {batch : List Envelope} {entries : List Entry}
    (h : extractBatch jsonParse extractor answer batch = .ok entries) :
    entries.map Prod.fst = (batch.map (·.id)).eraseDups := by
  unfold extractBatch at h
  split at h
  · cases h
  split at h
  · cases h
  split at h
  · cases h
  · cases h
    simp [candidatesOf, Function.comp_def]

theorem standing_persona {p line : Text} {e : Envelope} (h : standing jsonParse p line = some e) :
    e.content.persona.val = p := by
  unfold standing at h
  split_ifs at h
  exact of_decide_eq_true (Option.filter_eq_some_iff.mp h).2

namespace IngestRun

variable {run : IngestRun} {read : EnvelopeLogRead}

theorem mem_batches {s : σ} {batch : List Envelope × ℕ} {e : Envelope}
    (hbatch : batch ∈ run.batches sink read persona s) (he : e ∈ batch.1) :
    e ∈ fresh sink read persona s := by
  have hmem : batch.1 ∈ batched (fresh sink read persona s) (run.options.batchSize.getD 12) :=
    List.fst_mem_of_mem_zipIdx hbatch
  exact mem_batched.mp ⟨_, hmem, he⟩

theorem exists_batch {s : σ} {e : Envelope} (he : e ∈ fresh sink read persona s) :
    ∃ batch ∈ run.batches sink read persona s, e ∈ batch.1 := by
  obtain ⟨batch, hbatch, hmem⟩ := mem_batched.mpr he
  obtain ⟨b, hb⟩ := List.getElem?_of_mem hbatch
  exact ⟨(batch, b), List.mk_mem_zipIdx_iff_getElem?.mpr hb, hmem⟩

/-- Every batch that is handed over has ids of its own that the sink was not given before. -/
theorem handed_fresh {s : σ} {batch : List Entry}
    (h : batch ∈ run.handed sink jsonParse persona s) : (batch.map Prod.fst).Nodup ∧
      ∀ entry ∈ batch, sink.hasIngestedEnvelope s persona entry.1 = false := by
  unfold handed at h
  split at h
  · cases h
  next read hread =>
    obtain ⟨source, hsource, hentries⟩ := List.mem_filterMap.mp h
    have hids := extractBatch_ids (toOption_eq_some_iff.mp hentries)
    refine ⟨hids ▸ nodup_eraseDups _, fun entry hentry ↦ ?_⟩
    have hid : entry.1 ∈ (source.1.map (·.id)).eraseDups := hids ▸ List.mem_map_of_mem hentry
    obtain ⟨e, he, heq⟩ := List.mem_map.mp (List.mem_eraseDups.mp hid)
    have hfresh := (List.mem_filter.mp (mem_batches hsource he)).2
    rw [← heq]
    simpa using hfresh

/-- A run to its end leaves the sink with all that it hands over. -/
theorem ingestEnvelopeLog_sink {s s' : σ} {result : IngestResult}
    (h : run.ingestEnvelopeLog sink jsonParse s = .ok (result, s')) :
    s' = s ∨ ∃ persona : Checked isHex64, persona.val = run.options.persona ∧
      s' = handOver sink persona s (run.handed sink jsonParse persona s).flatten := by
  unfold ingestEnvelopeLog at h
  split at h
  · cases h
    exact .inl rfl
  · cases h
  next read hread =>
    split at h
    · cases h
    next persona hpersona =>
      cases h
      refine .inr ⟨persona, checked_parse_iff.mp hpersona, ?_⟩
      rw [(ingestBatches _ _).1, handed, hread]
      rfl

theorem consume_text (bytes : List UInt8) (start maxBytes : ℕ) :
    (consume bytes start maxBytes).text =
      Lines.decode ((bytes.drop start).take (consume bytes start maxBytes).bytes) := by
  obtain ⟨htext, hbytes, -⟩ | ⟨htext, hbytes, -⟩ := consume_cases bytes start maxBytes
  · have hprefix : Lines.whole Lines.newline ((bytes.drop start).take maxBytes) <+:
        bytes.drop start := (Lines.whole_isPrefix _).trans (List.take_prefix _ _)
    rw [htext, hbytes, ← List.prefix_iff_eq_take.mp hprefix]
  · rw [htext, hbytes, ← List.prefix_iff_eq_take.mp (List.take_prefix _ _)]

/-- A file is read from where its cursor stands, and what is read is what the next cursor covers. -/
theorem read_regular {dev ino : ℕ} {bytes : List UInt8}
    (htarget : run.target = .regular dev ino bytes) (hread : run.read jsonParse = .ok read) :
    ∃ stop, run.startOf dev ino bytes ≤ stop ∧ read.cursor = ⟨dev, ino, stop⟩ ∧
      read.envelopes =
        run.envelopesBetween jsonParse bytes (run.startOf dev ino bytes) stop := by
  rw [IngestRun.read, htarget, readEnvelopeLog] at hread
  cases hread
  have hstart :
      (if (run.options.cursor.any fun cursor ↦ decide (cursor.dev = dev ∧ cursor.ino = ino)) &&
        !((run.options.cursor.any fun cursor ↦ decide (cursor.dev = dev ∧ cursor.ino = ino)) &&
          decide (bytes.length < (run.options.cursor.map (·.offset)).getD 0))
      then (run.options.cursor.map (·.offset)).getD 0 else 0) = run.startOf dev ino bytes := by
    rw [startOf]
    cases run.options.cursor with
    | none => simp
    | some cursor =>
      by_cases hsame : cursor.dev = dev ∧ cursor.ino = ino
      · simp [hsame]
      · simp [hsame, ← and_assoc]
  dsimp only
  rw [hstart]
  refine ⟨_, Nat.le_add_right _ _, rfl, ?_⟩
  rw [readLines_envelopes, consume_text, envelopesBetween, Nat.add_sub_cancel_left]

/-- Lines that end, within one read, are read as they stand. -/
theorem read_ended {dev ino : ℕ} {bytes : List UInt8}
    (htarget : run.target = .regular dev ino bytes) (hcursor : run.options.cursor = none)
    (hmax : run.options.maxBytes = none) (hended : Lines.Ended Lines.newline bytes)
    (hlength : bytes.length ≤ defaultMaxBytes) :
    ∃ read, run.read jsonParse = .ok read ∧
      read.envelopes = (Lines.lines Lines.newline bytes).filterMap fun line ↦
        standing jsonParse run.options.persona (Lines.decode line) := by
  have hwindow : (bytes.drop 0).take defaultMaxBytes = bytes := List.take_of_length_le hlength
  have htext : (consume bytes 0 defaultMaxBytes).text = Lines.decode bytes := by
    have hcases := consume_cases bytes 0 defaultMaxBytes
    dsimp only at hcases
    rw [hwindow, hended.whole] at hcases
    obtain ⟨htext, -⟩ | ⟨htext, -⟩ := hcases
    · exact htext
    · exact htext
  rw [IngestRun.read, htarget, readEnvelopeLog, hcursor, hmax]
  refine ⟨_, rfl, ?_⟩
  simp only [Option.any_none, Bool.false_and, Bool.false_eq_true, if_false, Option.getD_none]
  rw [readLines_envelopes, htext, Lines.splitOn_decode, hended.splitOn, List.map_append,
    List.filterMap_append, List.filterMap_map]
  simp [standing, decode_nil, Function.comp_def]

theorem ingestEnvelopeLog_ok {s : σ} (hread : run.read jsonParse = .ok read)
    (hpersona : persona.val = run.options.persona) :
    ∃ result, run.ingestEnvelopeLog sink jsonParse s =
      .ok (result, handOver sink persona s (run.handed sink jsonParse persona s).flatten) := by
  rw [ingestEnvelopeLog, hread]
  dsimp only
  rw [checked_parse_iff.mpr hpersona]
  dsimp only
  rw [(ingestBatches _ _).1, handed, hread]
  exact ⟨_, rfl⟩

/-- A cursor moves on only over envelopes that the sink has, from this run or from one before. -/
theorem given_of_advanced {s s' : σ × List (Checked isHex64 × Checked isHex64)} (hs : Knows sink s)
    {result : IngestResult}
    (h : run.ingestEnvelopeLog (recording sink) jsonParse s = .ok (result, s'))
    (hadvanced : result.cursorAdvanced = true) :
    ∃ read, run.read jsonParse = .ok read ∧ result.cursor = some read.cursor ∧
      ∀ e ∈ read.envelopes, e.content.persona.val = run.options.persona →
        (e.content.persona, e.id) ∈ s'.2 := by
  unfold ingestEnvelopeLog at h
  split at h
  · cases h
    cases hadvanced
  · cases h
  next read hread =>
    split at h
    · cases h
    next persona hpersona =>
      cases h
      have hdeferred := of_decide_eq_true hadvanced
      refine ⟨read, hread, by simp only [hdeferred, decide_true, if_true], fun e he howner ↦ ?_⟩
      have hsame : e.content.persona = persona :=
        Subtype.ext (howner.trans (checked_parse_iff.mp hpersona).symm)
      have hbatches := @ingestBatches _ (recording sink) jsonParse (run.extractor persona)
        run.answers ⟨s, 0, 0, 0, []⟩ (run.batches (recording sink) read persona s)
      rw [hsame, hbatches.1, handOver_recording]
      by_cases hgiven : sink.hasIngestedEnvelope s.1 persona e.id = true
      · exact List.mem_append_left _ ((hs _ _).mp hgiven)
      · have hfresh : e ∈ fresh (recording sink) read persona s :=
          List.mem_filter.mpr ⟨he, by simpa [recording] using hgiven⟩
        obtain ⟨batch, hbatch, hmem⟩ := exists_batch hfresh
        obtain ⟨entries, hentries⟩ :=
          (hbatches.2 hdeferred).2 batch hbatch (List.ne_nil_of_mem hmem)
        have hid : e.id ∈ entries.map Prod.fst := by
          rw [extractBatch_ids hentries, List.mem_eraseDups]
          exact List.mem_map_of_mem hmem
        obtain ⟨entry, hentry, heq⟩ := List.mem_map.mp hid
        refine List.mem_append_right _ (List.mem_map.mpr ⟨entry, ?_, by rw [heq]; rfl⟩)
        exact List.mem_flatten.mpr ⟨entries, List.mem_filterMap.mpr
          ⟨batch, hbatch, toOption_eq_some_iff.mpr hentries⟩, hentry⟩

end IngestRun

/-- What holds after any runs: the sink answers for its list, and while batches stay apart the list
repeats nothing. -/
theorem Reached.knows {empty : σ} (hsink : sink.Remembers empty) {C : List (List Entry) → Prop}
    {s : σ × List (Checked isHex64 × Checked isHex64)} (h : Reached sink jsonParse empty C s) :
    Knows sink s := by
  induction h with
  | start =>
    intro persona id
    simp [hsink.empty]
  | complete _ run hrun _ ih =>
    obtain rfl | ⟨persona, _, rfl⟩ := IngestRun.ingestEnvelopeLog_sink hrun
    · exact ih
    · exact ih.handOver hsink _
  | died _ run n j _ _ ih => exact ih.handOver hsink _

theorem nodup_step {s : σ × List (Checked isHex64 × Checked isHex64)} (hs : Knows sink s)
    (hnodup : s.2.Nodup) {run : IngestRun} {batches : List (List Entry)} (hapart : Apart batches)
    (hpart : ∀ batch ∈ batches, ∃ whole ∈ run.handed (recording sink) jsonParse persona s,
      batch.Sublist whole) :
    (handOver (recording sink) persona s batches.flatten).2.Nodup := by
  refine nodup_handOver hnodup (nodup_flatten hapart fun batch hbatch ↦ ?_) fun entry hentry ↦ ?_
  · obtain ⟨whole, hwhole, hsub⟩ := hpart batch hbatch
    exact (IngestRun.handed_fresh hwhole).1.sublist (hsub.map _)
  · obtain ⟨batch, hbatch, hmem⟩ := List.mem_flatten.mp hentry
    obtain ⟨whole, hwhole, hsub⟩ := hpart batch hbatch
    have hnew := (IngestRun.handed_fresh hwhole).2 entry (hsub.subset hmem)
    intro hgiven
    have hhas := (hs persona entry.1).mpr hgiven
    rw [show sink.hasIngestedEnvelope s.1 persona entry.1 = false from hnew] at hhas
    cases hhas

theorem Reached.nodup {empty : σ} (hsink : sink.Remembers empty)
    {s : σ × List (Checked isHex64 × Checked isHex64)}
    (h : Reached sink jsonParse empty Apart s) : s.2.Nodup := by
  induction h with
  | start => exact List.nodup_nil
  | complete hreached run hrun hapart ih =>
    obtain rfl | ⟨persona, hpersona, rfl⟩ := IngestRun.ingestEnvelopeLog_sink hrun
    · exact ih
    · exact nodup_step (hreached.knows hsink) ih (hapart persona hpersona)
        fun batch hbatch ↦ ⟨batch, hbatch, .refl _⟩
  | died hreached run n j hpersona hapart ih =>
    exact nodup_step (hreached.knows hsink) ih hapart fun _ hbatch ↦ cutShort_mem hbatch

end

namespace MemoryPendingSink

theorem hex64_length (id : Checked isHex64) : id.val.length = 64 := by
  have hid := id.property
  rw [isHex64, Bool.and_eq_true] at hid
  exact beq_iff_eq.mp hid.1

/-- Ids are of one length, so a key is of one persona and one envelope. -/
theorem key_inj {persona id persona' id' : Checked isHex64} (h : key persona id = key persona' id') :
    (persona, id) = (persona', id') := by
  have hlength : persona.val.length = persona'.val.length :=
    (hex64_length persona).trans (hex64_length persona').symm
  obtain ⟨hfront, hback⟩ := List.append_inj (by simpa [key] using h) hlength
  exact Prod.ext (Subtype.ext hfront) (Subtype.ext (List.cons_injective hback))

theorem remembers : sink.Remembers ⟨[], [], 0⟩ := by
  refine ⟨fun _ _ ↦ rfl, fun s persona id candidates persona' id' ↦ ?_⟩
  have hkey : key persona' id' = key persona id ↔ (persona', id') = (persona, id) :=
    ⟨key_inj, fun h ↦ by rw [(Prod.mk.inj h).1, (Prod.mk.inj h).2]⟩
  simp [sink, ingestEnvelope, hkey]

end MemoryPendingSink

namespace Sample

/-- A model that finds nothing. -/
def nothing : Json := .obj [(text "results", .arr [])]

def nothingText : Text := Unicode.units ((canonicalize nothing).getD [])

/-- What `JSON.parse` answers on the line of the envelope and on the response. -/
def parseBoth (t : Text) : Option Json :=
  if t = Unicode.units Servanda.Sample.loggedText then some Servanda.Sample.logged.toJson
  else if t = nothingText then some nothing else none

/-- A log read from its beginning with batches of one envelope. -/
def run (bytes : List UInt8) : IngestRun where
  target := .regular 1 1 bytes
  options :=
    { persona := Servanda.Sample.loggedPersona
      modelId := text "model"
      cursor := none
      batchSize := some 1
      maxBytes := none
      resolveParty := fun _ ↦ none }
  answers := fun _ ↦ some ⟨createdAt, nothingText⟩

def given : Checked isHex64 × Checked isHex64 :=
  (Servanda.Sample.logged.content.persona, Servanda.Sample.logged.id)

theorem parseBoth_nothing : parseBoth nothingText = some nothing := by
  have hne : nothingText ≠ Unicode.units Servanda.Sample.loggedText := by decide +kernel
  rw [parseBoth, if_neg hne, if_pos rfl]

theorem extractBatch_nothing : extractBatch parseBoth
    ((run []).extractor Servanda.Sample.logged.content.persona) (some ⟨createdAt, nothingText⟩)
    [Servanda.Sample.logged] = .ok [(Servanda.Sample.logged.id, [])] := by
  have hparsed : parseExtractionResponse parseBoth nothingText = .ok [] := by
    rw [parseExtractionResponse, parseBoth_nothing]
    rfl
  simp [extractBatch, Extractor.extract, Extractor.assertSinglePersona, hparsed, Extractor.collect,
    candidatesOf, IngestRun.extractor, List.eraseDups_cons]

/-- The empty sink, with the list of what it was given. -/
def unused : MemoryPendingSink × List (Checked isHex64 × Checked isHex64) := (⟨[], [], 0⟩, [])

/-- The log as often as it says. -/
theorem read_run {bytes : List UInt8} {copies : ℕ} (hcopies : copies ≤ 2)
    (hbytes : bytes = (List.replicate copies
      (Servanda.Sample.loggedLine ++ [Lines.newline])).flatten) :
    ∃ read, (run bytes).read parseBoth = .ok read ∧
      read.envelopes = List.replicate copies Servanda.Sample.logged := by
  have hlines (n : ℕ) : Lines.Ended Lines.newline (List.replicate n
        (Servanda.Sample.loggedLine ++ [Lines.newline])).flatten ∧
      Lines.lines Lines.newline (List.replicate n
        (Servanda.Sample.loggedLine ++ [Lines.newline])).flatten =
        List.replicate n Servanda.Sample.loggedLine := by
    induction n with
    | zero => exact ⟨.inl rfl, rfl⟩
    | succ n ih =>
      have hline : Lines.Ended Lines.newline (Servanda.Sample.loggedLine ++ [Lines.newline]) :=
        .inr ⟨_, rfl⟩
      rw [List.replicate_succ, List.flatten_cons]
      refine ⟨hline.append ih.1, ?_⟩
      rw [hline.lines_append, ih.2, Lines.lines_snoc,
        List.splitOn_eq_singleton Servanda.Sample.newline_notMem_loggedLine]
      rfl
  have hlength : bytes.length ≤ defaultMaxBytes := by
    have hline := Servanda.Sample.length_loggedLine
    have hsum : bytes.length = copies * (Servanda.Sample.loggedLine.length + 1) := by
      simp [hbytes]
    have hmax : 2 * maxLineBytes ≤ defaultMaxBytes := by decide
    rw [hsum]
    exact (Nat.mul_le_mul hcopies hline.le).trans hmax
  subst hbytes
  obtain ⟨read, hread, henvelopes⟩ :=
    @IngestRun.read_ended parseBoth (run _) 1 1 _ rfl rfl rfl (hlines copies).1 hlength
  refine ⟨read, hread, ?_⟩
  rw [henvelopes, (hlines copies).2, List.filterMap_replicate_of_some]
  exact Servanda.Sample.standing_loggedLine (if_pos rfl)

theorem handed_run {bytes : List UInt8} {read : EnvelopeLogRead} {copies : ℕ}
    (hcopies : copies = 1 ∨ copies = 2) (hread : (run bytes).read parseBoth = .ok read)
    (henvelopes : read.envelopes = List.replicate copies Servanda.Sample.logged) :
    (run bytes).handed (recording MemoryPendingSink.sink) parseBoth
        Servanda.Sample.logged.content.persona unused =
      List.replicate copies [(Servanda.Sample.logged.id, [])] := by
  have hbatches : (run bytes).batches (recording MemoryPendingSink.sink) read
      Servanda.Sample.logged.content.persona unused =
        (List.replicate copies [Servanda.Sample.logged]).zipIdx := by
    have hfresh : IngestRun.fresh (recording MemoryPendingSink.sink) read
        Servanda.Sample.logged.content.persona unused =
          List.replicate copies Servanda.Sample.logged := by
      rw [IngestRun.fresh, henvelopes]
      exact List.filter_eq_self.mpr fun _ _ ↦ rfl
    have hsize : (run bytes).options.batchSize.getD 12 = 1 := rfl
    rw [IngestRun.batches, hfresh, hsize]
    rcases hcopies with rfl | rfl <;> simp [batched, List.range_succ]
  have hextract (b : ℕ) : extractBatch parseBoth
      ((run bytes).extractor Servanda.Sample.logged.content.persona) ((run bytes).answers b)
        [Servanda.Sample.logged] = .ok [(Servanda.Sample.logged.id, [])] := extractBatch_nothing
  rw [IngestRun.handed, hread]
  dsimp only
  rw [hbatches]
  rcases hcopies with rfl | rfl <;>
    simp [List.replicate_succ, hextract, Except.toOption]

/-- A complete run over a log of one line, or of the same line twice. -/
theorem ran {bytes : List UInt8} {copies : ℕ} (hcopies : copies = 1 ∨ copies = 2)
    (hbytes : bytes = (List.replicate copies
      (Servanda.Sample.loggedLine ++ [Lines.newline])).flatten) :
    ∃ result s, (run bytes).ingestEnvelopeLog (recording MemoryPendingSink.sink) parseBoth unused =
      .ok (result, s) ∧ s.2 = List.replicate copies given ∧
        (run bytes).handed (recording MemoryPendingSink.sink) parseBoth
          Servanda.Sample.logged.content.persona unused =
            List.replicate copies [(Servanda.Sample.logged.id, [])] := by
  obtain ⟨read, hread, henvelopes⟩ := read_run (by omega) hbytes
  have hhanded := handed_run hcopies hread henvelopes
  obtain ⟨result, hrun⟩ := @IngestRun.ingestEnvelopeLog_ok _ (recording MemoryPendingSink.sink)
    parseBoth Servanda.Sample.logged.content.persona (run bytes) read unused hread rfl
  refine ⟨result, _, hrun, ?_, hhanded⟩
  rw [handOver_recording, hhanded]
  rcases hcopies with rfl | rfl <;> rfl

end Sample

section

open Servanda.Extraction.Sample

end

end Servanda.Extraction
