import Servanda.Lines
import Servanda.Seal

namespace Servanda

open Lines

structure EnvelopeLogCursor where
  dev : ℕ
  ino : ℕ
  offset : ℕ
  deriving DecidableEq

structure EnvelopeLogStats where
  bytesConsumed : ℕ
  linesRead : ℕ
  linesMalformed : ℕ
  linesForeignPersona : ℕ
  envelopes : ℕ
  rotated : Bool
  truncated : Bool
  budgetExhausted : Bool
  partialTailBytes : ℕ

structure EnvelopeLogRead where
  envelopes : List Envelope
  cursor : EnvelopeLogCursor
  stats : EnvelopeLogStats

structure ReadEnvelopeLogOptions where
  persona : Text
  cursor : Option EnvelopeLogCursor
  maxBytes : Option ℕ

/-- What is found under a path when it is opened. -/
inductive LogTarget
  | missing
  | otherKind
  | regular (dev ino : ℕ) (bytes : List UInt8)

inductive EnvelopeLogError
  | missing | notRegularFile
  deriving DecidableEq

def defaultMaxBytes : ℕ := 8 * 1024 * 1024

def maxLineBytes : ℕ := 1024 * 1024

structure Consumed where
  text : Text
  bytes : ℕ
  partialTailBytes : ℕ
  budgetExhausted : Bool

/-- The size is that of the bytes: nobody truncates the file between its `fstat` and its read. -/
def consume (bytes : List UInt8) (start maxBytes : ℕ) : Consumed :=
  let want := min maxBytes (bytes.length - start)
  if want = 0 then ⟨[], 0, 0, false⟩
  else
    let buffer := (bytes.drop start).take want
    let budgetExhausted := decide (want < bytes.length - start)
    if whole newline buffer = [] then
      if maxLineBytes ≤ buffer.length then ⟨decode buffer, buffer.length, 0, budgetExhausted⟩
      else ⟨[], 0, buffer.length, budgetExhausted⟩
    else
      ⟨decode (whole newline buffer), (whole newline buffer).length,
        buffer.length - (whole newline buffer).length, budgetExhausted⟩

structure LineTally where
  envelopes : List Envelope
  linesRead : ℕ
  linesMalformed : ℕ
  linesForeignPersona : ℕ

section

-- `JSON.parse`, with nothing for an exception
variable (jsonParse : Text → Option Json)

def readLine (persona : Text) (tally : LineTally) (line : Text) : LineTally :=
  if line.length = 0 then tally
  else
    let tally := { tally with linesRead := tally.linesRead + 1 }
    match jsonParse line with
    | none => { tally with linesMalformed := tally.linesMalformed + 1 }
    | some parsed =>
      match Envelope.parse parsed with
      | none => { tally with linesMalformed := tally.linesMalformed + 1 }
      | some envelope =>
        if envelope.content.persona.val ≠ persona then
          { tally with linesForeignPersona := tally.linesForeignPersona + 1 }
        else { tally with envelopes := tally.envelopes ++ [envelope] }

def readLines (persona : Text) (lines : List Text) : LineTally :=
  lines.foldl (readLine jsonParse persona) ⟨[], 0, 0, 0⟩

def readEnvelopeLog (target : LogTarget) (options : ReadEnvelopeLogOptions) :
    Except EnvelopeLogError EnvelopeLogRead :=
  match target with
  | .missing => .error .missing
  | .otherKind => .error .notRegularFile
  | .regular dev ino bytes =>
    let sameFile := options.cursor.any fun cursor ↦ cursor.dev = dev ∧ cursor.ino = ino
    let rotated := options.cursor.isSome && !sameFile
    let offset := (options.cursor.map (·.offset)).getD 0
    let truncated := sameFile && decide (bytes.length < offset)
    let start := if sameFile && !truncated then offset else 0
    let chunk := consume bytes start (options.maxBytes.getD defaultMaxBytes)
    let tally := readLines jsonParse options.persona (chunk.text.splitOn newlineUnit)
    .ok
      { envelopes := tally.envelopes
        cursor := ⟨dev, ino, start + chunk.bytes⟩
        stats :=
          { bytesConsumed := chunk.bytes
            linesRead := tally.linesRead
            linesMalformed := tally.linesMalformed
            linesForeignPersona := tally.linesForeignPersona
            envelopes := tally.envelopes.length
            rotated := rotated
            truncated := truncated
            budgetExhausted := chunk.budgetExhausted
            partialTailBytes := chunk.partialTailBytes } }

/-- The envelope of a persona that stands alone on a line. -/
def standing (persona line : Text) : Option Envelope :=
  if line.length = 0 then none
  else ((jsonParse line).bind Envelope.parse).filter fun e ↦ e.content.persona.val = persona

end

section

variable {jsonParse : Text → Option Json} {persona : Text}

theorem readLine_envelopes (tally : LineTally) (line : Text) :
    (readLine jsonParse persona tally line).envelopes =
      tally.envelopes ++ (standing jsonParse persona line).toList := by
  unfold readLine standing
  split_ifs
  · simp
  · cases jsonParse line with
    | none => simp
    | some parsed =>
      dsimp only
      cases hparse : Envelope.parse parsed with
      | none => simp [hparse]
      | some envelope =>
        dsimp only
        split_ifs with hpersona
        · simp [hparse, Option.filter, hpersona]
        · simp [hparse, Option.filter, not_not.mp hpersona]

theorem readLines_envelopes (lines : List Text) :
    (readLines jsonParse persona lines).envelopes =
      lines.filterMap (standing jsonParse persona) := by
  have hfold (tally : LineTally) : (lines.foldl (readLine jsonParse persona) tally).envelopes =
      tally.envelopes ++ lines.filterMap (standing jsonParse persona) := by
    induction lines generalizing tally with
    | nil => simp
    | cons line lines ih =>
      rw [List.foldl_cons, ih, readLine_envelopes, List.append_assoc, List.filterMap_cons]
      cases standing jsonParse persona line <;> rfl
  exact hfold _

theorem decode_nil : decode [] = [] := rfl

/-- A read takes whole lines, waits for the first newline, or gives up on a line too long. -/
theorem consume_cases (bytes : List UInt8) (start maxBytes : ℕ) :
    let window := (bytes.drop start).take maxBytes
    let chunk := consume bytes start maxBytes
    (chunk.text = decode (whole newline window) ∧ chunk.bytes = (whole newline window).length ∧
        (newline ∈ window ∨ window.length < maxLineBytes)) ∨
      chunk.text = decode window ∧ chunk.bytes = window.length ∧ newline ∉ window ∧
        maxLineBytes ≤ window.length := by
  dsimp only
  have htake : (bytes.drop start).take (min maxBytes (bytes.length - start)) =
      (bytes.drop start).take maxBytes := by
    rw [← List.length_drop, List.take_eq_take_min (i := maxBytes)]
  have hnil (h : newline ∉ (bytes.drop start).take maxBytes) :
      whole newline ((bytes.drop start).take maxBytes) = [] := whole_eq_nil_iff.mpr h
  unfold consume
  dsimp only
  rw [htake]
  split_ifs with hwant hwhole hlong
  · have hwindow : (bytes.drop start).take maxBytes = [] := by
      rw [← htake, hwant, List.take_zero]
    refine .inl ⟨?_, ?_, .inr ?_⟩
    all_goals rw [hwindow]
    · rfl
    · rfl
    · decide
  · exact .inr ⟨rfl, rfl, whole_eq_nil_iff.mp hwhole, hlong⟩
  · refine .inl ⟨?_, ?_, .inr (not_le.mp hlong)⟩
    · rw [hwhole, decode_nil]
    · rw [hwhole, List.length_nil]
  · refine .inl ⟨rfl, rfl, .inl ?_⟩
    by_contra hnone
    exact hwhole (hnil hnone)

end

/-- A log and the caller that reads it: what its calls returned, and the texts they parsed. -/
structure LogReader where
  dev : ℕ
  ino : ℕ
  bytes : List UInt8
  cursor : Option EnvelopeLogCursor
  returned : List Envelope
  handed : List Text

namespace LogReader

def offset (r : LogReader) : ℕ := (r.cursor.map (·.offset)).getD 0

def append (r : LogReader) (more : List UInt8) : LogReader := { r with bytes := r.bytes ++ more }

/-- The octets a read may look at. -/
def window (r : LogReader) (maxBytes : ℕ) : List UInt8 := (r.bytes.drop r.offset).take maxBytes

section

variable (jsonParse : Text → Option Json) (persona : Text)

/-- A call resumed from the cursor of the call before. -/
def read (r : LogReader) (maxBytes : ℕ) : LogReader :=
  match readEnvelopeLog jsonParse (.regular r.dev r.ino r.bytes)
      ⟨persona, r.cursor, some maxBytes⟩ with
  | .error _ => r
  | .ok read =>
    let start := read.cursor.offset - read.stats.bytesConsumed
    { r with
      cursor := some read.cursor
      returned := r.returned ++ read.envelopes
      handed := r.handed ++
        ((consume r.bytes start maxBytes).text.splitOn newlineUnit).filter (·.length ≠ 0) }

/-- The states of a log that only grows, read now and then. -/
inductive Reached (C : LogReader → ℕ → Prop) : LogReader → Prop
  | start (dev ino : ℕ) (bytes : List UInt8) : Reached C ⟨dev, ino, bytes, none, [], []⟩
  | append {r : LogReader} (h : Reached C r) (more : List UInt8) : Reached C (r.append more)
  | read {r : LogReader} (h : Reached C r) {maxBytes : ℕ} (hmax : maxLineBytes ≤ maxBytes)
      (hc : C r maxBytes) : Reached C (r.read jsonParse persona maxBytes)

/-- Nothing lost and nothing invented, and every read of enough octets gets on. -/
structure Faithful (r : LogReader) : Prop where
  complete : newline ∉ r.bytes.drop r.offset → r.returned =
    (lines newline r.bytes).filterMap fun line ↦ standing jsonParse persona (decode line)
  whole : ∀ t ∈ r.handed, ∃ line ∈ lines newline r.bytes, decode line = t
  forward : ∀ maxBytes, r.offset ≤ (r.read jsonParse persona maxBytes).offset
  advances : ∀ maxBytes, maxLineBytes ≤ maxBytes → maxBytes ≤ r.bytes.length - r.offset →
    r.offset < (r.read jsonParse persona maxBytes).offset

end

/-- The window of a read that is a line's worth long has a newline in it. -/
def NoOverlongLine (r : LogReader) (maxBytes : ℕ) : Prop :=
  maxLineBytes ≤ (r.window maxBytes).length → newline ∈ r.window maxBytes

variable {jsonParse : Text → Option Json} {persona : Text} {r : LogReader} {maxBytes : ℕ}
  {C : LogReader → ℕ → Prop}

/-- A cursor that is the log's own. -/
def Placed (r : LogReader) : Prop :=
  r.offset ≤ r.bytes.length ∧ ∀ cursor ∈ r.cursor, cursor.dev = r.dev ∧ cursor.ino = r.ino

theorem read_eq (h : r.Placed) : r.read jsonParse persona maxBytes =
    let chunk := consume r.bytes r.offset maxBytes
    { r with
      cursor := some ⟨r.dev, r.ino, r.offset + chunk.bytes⟩
      returned := r.returned ++
        (chunk.text.splitOn newlineUnit).filterMap (standing jsonParse persona)
      handed := r.handed ++ (chunk.text.splitOn newlineUnit).filter (·.length ≠ 0) } := by
  obtain ⟨hoffset, hown⟩ := h
  cases hc : r.cursor with
  | none => simp [read, readEnvelopeLog, hc, offset, readLines_envelopes]
  | some cursor =>
    obtain ⟨hdev, hino⟩ := hown cursor hc
    have hsize : ¬r.bytes.length < cursor.offset := by
      simpa [offset, hc] using hoffset
    simp [read, readEnvelopeLog, hc, offset, hdev, hino, hsize, readLines_envelopes]

theorem consumed_le (bytes : List UInt8) (start maxBytes : ℕ) :
    (consume bytes start maxBytes).bytes ≤ bytes.length - start := by
  have hwindow : ((bytes.drop start).take maxBytes).length ≤ bytes.length - start := by
    rw [List.length_take, List.length_drop]
    exact Nat.min_le_right _ _
  obtain ⟨-, hbytes, -⟩ | ⟨-, hbytes, -⟩ := consume_cases bytes start maxBytes
  · rw [hbytes]
    exact (whole_isPrefix _).length_le.trans hwindow
  · rwa [hbytes]

theorem offset_read (h : r.Placed) : (r.read jsonParse persona maxBytes).offset =
    r.offset + (consume r.bytes r.offset maxBytes).bytes := by
  rw [read_eq h]
  rfl

theorem Placed.read (h : r.Placed) : (r.read jsonParse persona maxBytes).Placed := by
  have hle := consumed_le r.bytes r.offset maxBytes
  have hoffset := h.1
  constructor
  · rw [offset_read h, read_eq h]
    dsimp only
    omega
  · rw [read_eq h]
    intro cursor hcursor
    cases hcursor
    exact ⟨rfl, rfl⟩

/-- A window as long as the longest line always yields something. -/
theorem consumed_pos (hmax : maxLineBytes ≤ maxBytes)
    (houtstanding : maxBytes ≤ r.bytes.length - r.offset) :
    0 < (consume r.bytes r.offset maxBytes).bytes := by
  have hwindow : (r.window maxBytes).length = maxBytes := by
    rw [window, List.length_take, List.length_drop]
    omega
  have hpos : 0 < maxLineBytes := by decide
  obtain ⟨-, hbytes, hline⟩ | ⟨-, hbytes, -, hlong⟩ := consume_cases r.bytes r.offset maxBytes
  · have hmem : newline ∈ r.window maxBytes := by
      rcases hline with hmem | hshort
      · exact hmem
      · rw [← window, hwindow] at hshort
        omega
    rw [hbytes, List.length_pos_iff]
    exact fun hnil ↦ whole_eq_nil_iff.mp hnil hmem
  · rw [hbytes]
    omega

/-- A reader whose calls returned what stands on the lines before its cursor. -/
structure Aligned (jsonParse : Text → Option Json) (persona : Text) (r : LogReader) : Prop where
  placed : r.Placed
  ended : Ended newline (r.bytes.take r.offset)
  returned : r.returned = (lines newline (r.bytes.take r.offset)).filterMap fun line ↦
    standing jsonParse persona (decode line)
  handed : r.handed = ((lines newline (r.bytes.take r.offset)).map decode).filter (·.length ≠ 0)

namespace Aligned

theorem append (h : Aligned jsonParse persona r) (more : List UInt8) :
    Aligned jsonParse persona (r.append more) := by
  obtain ⟨⟨hoffset, hown⟩, hended, hreturned, hhanded⟩ := h
  have htake : (r.bytes ++ more).take r.offset = r.bytes.take r.offset :=
    List.take_append_of_le_length hoffset
  refine ⟨⟨?_, hown⟩, ?_, ?_, ?_⟩
  · rw [LogReader.append, List.length_append]
    exact hoffset.trans (Nat.le_add_right _ _)
  · exact htake ▸ hended
  · exact htake ▸ hreturned
  · exact htake ▸ hhanded

theorem read (h : Aligned jsonParse persona r) (hline : NoOverlongLine r maxBytes) :
    Aligned jsonParse persona (r.read jsonParse persona maxBytes) := by
  obtain ⟨htext, hbytes⟩ : (consume r.bytes r.offset maxBytes).text =
        decode (whole newline (r.window maxBytes)) ∧
      (consume r.bytes r.offset maxBytes).bytes = (whole newline (r.window maxBytes)).length := by
    obtain ⟨htext, hbytes, -⟩ | ⟨-, -, hnone, hlong⟩ := consume_cases r.bytes r.offset maxBytes
    · exact ⟨htext, hbytes⟩
    · exact absurd (hline hlong) hnone
  have hended : Ended newline (whole newline (r.window maxBytes)) := whole_ended _
  have htake : r.bytes.take (r.offset + (whole newline (r.window maxBytes)).length) =
      r.bytes.take r.offset ++ whole newline (r.window maxBytes) := by
    have hprefix : whole newline (r.window maxBytes) <+: r.bytes.drop r.offset :=
      (whole_isPrefix _).trans (List.take_prefix _ _)
    rw [List.take_add, ← List.prefix_iff_eq_take.mp hprefix]
  have hsplit : (decode (whole newline (r.window maxBytes))).splitOn newlineUnit =
      (lines newline (whole newline (r.window maxBytes))).map decode ++ [[]] := by
    rw [splitOn_decode, hended.splitOn, List.map_append, List.map_singleton, decode_nil]
  refine ⟨h.placed.read, ?_, ?_, ?_⟩
  · rw [offset_read h.placed, hbytes, read_eq h.placed]
    dsimp only
    rw [htake]
    exact h.ended.append hended
  · rw [offset_read h.placed, hbytes, read_eq h.placed]
    dsimp only
    rw [htake, h.ended.lines_append, List.filterMap_append, ← h.returned, htext, hsplit]
    simp [standing, List.filterMap_map, Function.comp_def]
  · rw [offset_read h.placed, hbytes, read_eq h.placed]
    dsimp only
    rw [htake, h.ended.lines_append, List.map_append, List.filter_append, ← h.handed, htext, hsplit]
    simp

theorem faithful (h : Aligned jsonParse persona r) : Faithful jsonParse persona r := by
  have hlines : lines newline r.bytes = lines newline (r.bytes.take r.offset) ++
      lines newline (r.bytes.drop r.offset) := by
    rw [← h.ended.lines_append, List.take_append_drop]
  constructor
  · intro hnone
    rw [hlines, lines_of_notMem hnone, List.append_nil]
    exact h.returned
  · intro t ht
    rw [h.handed] at ht
    obtain ⟨line, hline, rfl⟩ := List.mem_map.mp (List.mem_of_mem_filter ht)
    exact ⟨line, hlines ▸ List.mem_append_left _ hline, rfl⟩
  · intro maxBytes
    rw [offset_read h.placed]
    exact Nat.le_add_right _ _
  · intro maxBytes hmax houtstanding
    rw [offset_read h.placed]
    exact Nat.lt_add_of_pos_right (consumed_pos hmax houtstanding)

end Aligned

theorem Reached.aligned (h : Reached jsonParse persona NoOverlongLine r) :
    Aligned jsonParse persona r := by
  induction h with
  | start dev ino bytes =>
    refine ⟨⟨Nat.zero_le _, nofun⟩, .inl rfl, ?_, ?_⟩ <;> rfl
  | append _ more ih => exact ih.append more
  | read _ _ hline ih => exact ih.read hline

/-- Reading a growing log loses and invents nothing while no read meets a line's worth of octets
without a newline. -/
theorem reads_faithfully (h : Reached jsonParse persona NoOverlongLine r) :
    Faithful jsonParse persona r := h.aligned.faithful

end LogReader

namespace Sample

def logged : Envelope := ⟨hexId 0, observed []⟩

def loggedText : List Char := (canonicalize logged.toJson).getD []

def loggedLine : List UInt8 := Unicode.encodeUtf8 loggedText

/-- What `JSON.parse` answers on the line of the envelope. No other text here is JSON. -/
def parseLogged (t : Text) : Option Json :=
  if t = Unicode.units loggedText then some logged.toJson else none

def loggedPersona : Text := logged.content.persona.val

theorem loggedText_shape : (Unicode.units loggedText).head? = some 0x7B ∧ newline ∉ loggedLine ∧
    loggedLine.length + 1 < maxLineBytes := by decide +kernel

theorem standing_loggedLine {parse : Text → Option Json}
    (h : parse (Unicode.units loggedText) = some logged.toJson) :
    standing parse loggedPersona (decode loggedLine) = some logged := by
  have hdecode : decode loggedLine = Unicode.units loggedText :=
    congrArg Unicode.units (Unicode.Decoder.run_encodeUtf8 loggedText)
  have hlength : ¬(Unicode.units loggedText).length = 0 := by
    intro hnil
    have hhead := loggedText_shape.1
    rw [List.length_eq_zero_iff.mp hnil] at hhead
    cases hhead
  have hparse : Envelope.parse logged.toJson = some logged := Envelope.parse_toJson (by decide)
  rw [hdecode, standing, if_neg hlength, h, Option.bind_some, hparse]
  simp [Option.filter, loggedPersona]

theorem newline_notMem_loggedLine : newline ∉ loggedLine := loggedText_shape.2.1

theorem length_loggedLine : loggedLine.length + 1 < maxLineBytes := loggedText_shape.2.2

/-- A text that begins with an `x` is no JSON. -/
theorem standing_letter (rest : List UInt8) :
    standing parseLogged loggedPersona (decode (0x78 :: rest)) = none := by
  have hhead := loggedText_shape.1
  have hdecode : decode (0x78 :: rest) = 0x78 :: decode rest := rfl
  have hne : (0x78 :: decode rest : Text) ≠ Unicode.units loggedText := by
    intro heq
    rw [← heq] at hhead
    cases hhead
  rw [hdecode, standing, parseLogged, if_neg hne]
  rfl

/-- Text of no envelope, as long as what a read gives up at. -/
def longText : List UInt8 := List.replicate maxLineBytes 0x78

end Sample

namespace LogReader

open Sample

theorem read_of_line : Faithful parseLogged loggedPersona
    ((⟨0, 0, loggedLine ++ [newline], none, [], []⟩ : LogReader).read parseLogged loggedPersona
      maxLineBytes) := by
  apply reads_faithfully
  refine .read (.start 0 0 _) le_rfl fun hlong ↦ absurd hlong (not_le.mpr ?_)
  have hline : (loggedLine ++ [newline]).length < maxLineBytes := by
    rw [List.length_append, List.length_singleton]
    exact length_loggedLine
  refine lt_of_le_of_lt ?_ hline
  rw [window, List.length_take]
  exact (Nat.min_le_right _ _).trans (List.drop_sublist _ _).length_le

section Pieces

variable {long line : List UInt8} {e : Envelope}

/-- What is given up at the end of a first window is parsed as a line. -/
theorem read_long (hlength : long.length = maxLineBytes) (hlong : newline ∉ long)
    (hnone : standing jsonParse persona (decode long) = none) (rest : List UInt8) :
    (⟨0, 0, long ++ rest, none, [], []⟩ : LogReader).read jsonParse persona maxLineBytes =
      ⟨0, 0, long ++ rest, some ⟨0, 0, maxLineBytes⟩, [],
        [decode long].filter (·.length ≠ 0)⟩ := by
  have hplaced : (⟨0, 0, long ++ rest, none, [], []⟩ : LogReader).Placed := ⟨Nat.zero_le _, nofun⟩
  have hwindow : ((long ++ rest).drop 0).take maxLineBytes = long := List.take_left' hlength
  obtain ⟨htext, hbytes⟩ : (consume (long ++ rest) 0 maxLineBytes).text = decode long ∧
      (consume (long ++ rest) 0 maxLineBytes).bytes = maxLineBytes := by
    have hcases := consume_cases (long ++ rest) 0 maxLineBytes
    dsimp only at hcases
    rw [hwindow, hlength] at hcases
    obtain ⟨-, -, hmem | hshort⟩ | ⟨htext, hbytes, -⟩ := hcases
    · exact absurd hmem hlong
    · exact absurd hshort (lt_irrefl _)
    · exact ⟨htext, hbytes⟩
  have hzero : (⟨0, 0, long ++ rest, none, [], []⟩ : LogReader).offset = 0 := rfl
  rw [read_eq hplaced, hzero]
  dsimp only
  rw [htext, hbytes, splitOn_decode, List.splitOn_eq_singleton hlong, List.map_singleton,
    List.filterMap_cons, hnone, Nat.zero_add]
  rfl

/-- The rest of the line is read as a line too, and what stands there is returned. -/
theorem read_in_pieces (hlength : long.length = maxLineBytes) (hlong : newline ∉ long)
    (hline : newline ∉ line) (hshort : line.length + 1 ≤ maxLineBytes)
    (hnone : ∀ rest, standing jsonParse persona (decode (long ++ rest)) = none)
    (hsome : standing jsonParse persona (decode line) = some e) :
    ∃ r, Reached jsonParse persona (fun _ _ ↦ True) r ∧ r.returned = [e] ∧
      ¬Faithful jsonParse persona r := by
  have hfirst := read_long hlength hlong (by simpa using hnone []) (line ++ [newline])
  let first : LogReader := ⟨0, 0, long ++ (line ++ [newline]), some ⟨0, 0, maxLineBytes⟩, [],
    [decode long].filter (·.length ≠ 0)⟩
  have hfirst : LogReader.read jsonParse persona
      ⟨0, 0, long ++ (line ++ [newline]), none, [], []⟩ maxLineBytes = first := hfirst
  have hplaced : first.Placed := by
    rw [← hfirst]
    exact Placed.read ⟨Nat.zero_le _, nofun⟩
  have hdrop : (long ++ (line ++ [newline])).drop maxLineBytes = line ++ [newline] :=
    List.drop_left' hlength
  have hwindow : ((long ++ (line ++ [newline])).drop maxLineBytes).take maxLineBytes =
      line ++ [newline] := by
    rw [hdrop, List.take_of_length_le (by simpa using hshort)]
  have hwhole : whole newline (line ++ [newline]) = line ++ [newline] :=
    List.rdropWhile_concat_neg _ _ _ (by simp)
  obtain ⟨htext, hbytes⟩ : (consume (long ++ (line ++ [newline])) maxLineBytes maxLineBytes).text =
        decode (line ++ [newline]) ∧
      (consume (long ++ (line ++ [newline])) maxLineBytes maxLineBytes).bytes =
        (line ++ [newline]).length := by
    have hcases := consume_cases (long ++ (line ++ [newline])) maxLineBytes maxLineBytes
    dsimp only at hcases
    rw [hwindow, hwhole] at hcases
    obtain ⟨htext, hbytes, -⟩ | ⟨-, -, hnewline, -⟩ := hcases
    · exact ⟨htext, hbytes⟩
    · simp at hnewline
  have hoffset : first.offset = maxLineBytes := rfl
  have hread : (first.read jsonParse persona maxLineBytes).returned = [e] := by
    rw [read_eq hplaced, hoffset]
    dsimp only [first]
    rw [htext, splitOn_decode, List.splitOn_append_cons_self, List.splitOn_eq_singleton hline]
    simp only [List.map_append, List.map_singleton, List.splitOn_nil, List.filterMap_append,
      List.filterMap_cons, hsome]
    rfl
  refine ⟨first.read jsonParse persona maxLineBytes, ?_, hread, fun h ↦ ?_⟩
  · have hreached : Reached jsonParse persona (fun _ _ ↦ True) first := by
      rw [← hfirst]
      exact .read (.start 0 0 _) le_rfl trivial
    exact .read hreached le_rfl trivial
  · have hbytes' : (first.read jsonParse persona maxLineBytes).bytes =
        long ++ (line ++ [newline]) := by
      rw [read_eq hplaced]
    have hend : (first.read jsonParse persona maxLineBytes).bytes.drop
        (first.read jsonParse persona maxLineBytes).offset = [] := by
      rw [hbytes', offset_read hplaced, hoffset]
      dsimp only [first]
      rw [hbytes, ← List.drop_drop, hdrop, List.drop_length]
    have hlines : lines newline (long ++ (line ++ [newline])) = [long ++ line] := by
      have hmem : newline ∉ long ++ line := by simp [hlong, hline]
      rw [← List.append_assoc, lines_snoc, List.splitOn_eq_singleton hmem]
    have hcomplete := h.complete (by simp [hend])
    rw [hread, hbytes', hlines, List.filterMap_cons, hnone] at hcomplete
    cases hcomplete

end Pieces

/-- The letters are given up as a line of their own, and the envelope is read off what is left of
the line. -/
theorem overlong_line_read_in_pieces : ∃ r,
    Reached parseLogged loggedPersona (fun _ _ ↦ True) r ∧ r.returned = [logged] ∧
      ¬Faithful parseLogged loggedPersona r := by
  have hlength : longText.length = maxLineBytes := List.length_replicate
  apply read_in_pieces hlength
  · exact fun hmem ↦ absurd (List.eq_of_mem_replicate hmem) (by decide)
  · exact newline_notMem_loggedLine
  · exact length_loggedLine.le
  · intro rest
    obtain ⟨n, hn⟩ : ∃ n, maxLineBytes = n + 1 := ⟨1048575, rfl⟩
    rw [longText, hn, List.replicate_succ, List.cons_append]
    exact standing_letter _
  · exact standing_loggedLine (if_pos rfl)

end LogReader

end Servanda
