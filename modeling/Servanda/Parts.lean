import Servanda.Message

/-!
A body of boundary lines: each begins a part without headers and body, and all but the first of these
are attachments.
-/

namespace Servanda.Mime

open Unicode Scan

section Parts

variable {n k m room : ℕ}

def boundaryMark : List UInt8 := [hyphen, hyphen, 98]

/-- A body of boundary lines, with nothing between them. -/
def boundaryLines (n : ℕ) : List UInt8 := (List.replicate n (boundaryMark ++ [lf])).flatten

theorem boundaryLines_succ : boundaryLines (n + 1) = boundaryMark ++ lf :: boundaryLines n := rfl

theorem length_boundaryLines : (boundaryLines n).length = 4 * n := by
  rw [boundaryLines, List.length_flatten, List.map_replicate, List.sum_replicate, smul_eq_mul,
    mul_comm]
  rfl

theorem drop_boundaryLines : (boundaryLines (k + m)).drop (4 * k) = boundaryLines m := by
  rw [boundaryLines, List.replicate_add, List.flatten_append]
  exact List.drop_left' length_boundaryLines

theorem getElem?_boundaryLines : (boundaryLines (k + (m + 1)))[4 * k + 3]? = some lf := by
  rw [← List.getElem?_drop, drop_boundaryLines]
  rfl

theorem indexOfBytes_next :
    indexOfBytes (boundaryLines (k + (m + 2))) boundaryMark (4 * k + 3) = some (4 * k + 4) := by
  have hnext : (boundaryLines (k + (m + 2))).drop (4 * k + 4) = boundaryLines (m + 1) := by
    have hlines : k + (m + 2) = k + 1 + (m + 1) := by omega
    rw [hlines, ← Nat.mul_succ]
    exact drop_boundaryLines
  have hend : (boundaryLines (k + (m + 2))).drop (4 * k + 3) = lf :: boundaryLines (m + 1) := by
    rw [← List.drop_drop, drop_boundaryLines]
    rfl
  rw [indexOfBytes, List.find?_range_eq_some, length_boundaryLines, hnext]
  refine ⟨?_, ?_, fun i hi ↦ ?_⟩
  · rw [decide_eq_true (by omega), boundaryLines_succ]
    rfl
  · rw [List.mem_range]
    simp only [boundaryMark, List.length_cons, List.length_nil]
    omega
  · obtain hbefore | rfl : i < 4 * k + 3 ∨ i = 4 * k + 3 := by omega
    · rw [decide_eq_false (by omega)]
      rfl
    · have hmark : boundaryMark.isPrefixOf (lf :: boundaryLines (m + 1)) = false := rfl
      rw [hend, hmark, Bool.and_false]
      rfl

theorem indexOfBytes_last :
    indexOfBytes (boundaryLines (k + 1)) boundaryMark (4 * k + 3) = none := by
  rw [indexOfBytes, List.find?_eq_none, length_boundaryLines]
  intro i hi
  rw [List.mem_range] at hi
  simp only [boundaryMark, List.length_cons, List.length_nil] at hi
  rw [decide_eq_false (by omega)]
  simp

/-- A part after a boundary that ends its line. -/
theorem splitParts_line {body marker : List UInt8} {cursor start : ℕ}
    (hstart : cursor + marker.length = start) (hline : body[start]? = some lf) :
    splitParts body marker (room + 1) cursor =
      match indexOfBytes body marker start with
      | none => [body.drop (start + 1)]
      | some next => (body.take next).drop (start + 1) :: splitParts body marker room next := by
  have hopen : ¬(body[start]? = some hyphen ∧ body[start + 1]? = some hyphen) := by
    rw [hline]
    exact fun h ↦ absurd h.1 (by decide)
  have hreturn : body[start]? ≠ some cr := by
    rw [hline]
    decide
  rw [splitParts, hstart, if_neg hopen, if_neg hreturn]
  cases indexOfBytes body marker start <;> simp only [if_pos hline]

/-- After each boundary line there is an empty part. -/
theorem splitParts_boundaryLines (h : m < room) :
    splitParts (boundaryLines (k + (m + 1))) boundaryMark room (4 * k) =
      List.replicate (m + 1) [] := by
  have hmark : boundaryMark.length = 3 := rfl
  induction m generalizing k room with
  | zero =>
    obtain ⟨room, rfl⟩ := Nat.exists_eq_succ_of_ne_zero (Nat.ne_zero_of_lt h)
    have hrest : (boundaryLines (k + 1)).drop (4 * k + 3 + 1) = [] := by
      rw [List.drop_eq_nil_iff, length_boundaryLines]
      omega
    rw [splitParts_line rfl getElem?_boundaryLines, hmark, indexOfBytes_last]
    exact congrArg (· :: []) hrest
  | succ m ih =>
    obtain ⟨room, rfl⟩ := Nat.exists_eq_succ_of_ne_zero (Nat.ne_zero_of_lt h)
    have hbetween : ((boundaryLines (k + (m + 2))).take (4 * k + 4)).drop (4 * k + 3 + 1) = [] := by
      rw [List.drop_eq_nil_iff, List.length_take]
      exact min_le_left _ _
    have hlines : k + 1 + (m + 1) = k + (m + 2) := by omega
    have htail := @ih (k + 1) room (by omega)
    rw [hlines, Nat.mul_succ] at htail
    rw [splitParts_line rfl getElem?_boundaryLines, hmark, indexOfBytes_next]
    dsimp only
    rw [hbetween, htail]
    rfl

theorem splitMultipart_boundaryLines {limits : MimeLimits} (h : n < limits.maxParts) :
    splitMultipart (boundaryLines (n + 1)) (text "b") limits = List.replicate (n + 1) [] := by
  have hmarker : encodeUtf8 (scalars (text "--" ++ text "b")) = boundaryMark := by decide
  have hfirst : indexOfBytes (boundaryLines (n + 1)) boundaryMark 0 = some 0 := by
    rw [indexOfBytes, List.find?_range_eq_some, length_boundaryLines]
    refine ⟨rfl, ?_, fun i hi ↦ absurd hi (Nat.not_lt_zero i)⟩
    rw [List.mem_range]
    simp only [boundaryMark, List.length_cons, List.length_nil]
    omega
  have hparts := @splitParts_boundaryLines 0 n limits.maxParts h
  rw [Nat.zero_add, Nat.mul_zero] at hparts
  rw [splitMultipart, hmarker, hfirst]
  exact hparts

end Parts

section Walk

variable {platform : Platform} {limits : MimeLimits} {levels n : ℕ} {entity : Entity} {w : Walked}

def contentTypeOf (platform : Platform) (entity : Entity) : ContentType :=
  parseContentType platform (first entity.headers (text "content-type") []).1

/-- The parts of a multipart entity are walked in turn. -/
theorem walk_multipart {boundary : Text} (hroom : w.leaves.length < limits.maxParts)
    (htype : (text "multipart/").isPrefixOf (contentTypeOf platform entity).type = true)
    (hboundary : (contentTypeOf platform entity).param "boundary" = some boundary)
    (hne : boundary ≠ []) : ∃ anomalies, walk platform limits (levels + 1) entity w =
      (splitMultipart entity.body boundary limits).foldl (fun w part ↦
        let sub := parseEntity platform part limits
        walk platform limits levels sub { w with anomalies := w.anomalies ++ sub.anomalies })
        { w with anomalies } := by
  obtain ⟨u, boundary, rfl⟩ := List.exists_cons_of_ne_nil hne
  rw [walk, if_neg (not_le.2 hroom)]
  dsimp only
  have htype' : ∀ anomalies, parseContentType platform
      (first entity.headers (text "content-type") anomalies).1 = contentTypeOf platform entity :=
    fun _ ↦ rfl
  rw [htype', if_pos htype, hboundary]
  exact ⟨_, rfl⟩

/-- What a part without headers and body is read as. -/
def emptyLeaf (platform : Platform) : Leaf where
  contentType := ⟨text "text/plain", []⟩
  disposition := platform.toLowerCase []
  filename := none
  bytes := decodeTransfer platform [] none

theorem walk_empty (hroom : w.leaves.length < limits.maxParts) (hheaders : entity.headers = [])
    (hbody : entity.body = []) : ∃ anomalies, walk platform limits levels entity w =
      ⟨w.leaves ++ [emptyLeaf platform], w.embedded, anomalies⟩ := by
  obtain ⟨headers, body, found⟩ := entity
  obtain rfl : headers = [] := hheaders
  obtain rfl : body = [] := hbody
  have htype : parseContentType platform none = ⟨text "text/plain", []⟩ := rfl
  have hparts : (text "multipart/").isPrefixOf (text "text/plain") = false := by decide
  have hmessage : text "text/plain" ≠ text "message/rfc822" := by decide
  unfold walk
  rw [if_neg (not_le.2 hroom)]
  simp only [first, List.filter_nil, List.head?_nil, Option.map_none, htype, hparts, hmessage, if_false,
    Bool.false_eq_true]
  exact ⟨_, rfl⟩

theorem parseEntity_nil : (parseEntity platform [] limits).headers = [] ∧
    (parseEntity platform [] limits).body = [] := by
  have hend : headerEnd [] limits.maxHeaderBytes = none := by
    rw [headerEnd, List.length_nil, Nat.zero_min]
    rfl
  rw [parseEntity, hend, List.take_nil]
  exact ⟨rfl, rfl⟩

theorem walk_empties (hroom : w.leaves.length + n ≤ limits.maxParts) : ∃ anomalies,
    (List.replicate n []).foldl (fun w part ↦
      let sub := parseEntity platform part limits
      walk platform limits levels sub { w with anomalies := w.anomalies ++ sub.anomalies }) w =
      ⟨w.leaves ++ List.replicate n (emptyLeaf platform), w.embedded, anomalies⟩ := by
  obtain ⟨hheaders, hbody⟩ := @parseEntity_nil platform limits
  induction n generalizing w with
  | zero => exact ⟨w.anomalies, by simp⟩
  | succ n ih =>
    rw [List.replicate_succ, List.foldl_cons]
    obtain ⟨found, hstep⟩ := @walk_empty platform limits levels (parseEntity platform [] limits)
      { w with anomalies := w.anomalies ++ (parseEntity platform [] limits).anomalies }
      (by dsimp only; omega) hheaders hbody
    dsimp only at hstep ⊢
    rw [hstep]
    obtain ⟨found', hrest⟩ := @ih ⟨w.leaves ++ [emptyLeaf platform], w.embedded, found⟩
      (by rw [List.length_append, List.length_singleton]; omega)
    refine ⟨found', hrest.trans ?_⟩
    rw [List.append_assoc]
    rfl

/-- The first of some nameless texts is the body, and the others are attachments. -/
theorem attachmentsOf_replicate {leaf : Leaf} (hname : leaf.filename = none)
    (htype : leaf.contentType.type = text "text/plain")
    (hinline : (text "attachment").isPrefixOf leaf.disposition = false)
    (hroom : n ≤ limits.maxAttachments) :
    (attachmentsOf (List.replicate (n + 1) leaf) limits).length = n := by
  have hplain : inlineAt (List.replicate (n + 1) leaf) "text/plain" = some 0 := by
    rw [inlineAt, List.replicate_succ, List.findIdx?_cons, hinline, htype]
    simp
  have hhtml : inlineAt (List.replicate (n + 1) leaf) "text/html" = none := by
    have hne : text "text/plain" ≠ text "text/html" := by decide
    rw [inlineAt, List.findIdx?_eq_none_iff]
    intro x hx
    rw [List.eq_of_mem_replicate hx, htype, decide_eq_false hne, Bool.and_false]
  have hbody : (!(decide (some 0 ∈ [some 0, (none : Option ℕ)]) && leaf.filename.isNone)) = false := by
    rw [hname]
    rfl
  have hkept : ∀ x ∈ (List.replicate n leaf).zipIdx 1,
      (!(decide (some x.2 ∈ [some 0, none]) && x.1.filename.isNone)) = true := by
    intro x hx
    have hlater := (List.mem_zipIdx hx).1
    have hne : some x.2 ∉ [some 0, none] := by
      simp
      omega
    rw [decide_eq_false hne, Bool.false_and]
    rfl
  rw [attachmentsOf, hplain, hhtml, List.length_map, List.length_take, List.replicate_succ,
    List.zipIdx_cons, List.filter_cons, if_neg (by rw [hbody]; exact Bool.false_ne_true), List.filter_eq_self.2 hkept,
    List.length_zipIdx, List.length_replicate, min_eq_right hroom]

theorem parseMessage_attachments {raw : List UInt8} : ∃ anomalies,
    (parseMessage platform raw limits).attachments =
      attachmentsOf (walk platform limits limits.maxDepth
        (parseEntity platform (raw.take limits.maxBytes) limits) ⟨[], none, anomalies⟩).leaves limits := by
  unfold parseMessage parseMessageAt
  exact ⟨_, rfl⟩

/-- A message of one part more than this has so many attachments. -/
theorem attachments_boundaryLines {raw : List UInt8}
    (hentity : parseEntity platform (raw.take limits.maxBytes) limits = entity)
    (hbody : entity.body = boundaryLines (n + 1))
    (htype : (text "multipart/").isPrefixOf (contentTypeOf platform entity).type = true)
    (hboundary : (contentTypeOf platform entity).param "boundary" = some (text "b"))
    (hinline : (text "attachment").isPrefixOf (platform.toLowerCase []) = false)
    (hdepth : 0 < limits.maxDepth) (hparts : n < limits.maxParts)
    (hroom : n ≤ limits.maxAttachments) :
    (parseMessage platform raw limits).attachments.length = n := by
  obtain ⟨anomalies, hattachments⟩ := @parseMessage_attachments platform limits raw
  obtain ⟨levels, hlevels⟩ := Nat.exists_eq_succ_of_ne_zero hdepth.ne'
  obtain ⟨found, hwalk⟩ := @walk_multipart platform limits levels entity ⟨[], none, anomalies⟩ _
    (Nat.zero_lt_of_lt hparts) htype hboundary (by decide)
  obtain ⟨found', hleaves⟩ := @walk_empties platform limits levels (n + 1) ⟨[], none, found⟩
    (by rw [List.length_nil]; omega)
  rw [hbody, splitMultipart_boundaryLines hparts] at hwalk
  rw [hattachments, hentity, hlevels, Nat.succ_eq_add_one, hwalk, hleaves, List.nil_append]
  exact attachmentsOf_replicate rfl rfl hinline hroom

end Walk

end Servanda.Mime
