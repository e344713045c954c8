import Servanda.Places

/-!
What bounding a candidate promises: nothing more to do, nothing silent, nothing out of bounds, and
every cut string recorded.
-/

namespace Servanda

open Unicode

theorem toNat_scalarOf {c : ℕ} (h : c < 0x110000) :
    (scalarOf c).toNat = if isSurrogate c then 0xFFFD else c := by
  unfold scalarOf
  split
  · rfl
  · next hsurrogate =>
    have hvalid : c.isValidChar := by
      simp only [isSurrogate, Bool.and_eq_true, decide_eq_true_eq] at hsurrogate
      unfold Nat.isValidChar
      omega
    rw [Char.ofNat, dif_pos hvalid]
    rfl

section Cuts

variable {l rest : List ℕ} {s : Text} {n : ℕ}

theorem toNat_scalarOf_eq_iff {c : ℕ} (h : c < 0x110000) :
    (scalarOf c).toNat = c ↔ isSurrogate c = false := by
  rw [toNat_scalarOf h]
  split
  · next hsurrogate =>
    refine iff_of_false (fun heq ↦ ?_) (by simp [hsurrogate])
    rw [← heq] at hsurrogate
    revert hsurrogate
    decide
  · next hscalar => simpa using hscalar

/-- A byte order mark is written for itself only. -/
theorem toNat_scalarOf_eq_mark_iff {c : ℕ} (h : c < 0x110000) :
    (scalarOf c).toNat = 0xFEFF ↔ c = 0xFEFF := by
  rw [toNat_scalarOf h]
  split
  · next hsurrogate =>
    refine iff_of_false (by decide) ?_
    rintro rfl
    revert hsurrogate
    decide
  · rfl

theorem scalars_prefix_iff (hl : ∀ c ∈ l, c < 0x110000) :
    l.map (fun c ↦ (scalarOf c).toNat) <+: l ++ rest ↔ ∀ c ∈ l, isSurrogate c = false := by
  induction l with
  | nil => simp
  | cons c l ih =>
    obtain ⟨hc, hl⟩ := List.forall_mem_cons.1 hl
    rw [List.map_cons, List.cons_append, List.cons_prefix_cons, ih hl, toNat_scalarOf_eq_iff hc,
      List.forall_mem_cons]

/-- With a mark in front, everything has moved by one. -/
theorem marks_prefix_iff (hl : ∀ c ∈ l, c < 0x110000) :
    l.map (fun c ↦ (scalarOf c).toNat) <+: 0xFEFF :: (l ++ rest) ↔ ∀ c ∈ l, c = 0xFEFF := by
  induction l with
  | nil => simp
  | cons c l ih =>
    obtain ⟨hc, hl'⟩ := List.forall_mem_cons.1 hl
    rw [List.map_cons, List.cons_append, List.cons_prefix_cons, toNat_scalarOf_eq_mark_iff hc,
      List.forall_mem_cons]
    constructor
    · rintro ⟨rfl, h⟩
      exact ⟨rfl, (ih hl').1 h⟩
    · rintro ⟨rfl, h⟩
      exact ⟨rfl, (ih hl').2 h⟩

/-- Code points that come through an encoder and a decoder: no lone surrogate among them, and no
mark in front unless there is nothing else. -/
def Decodes (l : List ℕ) : Prop :=
  (∀ c ∈ l, isSurrogate c = false) ∧ (l.head? = some 0xFEFF → ∀ c ∈ l, c = 0xFEFF)

theorem decoded_prefix_iff (hl : ∀ c ∈ l, c < 0x110000) :
    (dropMark (l.map scalarOf)).map Char.toNat <+: l ++ rest ↔ Decodes l := by
  cases l with
  | nil => simp [dropMark, Decodes]
  | cons c l =>
    obtain ⟨hc, hl'⟩ := List.forall_mem_cons.1 hl
    have hmark : scalarOf c = '\uFEFF' ↔ c = 0xFEFF := by
      rw [← toNat_scalarOf_eq_mark_iff hc]
      exact ⟨fun h ↦ by rw [h]; rfl, fun h ↦ Char.toNat_inj.1 h⟩
    rw [List.map_cons, dropMark]
    by_cases h : c = 0xFEFF
    · rw [if_pos (hmark.2 h), List.map_map]
      subst h
      refine (marks_prefix_iff hl').trans ⟨fun h ↦ ?_, fun h ↦ ?_⟩
      · have hall : ∀ c ∈ 0xFEFF :: l, c = 0xFEFF := List.forall_mem_cons.2 ⟨rfl, h⟩
        refine ⟨fun c hc ↦ ?_, fun _ ↦ hall⟩
        rw [hall c hc]
        rfl
      · exact (List.forall_mem_cons.1 (h.2 rfl)).2
    · rw [if_neg (mt hmark.1 h), ← List.map_cons, List.map_map]
      refine (scalars_prefix_iff hl).trans ?_
      simp [Decodes, h]

/-- What a cut to `n` octets leaves comes through the encoder and the decoder. -/
def Faithful (n : ℕ) (s : Text) : Prop :=
  ∀ kept, kept <+: codePoints s → octetsOf (kept.map scalarOf) ≤ n → Decodes kept

theorem octetsOf_mono {cs ds : List Char} (h : cs <+: ds) : octetsOf cs ≤ octetsOf ds := by
  obtain ⟨rest, rfl⟩ := h
  rw [octetsOf_append]
  exact Nat.le_add_right _ _

theorem Decodes.of_prefix {kept : List ℕ} (h : Decodes l) (hkept : kept <+: l) : Decodes kept := by
  refine ⟨fun c hc ↦ h.1 c (hkept.subset hc), fun hhead c hc ↦ h.2 ?_ c (hkept.subset hc)⟩
  obtain ⟨rest, rfl⟩ := hkept
  cases kept with
  | nil => cases hhead
  | cons d kept => exact hhead

/-- A clipped string is a prefix of its source exactly where the cut is faithful. -/
theorem clip_prefix_iff (h : n < octets s) :
    codePoints (clip s n) <+: codePoints s ↔ Faithful n s := by
  obtain ⟨k, hk, hnext⟩ := take_boundary (scalars s) h
  have hclip : codePoints (clip s n) =
      (dropMark (((codePoints s).take k).map scalarOf)).map Char.toNat := by
    have hlong : ¬(encodeUtf8 (scalars s)).length ≤ n := not_le.2 h
    rw [clip, if_neg hlong, codePoints_units, hk, decodeUtf8, Decoder.run_encodeUtf8,
      scalars_eq, List.map_take]
  have hfits : octetsOf (((codePoints s).take k).map scalarOf) ≤ n := by
    rw [List.map_take, ← scalars_eq, octetsOf, ← hk, List.length_take]
    exact (min_le_left _ _).trans (boundary_le _ n)
  have hshort : ∀ kept, kept <+: codePoints s → octetsOf (kept.map scalarOf) ≤ n →
      kept <+: (codePoints s).take k := by
    intro kept hkept hle
    by_cases hlength : kept.length ≤ k
    · rw [List.prefix_iff_eq_take.1 hkept]
      exact List.take_prefix_take_left hlength
    · have hlonger : (codePoints s).take (k + 1) <+: kept := by
        refine List.prefix_of_prefix_length_le (List.take_prefix _ _) hkept ?_
        rw [List.length_take]
        omega
      have hmore := octetsOf_mono (hlonger.map scalarOf)
      rw [List.map_take, ← scalars_eq] at hmore
      exact absurd hnext (not_lt.2 (hmore.trans hle))
  rw [hclip]
  have hsplit := @decoded_prefix_iff ((codePoints s).take k) ((codePoints s).drop k)
    fun c hc ↦ codePoints_lt s c (List.mem_of_mem_take hc)
  rw [List.take_append_drop] at hsplit
  refine hsplit.trans ⟨fun hdecodes kept hkept hle ↦ ?_, fun hfaithful ↦ ?_⟩
  · exact hdecodes.of_prefix (hshort kept hkept hle)
  · exact hfaithful _ (List.take_prefix _ _) hfits

end Cuts

namespace UnidentifiedEnvelope

variable (candidate : UnidentifiedEnvelope)

/-- The value at a place of the payload is kept by the reduction, though perhaps cut. -/
def Survives (place : Json.Place) (w : Json) : Prop :=
  Stays candidate.reduction.allowance 0 (.obj candidate.payload) place w ∧
    ∀ key rest, place = .member key :: rest → ¬Dropped candidate.reduction.dropped key

/-- What bounding promises for a candidate. -/
structure Exact : Prop where
  idempotent : bound (bound candidate) = bound candidate
  unmarked : (bound candidate).clipped = false → bound candidate = candidate
  inBounds : candidate.Short → boundsViolation (bound candidate).toJson = .ok none
  codePoints : ∀ place t, (Json.obj (bound candidate).payload).at? place = some (.str t) →
    ∃ s, (Json.obj candidate.payload).at? place = some (.str s) ∧ codePoints t <+: codePoints s
  lengths : ∀ place key s t,
    (Json.obj candidate.payload).at? (place ++ [.member key]) = some (.str s) →
    (Json.obj (bound candidate).payload).at? (place ++ [.member key]) = some (.str t) →
    octets t < octets s →
    (Json.obj (bound candidate).payload).at? (place ++ [.member (lengthKey key)]) =
      some (.num (.ofNat (octets s)))

/-- No branch that breaks the promise is taken: `__proto__` holds nothing or something is marked, the
marker fits, no cut string has a lone surrogate or a mark in front, and the `_length` sibling of a
cut string is neither overwritten nor dropped. -/
structure Sound : Prop where
  protoless : (Json.obj candidate.payload).Protoless ∨ candidate.Cut
  room : candidate.Cut →
    RoomFor (if candidate.clipped then 0 else markerOctets) (candidate.reduced candidate.reduction) ∨
      ¬candidate.Short ∧ (candidate.reduced candidate.reduction).payload = [] ∧
        (candidate.reduced candidate.reduction).refs = []
  faithful : ∀ place s, candidate.Survives place (.str s) →
    candidate.reduction.allowance < octets s → Faithful candidate.reduction.allowance s
  recorded : ∀ place ms key s, (Json.obj candidate.payload).at? place = some (.obj ms) →
    candidate.Survives (place ++ [.member key]) (.str s) →
    candidate.reduction.allowance < octets s →
    (∀ v, Members.get? ms (lengthKey key) = some v → v ≠ .num (.ofNat (octets s)) →
      Precedes ms (lengthKey key) key) ∧
    (place = [] → ¬Dropped candidate.reduction.dropped (lengthKey key))

variable {candidate} {place : Json.Place} {w x : Json} {key : Text} {s : Text}

theorem payload_bound : (bound candidate).payload =
    (boundObject candidate.reduction.allowance candidate.payload).1.without
      candidate.reduction.dropped := by
  rw [bound_eq]
  rfl

theorem at?_bound (key : Text) (rest : Json.Place) :
    (Json.obj (bound candidate).payload).at? (.member key :: rest) =
      if Dropped candidate.reduction.dropped key then none
      else (boundPayload candidate.reduction.allowance 0 (.obj candidate.payload)).1.at?
        (.member key :: rest) := by
  rw [payload_bound, boundPayload_object, Json.at?, Members.get?_without]
  split
  · rfl
  · rfl

/-- A member whose name records no length is dropped, or cut to the allowance. -/
theorem get?_bound {key : Text} (hnodup : candidate.payload.keys.Nodup)
    (hproto : key ≠ Members.protoKey) (hkey : ∀ k, key ≠ lengthKey k) :
    (bound candidate).payload.get? key =
      if Dropped candidate.reduction.dropped key then none
      else (candidate.payload.get? key).map fun v ↦
        (boundPayload candidate.reduction.allowance 1 v).1 := by
  rw [payload_bound, Members.get?_without, boundObject, get?_boundMembers_plain hnodup hproto hkey]

theorem get?_bound_unmarked {key : Text} (hnodup : candidate.payload.keys.Nodup)
    (hproto : key ≠ Members.protoKey) (hkey : ∀ k, key ≠ lengthKey k)
    (h : (bound candidate).clipped = false) :
    (bound candidate).payload.get? key =
      (candidate.payload.get? key).map fun v ↦ (boundPayload maxPayloadText 1 v).1 := by
  obtain ⟨-, -, hbound⟩ := bound_unmarked h
  rw [hbound]
  exact get?_boundMembers_plain hnodup hproto hkey

/-- What survives is there after the reduction, cut to the allowance. -/
theorem Survives.at?_bound (hdistinct : (Json.obj candidate.payload).Distinct)
    (h : candidate.Survives (.member key :: place) w) :
    (Json.obj (bound candidate).payload).at? (.member key :: place) =
      some (boundPayload candidate.reduction.allowance (place.length + 1) w).1 := by
  rw [UnidentifiedEnvelope.at?_bound, if_neg (h.2 key place rfl), h.1.at?_bounded hdistinct]
  simp

/-- After the reduction there is nothing but what survives, and lengths. -/
theorem at?_bound_cases (hdistinct : (Json.obj candidate.payload).Distinct)
    (h : (Json.obj (bound candidate).payload).at? (.member key :: place) = some x) :
    (∃ w, candidate.Survives (.member key :: place) w ∧
      x = (boundPayload candidate.reduction.allowance (place.length + 1) w).1) ∨
      ∃ n, x = .num n := by
  rw [at?_bound] at h
  split at h
  · cases h
  · next hkept =>
    obtain ⟨w, hw, rfl⟩ | hnum := at?_boundPayload hdistinct h
    · refine .inl ⟨w, ⟨hw, ?_⟩, by simp⟩
      rintro _ _ ⟨⟩
      exact hkept
    · exact .inr hnum

theorem boundPayload_eq_str {budget depth : ℕ} {t : Text}
    (h : (boundPayload budget depth w).1 = .str t) : ∃ s, w = .str s ∧ t = clip s budget := by
  cases w with
  | str s => exact ⟨s, rfl, (Json.str.inj h).symm⟩
  | arr items =>
    rw [boundPayload] at h
    split at h <;> cases h
  | obj ms =>
    rw [boundPayload] at h
    split at h <;> cases h
  | _ => cases h

/-- A string that is left is a clip of the one that stood there. -/
theorem at?_bound_str (hdistinct : (Json.obj candidate.payload).Distinct) {t : Text}
    (h : (Json.obj (bound candidate).payload).at? place = some (.str t)) :
    ∃ s, candidate.Survives place (.str s) ∧ t = clip s candidate.reduction.allowance := by
  cases place with
  | nil => simp at h
  | cons step rest =>
    cases step with
    | item i => cases h
    | member key =>
      obtain ⟨w, hw, hx⟩ | ⟨n, hn⟩ := at?_bound_cases hdistinct h
      · obtain ⟨s, rfl, rfl⟩ := boundPayload_eq_str hx.symm
        exact ⟨s, hw, rfl⟩
      · cases hn

theorem Survives.at?_clip (hdistinct : (Json.obj candidate.payload).Distinct)
    (h : candidate.Survives place (.str s)) :
    (Json.obj (bound candidate).payload).at? place =
      some (.str (clip s candidate.reduction.allowance)) := by
  cases place with
  | nil => cases h.1
  | cons step rest =>
    cases step with
    | item i => cases h.1
    | member key => exact h.at?_bound hdistinct

theorem codePoints_iff (hdistinct : (Json.obj candidate.payload).Distinct) :
    (∀ place t, (Json.obj (bound candidate).payload).at? place = some (.str t) →
      ∃ s, (Json.obj candidate.payload).at? place = some (.str s) ∧
        codePoints t <+: codePoints s) ↔
    ∀ place s, candidate.Survives place (.str s) → candidate.reduction.allowance < octets s →
      Faithful candidate.reduction.allowance s := by
  constructor
  · intro h place s hs hlong
    obtain ⟨s', hs', hprefix⟩ := h place _ (hs.at?_clip hdistinct)
    rw [hs.1.at?, Option.some.injEq, Json.str.injEq] at hs'
    exact (clip_prefix_iff hlong).1 (hs' ▸ hprefix)
  · intro h place t ht
    obtain ⟨s, hs, rfl⟩ := at?_bound_str hdistinct ht
    refine ⟨s, hs.1.at?, ?_⟩
    by_cases hlong : candidate.reduction.allowance < octets s
    · exact (clip_prefix_iff hlong).2 (h place s hs hlong)
    · rw [clip_of_le (not_lt.1 hlong)]

/-- Where a member survives, its object has been through the loop. -/
theorem Survives.owner {ms : Members} (hms : (Json.obj candidate.payload).at? place = some (.obj ms))
    (h : candidate.Survives (place ++ [.member key]) w) :
    Stays candidate.reduction.allowance 0 (.obj candidate.payload) place (.obj ms) ∧
      place.length < maxPayloadDepth ∧ ms.get? key = some w := by
  obtain ⟨u, hu, hkey⟩ := stays_append.1 h.1
  obtain rfl : u = .obj ms := Option.some.inj (hu.at?.symm.trans hms)
  cases hkey with
  | member hdepth hv hproto hkept hkey =>
    cases hkey
    exact ⟨hu, by omega, hv⟩

/-- The siblings of a surviving member, after the reduction. -/
theorem at?_sibling (hdistinct : (Json.obj candidate.payload).Distinct) {ms : Members}
    (hms : (Json.obj candidate.payload).at? place = some (.obj ms))
    (h : candidate.Survives (place ++ [.member key]) w) (k : Text) :
    (Json.obj (bound candidate).payload).at? (place ++ [.member k]) =
      if place = [] ∧ Dropped candidate.reduction.dropped k then none
      else Members.get? (boundMembers candidate.reduction.allowance (place.length + 1) [] false ms).1
        k := by
  obtain ⟨howner, hdepth, -⟩ := h.owner hms
  have hbounded : (boundPayload candidate.reduction.allowance 0 (.obj candidate.payload)).1.at?
      (place ++ [.member k]) = Members.get? (boundMembers candidate.reduction.allowance
        (place.length + 1) [] false ms).1 k := by
    rw [Json.at?_append, howner.at?_bounded hdistinct, Option.bind_some, zero_add, boundPayload,
      if_neg (not_le.2 hdepth)]
    simp [Json.at?]
  cases place with
  | nil =>
    rw [List.nil_append] at hbounded ⊢
    rw [at?_bound, hbounded]
    simp
  | cons step rest =>
    cases step with
    | item i => cases howner
    | member first =>
      rw [if_neg (by simp), ← hbounded, List.cons_append, at?_bound,
        if_neg (h.2 first _ rfl)]

theorem lengths_iff (hdistinct : (Json.obj candidate.payload).Distinct) :
    (∀ place key s t,
      (Json.obj candidate.payload).at? (place ++ [.member key]) = some (.str s) →
      (Json.obj (bound candidate).payload).at? (place ++ [.member key]) = some (.str t) →
      octets t < octets s →
      (Json.obj (bound candidate).payload).at? (place ++ [.member (lengthKey key)]) =
        some (.num (.ofNat (octets s)))) ↔
    ∀ place ms key s, (Json.obj candidate.payload).at? place = some (.obj ms) →
      candidate.Survives (place ++ [.member key]) (.str s) →
      candidate.reduction.allowance < octets s →
      (∀ v, Members.get? ms (lengthKey key) = some v → v ≠ .num (.ofNat (octets s)) →
        Precedes ms (lengthKey key) key) ∧
      (place = [] → ¬Dropped candidate.reduction.dropped (lengthKey key)) := by
  constructor
  · intro h place ms key s hms hs hlong
    have hclip := octets_clip_le hlong
    have hlength := h place key s _ hs.1.at? (hs.at?_clip hdistinct) (by omega)
    rw [at?_sibling hdistinct hms hs] at hlength
    obtain ⟨-, -, hget⟩ := hs.owner hms
    have hnodup := (hdistinct.at? hms).keys
    split at hlength
    · cases hlength
    · next hkept =>
      exact ⟨(get?_boundMembers_length_iff hnodup hget hlong).1 hlength,
        fun hplace hdropped ↦ hkept ⟨hplace, hdropped⟩⟩
  · intro h place key s t hs ht hshorter
    obtain ⟨s', hs', rfl⟩ := at?_bound_str hdistinct ht
    obtain rfl : s = s' := by
      rw [hs'.1.at?] at hs
      exact (Json.str.inj (Option.some.inj hs)).symm
    have hlong : candidate.reduction.allowance < octets s := by
      by_contra hshort
      rw [clip_of_le (not_lt.1 hshort)] at hshorter
      exact lt_irrefl _ hshorter
    obtain ⟨ms, hms⟩ := Json.owner_of_at? hs
    obtain ⟨hfree, hkept⟩ := h place ms key s hms hs' hlong
    obtain ⟨-, -, hget⟩ := hs'.owner hms
    rw [at?_sibling hdistinct hms hs', if_neg fun hdropped ↦ hkept hdropped.1 hdropped.2]
    exact (get?_boundMembers_length_iff (hdistinct.at? hms).keys hget hlong).2 hfree

end UnidentifiedEnvelope

open UnidentifiedEnvelope Sample

theorem units_letters (n : ℕ) : units (List.replicate n 'x') = letters n := by
  induction n with
  | zero => rfl
  | succ n ih =>
    rw [List.replicate_succ, units, List.flatMap_cons]
    exact congrArg _ ih

theorem clip_letters {m n : ℕ} (h : m < n) : clip (letters n) m = letters m := by
  have hlong : ¬(encodeUtf8 (scalars (letters n))).length ≤ m := by
    rw [scalars_letters]
    exact not_le.2 (h.trans_eq (octetsOf_letters n).symm)
  obtain ⟨k, hk, hnext⟩ := take_boundary (scalars (letters n)) (not_le.1 hlong)
  have hlength : min k n ≤ m := by
    have hle : ((encodeUtf8 (scalars (letters n))).take
        (boundary (encodeUtf8 (scalars (letters n))) m)).length ≤ m := by
      rw [List.length_take]
      exact (min_le_left _ _).trans (boundary_le _ m)
    rw [hk, scalars_letters, List.take_replicate] at hle
    exact (octetsOf_letters _).symm.trans_le hle
  have hmore : m < min (k + 1) n := by
    rw [scalars_letters, List.take_replicate] at hnext
    exact hnext.trans_eq (octetsOf_letters _)
  obtain rfl : k = m := by omega
  rw [clip, if_neg hlong, hk, decodeUtf8, Decoder.run_encodeUtf8, scalars_letters,
    List.take_replicate, min_eq_left h.le, ← units_letters]
  cases k <;> rfl

theorem at?_chapters {lengths : List (Text × ℕ)} {place : Json.Place} {s : Text}
    (h : (Json.obj (chapters lengths)).at? place = some (.str s)) : ∃ c ∈ lengths, s = letters c.2 := by
  cases place with
  | nil => simp at h
  | cons step rest =>
    cases step with
    | item i => cases h
    | member key =>
      rw [Json.at?, Option.bind_eq_some_iff] at h
      obtain ⟨v, hv, hs⟩ := h
      obtain ⟨c, hc, hcv⟩ := List.mem_map.1 (Members.mem_of_get? hv)
      obtain ⟨-, rfl⟩ := Prod.mk.inj hcv
      cases rest with
      | nil =>
        rw [Json.at?_nil, Option.some.injEq, Json.str.injEq] at hs
        exact ⟨c, hc, hs.symm⟩
      | cons step rest => cases step <;> cases hs

/-- A chapter too long, and a member under the name its length is recorded with. -/
def collision : Members := chapters [(text "body", 8193), (text "body_length", 5)]

theorem reduced_observed (payload : Members) :
    (observed payload).reduced (observed payload).memberBounds =
      observed (boundObject maxPayloadText payload).1 := by
  have hlabel : octets (text "ada") ≤ maxLabel := by decide
  have hactor : boundActor (observed payload).actor = ((observed payload).actor, false) :=
    boundActor_uncut hlabel
  rw [reduced, hactor]
  rfl

/-- The chapter is cut, and its length is overwritten. -/
theorem collision_reduced : (observed collision).reduced (observed collision).memberBounds =
    observed (chapters [(text "body", 8192), (text "body_length", 5)]) := by
  have hlong : cutLength maxPayloadText (.str (letters 8193)) = some 8193 := by
    rw [cutLength, octets_letters, if_pos (by decide)]
  have hshort : cutLength maxPayloadText (.str (letters 5)) = none := by
    rw [cutLength, octets_letters, if_neg (by decide)]
  have hbody : (boundPayload maxPayloadText 1 (.str (letters 8193))).1 = .str (letters 8192) :=
    congrArg Json.str (clip_letters (by decide))
  have hlength : (boundPayload maxPayloadText 1 (.str (letters 5))).1 = .str (letters 5) :=
    congrArg Json.str (clip_of_le (by rw [octets_letters]; decide))
  have hbounded : (boundObject maxPayloadText collision).1 =
      chapters [(text "body", 8192), (text "body_length", 5)] := by
    have hkeys : text "body" ≠ Members.protoKey ∧ text "body_length" ≠ Members.protoKey ∧
        text "body" ≠ text "body_length" ∧ lengthKey (text "body") = text "body_length" := by decide
    obtain ⟨hproto, hproto', hne, hsibling⟩ := hkeys
    simp only [boundObject, collision, chapters, List.map_cons, List.map_nil, boundMembers_cons,
      boundMember_eq, hlong, hshort, hbody, hlength, hsibling]
    simp [boundMembers, Members.assign, hproto, hproto', Members.put, Members.keys, hne, hne.symm]
  rw [reduced_observed, hbounded]

end Servanda
