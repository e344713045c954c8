import Servanda.Envelope

namespace Servanda

open Unicode

def maxEnvelopeOctets : ℕ := 65536

def maxPayloadText : ℕ := 8192

def maxPayloadDepth : ℕ := 8

def maxRefs : ℕ := 32

def maxRef : ℕ := 2048

def maxLabel : ℕ := 200

/-- Length in octets of UTF-8. -/
def octets (s : Text) : ℕ := octetsOf (scalars s)

def clip (s : Text) (maxOctets : ℕ) : Text :=
  let bytes := encodeUtf8 (scalars s)
  if bytes.length ≤ maxOctets then s
  else units (decodeUtf8 (bytes.take (boundary bytes maxOctets)))

inductive BoundsViolation
  | notAnObject
  | label
  | externalId
  | source
  | kind
  | refsCount
  | refsValue
  | payloadDepth
  | payloadText
  | canonicalForm (size : ℕ)
  deriving DecidableEq

def BoundsViolation.reason : BoundsViolation → String
  | notAnObject => "not an object"
  | label => "actor.label exceeds 200 octets"
  | externalId => "actor.external_id exceeds 200 octets"
  | source => "source exceeds 200 octets"
  | kind => "kind exceeds 200 octets"
  | refsCount => "refs holds more than 32 entries"
  | refsValue => "a refs value exceeds 2048 octets"
  | payloadDepth => "payload nests deeper than 8 levels"
  | payloadText => "a payload string exceeds 8192 octets"
  | canonicalForm size => "canonical form is " ++ toString size ++ " octets, over 65536"

mutual

def payloadViolation (depth : ℕ) : Json → Option BoundsViolation
  | .null | .bool _ | .num _ => if maxPayloadDepth < depth then some .payloadDepth else none
  | .str s =>
    if maxPayloadDepth < depth then some .payloadDepth
    else if maxPayloadText < octets s then some .payloadText
    else none
  | .arr items =>
    if maxPayloadDepth < depth then some .payloadDepth else itemsViolation (depth + 1) items
  | .obj members =>
    if maxPayloadDepth < depth then some .payloadDepth else membersViolation (depth + 1) members

def itemsViolation (depth : ℕ) : List Json → Option BoundsViolation
  | [] => none
  | item :: items =>
    match payloadViolation depth item with
    | some reason => some reason
    | none => itemsViolation depth items

def membersViolation (depth : ℕ) : List (Text × Json) → Option BoundsViolation
  | [] => none
  | (_, member) :: members =>
    match payloadViolation depth member with
    | some reason => some reason
    | none => membersViolation depth members

end

/-- Whether a member is a string over a bound. -/
def textOver (bound : ℕ) : Option Json → Bool
  | some (.str s) => bound < octets s
  | _ => false

theorem textOver_str {bound : ℕ} {s : Text} :
    textOver bound (some (.str s)) = true ↔ bound < octets s := by simp [textOver]

/-- The checks that do not measure the canonical form. -/
def memberViolation (e : Json) : Option BoundsViolation :=
  let actor := e.member (text "actor")
  let refs := match e.member (text "refs") with
    | some (.arr refs) => refs
    | _ => []
  if textOver maxLabel (actor.bind (·.member (text "label"))) then some .label
  else if textOver maxLabel (actor.bind (·.member (text "external_id"))) then some .externalId
  else if textOver maxLabel (e.member (text "source")) then some .source
  else if textOver maxLabel (e.member (text "kind")) then some .kind
  else if maxRefs < refs.length then some .refsCount
  else if refs.any fun ref ↦ textOver maxRef (ref.member (text "value")) then some .refsValue
  else (e.member (text "payload")).bind (payloadViolation 0)

inductive EnvelopeError
  | zodError
  | boundsExceeded (reason : BoundsViolation)
  | jcsDepthExceeded
  deriving DecidableEq

/-- Why an envelope exceeds a bound, `none` where every bound holds. -/
def boundsViolation (e : Json) : Except EnvelopeError (Option BoundsViolation) :=
  match e with
  | .null | .bool _ | .num _ | .str _ => .ok (some .notAnObject)
  | .arr _ | .obj _ =>
    match memberViolation e with
    | some reason => .ok (some reason)
    | none =>
      match canonicalBytes e with
      | none => .error .jcsDepthExceeded
      | some bytes =>
        .ok (if maxEnvelopeOctets < bytes.length then some (.canonicalForm bytes.length) else none)

def lengthKey (key : Text) : Text := key ++ text "_length"

/-- The sibling a clipped string gets, with its octet length as it was received. -/
def recordLength (out : Members) (key : Text) : Json → Members
  | .str s => out.assign (lengthKey key) (.num (.ofNat (octets s)))
  | _ => out

mutual

/-- A payload value cut to a budget, and whether anything was cut. -/
def boundPayload (budget depth : ℕ) : Json → Json × Bool
  | .str s => (.str (clip s budget), clip s budget ≠ s)
  | .arr items =>
    if maxPayloadDepth ≤ depth then (.arr [], items ≠ [])
    else
      let bounded := boundItems budget (depth + 1) items
      (.arr bounded.1, bounded.2)
  | .obj members =>
    if maxPayloadDepth ≤ depth then (.obj [], members ≠ [])
    else
      let bounded := boundMembers budget (depth + 1) [] false members
      (.obj bounded.1, bounded.2)
  | v => (v, false)

def boundItems (budget depth : ℕ) : List Json → List Json × Bool
  | [] => ([], false)
  | item :: items =>
    let b := boundPayload budget depth item
    let rest := boundItems budget depth items
    (b.1 :: rest.1, b.2 || rest.2)

/-- The loop over an object's members: what is written so far, and whether anything was cut. -/
def boundMembers (budget depth : ℕ) (out : Members) (clipped : Bool) :
    List (Text × Json) → Members × Bool
  | [] => (out, clipped)
  | (key, v) :: members =>
    let b := boundPayload budget depth v
    let out := out.assign key b.1
    let out := if b.2 then recordLength out key v else out
    boundMembers budget depth out (clipped || b.2) members

end

theorem clip_of_le {s : Text} {n : ℕ} (h : octets s ≤ n) : clip s n = s := if_pos h

theorem octets_clip_le {s : Text} {n : ℕ} (h : n < octets s) : octets (clip s n) ≤ n := by
  have hclip : clip s n = units (decodeUtf8 ((encodeUtf8 (scalars s)).take
      (boundary (encodeUtf8 (scalars s)) n))) := if_neg (not_le.2 h)
  rw [hclip, octets, scalars_units]
  exact length_decode_cut (scalars s) h

/-- A clip well over a bound does not bring a string inside it. -/
theorem octets_clip_max (s : Text) (n : ℕ) : octets (clip s n) ≤ n := by
  obtain hshort | hlong := le_or_gt (octets s) n
  · rwa [clip_of_le hshort]
  · exact octets_clip_le hlong

theorem octets_clip_le_iff {s : Text} {m n : ℕ} (h : m + 6 < n) :
    octets (clip s n) ≤ m ↔ octets s ≤ m := by
  by_cases hfits : octets s ≤ n
  · rw [clip_of_le hfits]
  · have hover : n < (encodeUtf8 (scalars s)).length := not_le.1 hfits
    have hclip : clip s n = units (decodeUtf8 ((encodeUtf8 (scalars s)).take
        (boundary (encodeUtf8 (scalars s)) n))) := if_neg hfits
    have hlow := le_length_decode_cut (scalars s) hover
    have hlength : n ≤ octets (clip s n) + 6 := by rwa [hclip, octets, scalars_units]
    omega

/-- A string over the bound always comes out shorter. -/
theorem clip_eq_iff {s : Text} {n : ℕ} : clip s n = s ↔ octets s ≤ n := by
  refine ⟨fun h ↦ ?_, clip_of_le⟩
  by_contra hover
  have hle := octets_clip_le (not_le.1 hover)
  rw [h] at hle
  exact hover hle

section Payload

variable {budget depth : ℕ} {items : List Json} {out members : Members} {clipped : Bool}

theorem payloadViolation_deep (h : maxPayloadDepth < depth) (v : Json) :
    payloadViolation depth v = some .payloadDepth := by
  cases v <;> simp [payloadViolation, h]

theorem itemsViolation_eq_none_iff :
    itemsViolation depth items = none ↔ ∀ v ∈ items, payloadViolation depth v = none := by
  induction items with
  | nil => simp [itemsViolation]
  | cons v items ih =>
    rw [itemsViolation]
    cases hv : payloadViolation depth v <;> simp [hv, ih]

theorem membersViolation_eq_none_iff :
    membersViolation depth members = none ↔ ∀ m ∈ members, payloadViolation depth m.2 = none := by
  induction members with
  | nil => simp [membersViolation]
  | cons m members ih =>
    obtain ⟨key, v⟩ := m
    rw [membersViolation]
    cases hv : payloadViolation depth v <;> simp [hv, ih]

theorem boundItems_eq : boundItems budget depth items =
    (items.map fun v ↦ (boundPayload budget depth v).1,
      items.any fun v ↦ (boundPayload budget depth v).2) := by
  induction items with
  | nil => rfl
  | cons v items ih => rw [boundItems, ih, List.map_cons, List.any_cons]

theorem boundMembers_clipped : (boundMembers budget depth out clipped members).2 =
    (clipped || members.any fun m ↦ (boundPayload budget depth m.2).2) := by
  induction members generalizing out clipped with
  | nil => simp [boundMembers]
  | cons m members ih => rw [boundMembers, ih, List.any_cons, Bool.or_assoc]

end Payload

namespace Json

mutual

/-- A value without the members that objects hold under `__proto__`. -/
def withoutProto : Json → Json
  | .arr items => .arr (itemsWithoutProto items)
  | .obj members => .obj (membersWithoutProto members)
  | v => v

def itemsWithoutProto : List Json → List Json
  | [] => []
  | v :: items => withoutProto v :: itemsWithoutProto items

def membersWithoutProto : List (Text × Json) → List (Text × Json)
  | [] => []
  | (key, v) :: members =>
    if key = Members.protoKey then membersWithoutProto members
    else (key, withoutProto v) :: membersWithoutProto members

end

end Json

section Payload

variable {budget depth : ℕ} {items : List Json} {out members : Members} {clipped : Bool}

theorem boundItems_quiet (h : ∀ v ∈ items, boundPayload budget depth v = (v.withoutProto, false)) :
    boundItems budget depth items = (Json.itemsWithoutProto items, false) := by
  induction items with
  | nil => rfl
  | cons v items ih =>
    have hv := h v List.mem_cons_self
    have hitems := ih fun v hv ↦ h v (List.mem_cons_of_mem _ hv)
    simp [boundItems, Json.itemsWithoutProto, hv, hitems]

theorem boundMembers_quiet (hdistinct : (out ++ members).keys.Nodup)
    (h : ∀ m ∈ members, boundPayload budget depth m.2 = (m.2.withoutProto, false)) :
    boundMembers budget depth out clipped members =
      (out ++ Json.membersWithoutProto members, clipped) := by
  induction members generalizing out with
  | nil => simp [boundMembers, Json.membersWithoutProto]
  | cons m members ih =>
    obtain ⟨key, v⟩ := m
    have hv : boundPayload budget depth v = (v.withoutProto, false) := h (key, v) List.mem_cons_self
    have hmembers : ∀ m ∈ members, _ := fun m hm ↦ h m (List.mem_cons_of_mem _ hm)
    have hsplit := List.nodup_append.1 (by simpa [Members.keys] using hdistinct)
    rw [boundMembers, hv]
    simp only [Members.assign, Json.membersWithoutProto, Bool.or_false, Bool.false_eq_true, if_false]
    by_cases hproto : key = Members.protoKey
    · simp only [hproto, if_true]
      refine ih ?_ hmembers
      simp only [Members.keys, List.map_append, List.map_cons] at hdistinct ⊢
      exact hdistinct.sublist (List.Sublist.append_left (List.sublist_cons_self _ _) _)
    · have habsent : key ∉ out.keys := by
        intro hmem
        exact hsplit.2.2 key hmem key (by simp) rfl
      simp only [hproto, if_false, Members.put_of_absent habsent]
      rw [ih ?_ hmembers]
      · simp
      · simpa [Members.keys] using hdistinct

/-- Where no payload bound is exceeded, bounding only takes out what stands under `__proto__`. -/
theorem boundPayload_quiet {v : Json} (hdistinct : v.Distinct)
    (h : payloadViolation depth v = none) :
    boundPayload maxPayloadText depth v = (v.withoutProto, false) := by
  induction v using Json.induction generalizing depth with
  | null | bool b | num n => rfl
  | str s =>
    have hle : octets s ≤ maxPayloadText := by
      rw [payloadViolation] at h
      split_ifs at h with hdeep hlong
      exact not_lt.1 hlong
    simp [boundPayload, Json.withoutProto, clip_of_le hle]
  | arr items ih =>
    rw [payloadViolation] at h
    split_ifs at h with hdeep
    have hitems := itemsViolation_eq_none_iff.1 h
    rw [boundPayload, Json.withoutProto]
    by_cases hlimit : maxPayloadDepth ≤ depth
    · cases items with
      | nil => simp [hlimit, Json.itemsWithoutProto]
      | cons v items =>
        have hv := hitems v List.mem_cons_self
        rw [payloadViolation_deep (by omega) v] at hv
        cases hv
    · rw [if_neg hlimit, boundItems_quiet fun v hv ↦ ih v hv (hdistinct.items v hv) (hitems v hv)]
  | obj members ih =>
    rw [payloadViolation] at h
    split_ifs at h with hdeep
    have hmembers := membersViolation_eq_none_iff.1 h
    rw [boundPayload, Json.withoutProto]
    by_cases hlimit : maxPayloadDepth ≤ depth
    · cases members with
      | nil => simp [hlimit, Json.membersWithoutProto]
      | cons m members =>
        have hm := hmembers m List.mem_cons_self
        rw [payloadViolation_deep (by omega) m.2] at hm
        cases hm
    · rw [if_neg hlimit, boundMembers_quiet (by simpa using hdistinct.keys) fun m hm ↦
        ih m hm (hdistinct.members m hm) (hmembers m hm)]
      simp

/-- Where a payload bound is exceeded, bounding cuts. -/
theorem boundPayload_cuts {v : Json} (hdepth : depth ≤ maxPayloadDepth)
    (h : payloadViolation depth v ≠ none) : (boundPayload maxPayloadText depth v).2 = true := by
  induction v using Json.induction generalizing depth with
  | null | bool b | num n => simp [payloadViolation, not_lt.2 hdepth] at h
  | str s =>
    have hlong : maxPayloadText < octets s := by
      by_contra hshort
      simp [payloadViolation, not_lt.2 hdepth, hshort] at h
    simpa [boundPayload, clip_eq_iff] using hlong
  | arr items ih =>
    rw [payloadViolation, if_neg (not_lt.2 hdepth)] at h
    obtain ⟨v, hv, hviolation⟩ : ∃ v ∈ items, payloadViolation (depth + 1) v ≠ none := by
      by_contra hall
      exact h (itemsViolation_eq_none_iff.2 (by simpa using hall))
    rw [boundPayload]
    by_cases hlimit : maxPayloadDepth ≤ depth
    · simpa [hlimit] using List.ne_nil_of_mem hv
    · simp only [hlimit, if_false, boundItems_eq, List.any_eq_true]
      exact ⟨v, hv, ih v hv (by omega) hviolation⟩
  | obj members ih =>
    rw [payloadViolation, if_neg (not_lt.2 hdepth)] at h
    obtain ⟨m, hm, hviolation⟩ : ∃ m ∈ members, payloadViolation (depth + 1) m.2 ≠ none := by
      by_contra hall
      exact h (membersViolation_eq_none_iff.2 (by simpa using hall))
    rw [boundPayload]
    by_cases hlimit : maxPayloadDepth ≤ depth
    · simpa [hlimit] using List.ne_nil_of_mem hm
    · simp only [hlimit, if_false, boundMembers_clipped, Bool.false_or, List.any_eq_true]
      exact ⟨m, hm, ih m hm (by omega) hviolation⟩

/-- Names an object literal can come to have. -/
def Assigned (keys : List Text) : Prop := keys.Nodup ∧ Members.protoKey ∉ keys

theorem assigned_assign {key : Text} {value : Json} (h : Assigned out.keys) :
    Assigned (out.assign key value).keys := by
  unfold Members.assign
  split
  · exact h
  · next hproto =>
    refine ⟨Members.nodup_put h.1, ?_⟩
    rw [Members.keys_put]
    split
    · exact h.2
    · rw [List.mem_append, List.mem_singleton, not_or]
      exact ⟨h.2, fun heq ↦ hproto heq.symm⟩

theorem mem_assign {key : Text} {value : Json} {m : Text × Json} (h : m ∈ out.assign key value) :
    m ∈ out ∨ m.2 = value := by
  unfold Members.assign at h
  split at h
  · exact .inl h
  · exact Members.mem_put h

theorem boundMembers_induction {P : Json → Prop} (clipped : Bool) (hnum : ∀ n, P (.num n))
    (h : ∀ m ∈ members, P (boundPayload budget depth m.2).1) (hout : ∀ m ∈ out, P m.2)
    (hkeys : Assigned out.keys) :
    (∀ m ∈ (boundMembers budget depth out clipped members).1, P m.2) ∧
      Assigned (boundMembers budget depth out clipped members).1.keys := by
  induction members generalizing out clipped with
  | nil => exact ⟨hout, hkeys⟩
  | cons m members ih =>
    obtain ⟨key, v⟩ := m
    have hassigned : ∀ m ∈ out.assign key (boundPayload budget depth v).1, P m.2 := by
      intro m hm
      obtain hm | hm := mem_assign hm
      · exact hout m hm
      · rw [hm]
        exact h (key, v) List.mem_cons_self
    have hmembers : ∀ m ∈ members, P (boundPayload budget depth m.2).1 := fun m hm ↦
      h m (List.mem_cons_of_mem _ hm)
    rw [boundMembers]
    refine ih _ hmembers ?_ ?_
    · split
      · cases v with
        | str s =>
          intro m hm
          obtain hm | hm := mem_assign hm
          · exact hassigned m hm
          · rw [hm]
            exact hnum _
        | _ => exact hassigned
      · exact hassigned
    · split
      · cases v with
        | str s => exact assigned_assign (assigned_assign hkeys)
        | _ => exact assigned_assign hkeys
      · exact assigned_assign hkeys

/-- Every object of a bounded payload is one the loop wrote. -/
theorem boundPayload_assigned (v : Json) :
    Json.Every Assigned (boundPayload budget depth v).1 := by
  induction v using Json.induction generalizing depth with
  | null => exact .null
  | bool b => exact .bool b
  | num n => exact .num n
  | str s => exact .str _
  | arr items ih =>
    rw [boundPayload]
    split
    · exact .arr (by simp)
    · refine .arr fun v hv ↦ ?_
      rw [boundItems_eq] at hv
      obtain ⟨item, hitem, rfl⟩ := List.mem_map.1 hv
      exact ih item hitem
  | obj members ih =>
    rw [boundPayload]
    split
    · exact .obj ⟨List.nodup_nil, by simp [Members.keys]⟩ (by simp)
    · obtain ⟨hmembers, hkeys⟩ := boundMembers_induction (P := Json.Every Assigned) false .num
        (fun m hm ↦ ih m hm) (List.forall_mem_nil _) ⟨List.nodup_nil, List.not_mem_nil⟩
      exact .obj hkeys hmembers

theorem payloadViolation_num (hdepth : depth ≤ maxPayloadDepth) (n : JsNumber) :
    payloadViolation depth (.num n) = none := if_neg (not_lt.2 hdepth)

/-- What is left of a payload value is inside the payload bounds. -/
theorem boundPayload_within (v : Json) (hdepth : depth ≤ maxPayloadDepth)
    (hbudget : budget ≤ maxPayloadText) :
    payloadViolation depth (boundPayload budget depth v).1 = none := by
  induction v using Json.induction generalizing depth with
  | null | bool b | num n => exact if_neg (not_lt.2 hdepth)
  | str s =>
    have hle : octets (clip s budget) ≤ budget := by
      by_cases hfits : octets s ≤ budget
      · rwa [clip_of_le hfits]
      · exact octets_clip_le (not_le.1 hfits)
    rw [boundPayload, payloadViolation, if_neg (not_lt.2 hdepth),
      if_neg (not_lt.2 (hle.trans hbudget))]
  | arr items ih =>
    rw [boundPayload]
    split
    · rw [payloadViolation, if_neg (not_lt.2 hdepth), itemsViolation]
    · next hlimit =>
      rw [payloadViolation, if_neg (not_lt.2 hdepth), itemsViolation_eq_none_iff, boundItems_eq]
      intro v hv
      obtain ⟨item, hitem, rfl⟩ := List.mem_map.1 hv
      exact ih item hitem (by omega)
  | obj members ih =>
    rw [boundPayload]
    split
    · rw [payloadViolation, if_neg (not_lt.2 hdepth), membersViolation]
    · next hlimit =>
      have hmembers : ∀ m ∈ members, payloadViolation (depth + 1)
          (boundPayload budget (depth + 1) m.2).1 = none := fun m hm ↦ ih m hm (by omega)
      rw [payloadViolation, if_neg (not_lt.2 hdepth), membersViolation_eq_none_iff]
      exact (boundMembers_induction (P := fun v ↦ payloadViolation (depth + 1) v = none) false
        (payloadViolation_num (by omega)) hmembers (List.forall_mem_nil _)
        ⟨List.nodup_nil, List.not_mem_nil⟩).1

/-- Inside the payload bounds a value nests no deeper than the limit. -/
theorem height_le {v : Json} (h : payloadViolation depth v = none) :
    depth + v.height ≤ maxPayloadDepth := by
  have hdepth : depth ≤ maxPayloadDepth := by
    by_contra hdeep
    rw [payloadViolation_deep (not_le.1 hdeep)] at h
    cases h
  induction v using Json.induction generalizing depth with
  | null | bool b | num n | str s => simpa [Json.height] using hdepth
  | arr items ih =>
    rw [payloadViolation, if_neg (not_lt.2 hdepth), itemsViolation_eq_none_iff] at h
    have hitems : Json.itemsHeight items ≤ maxPayloadDepth - depth := by
      apply Json.itemsHeight_le_iff.2
      intro v hv
      have hdeeper : depth + 1 ≤ maxPayloadDepth := by
        by_contra hdeep
        have hv' := h v hv
        rw [payloadViolation_deep (not_le.1 hdeep)] at hv'
        cases hv'
      have hv' := ih v hv (h v hv) hdeeper
      omega
    rw [Json.height]
    omega
  | obj members ih =>
    rw [payloadViolation, if_neg (not_lt.2 hdepth), membersViolation_eq_none_iff] at h
    have hmembers : Json.membersHeight members ≤ maxPayloadDepth - depth := by
      apply Json.membersHeight_le_iff.2
      intro m hm
      have hdeeper : depth + 1 ≤ maxPayloadDepth := by
        by_contra hdeep
        have hm' := h m hm
        rw [payloadViolation_deep (not_le.1 hdeep)] at hm'
        cases hm'
      have hm' := ih m hm (h m hm) hdeeper
      omega
    rw [Json.height]
    omega

theorem assigned_delete {key : Text} (h : Json.Every Assigned (.obj members)) :
    Json.Every Assigned (.obj (members.delete key)) := by
  have hsub : (members.delete key).keys.Sublist members.keys := List.filter_sublist.map _
  exact .obj ⟨h.keys.1.sublist hsub, fun hmem ↦ h.keys.2 (hsub.subset hmem)⟩
    fun m hm ↦ h.members m (List.mem_of_mem_filter hm)

end Payload

namespace Json

theorem Every.imp {P Q : List Text → Prop} {v : Json} (hPQ : ∀ keys, P keys → Q keys)
    (h : Every P v) : Every Q v := by
  induction h with
  | null => exact .null
  | bool b => exact .bool b
  | num n => exact .num n
  | str s => exact .str s
  | arr _ ih => exact .arr ih
  | obj hkeys _ ih => exact .obj (hPQ _ hkeys) ih

theorem membersWithoutProto_of {members : Members} (hkeys : Members.protoKey ∉ members.keys)
    (h : ∀ m ∈ members, withoutProto m.2 = m.2) : membersWithoutProto members = members := by
  induction members with
  | nil => rfl
  | cons m members ih =>
    obtain ⟨key, v⟩ := m
    simp only [Members.keys, List.map_cons, List.mem_cons, not_or] at hkeys
    have hv : withoutProto v = v := h (key, v) List.mem_cons_self
    rw [membersWithoutProto, if_neg fun heq ↦ hkeys.1 heq.symm, hv,
      ih hkeys.2 fun m hm ↦ h m (List.mem_cons_of_mem _ hm)]

theorem itemsWithoutProto_of {items : List Json} (h : ∀ v ∈ items, withoutProto v = v) :
    itemsWithoutProto items = items := by
  induction items with
  | nil => rfl
  | cons v items ih =>
    rw [itemsWithoutProto, h v List.mem_cons_self, ih fun v hv ↦ h v (List.mem_cons_of_mem _ hv)]

theorem withoutProto_of_protoless {v : Json} (h : v.Protoless) : withoutProto v = v := by
  induction h with
  | null | bool b | num n | str s => rfl
  | arr _ ih => rw [withoutProto, itemsWithoutProto_of ih]
  | obj hkeys _ ih => rw [withoutProto, membersWithoutProto_of hkeys ih]

end Json

def boundObject (budget : ℕ) (payload : Members) : Members × Bool :=
  boundMembers budget 1 [] false payload

theorem boundPayload_object (budget : ℕ) (payload : Members) :
    boundPayload budget 0 (.obj payload) =
      (.obj (boundObject budget payload).1, (boundObject budget payload).2) := rfl

def boundActor (a : EnvelopeActor) : EnvelopeActor × Bool :=
  let label := clip a.label maxLabel
  if label ≠ a.label then ({ a with label }, true) else (a, false)

def boundRef (r : EnvelopeRef) : EnvelopeRef × Bool :=
  let value := clip r.value maxRef
  if value = r.value then (r, false) else ({ r with value }, true)

def boundRefs (refs : List EnvelopeRef) : List EnvelopeRef × Bool :=
  let kept := refs.take maxRefs
  (kept.map fun r ↦ (boundRef r).1, kept.length ≠ refs.length || kept.any fun r ↦ (boundRef r).2)

namespace UnidentifiedEnvelope

/-- Whether the canonical form is over its bound. A bounded payload has one. -/
@[irreducible]
def tooBig (e : UnidentifiedEnvelope) : Bool :=
  (canonicalBytes e.toJson).any fun bytes ↦ maxEnvelopeOctets < bytes.length

/-- The loop that halves the string allowance until the form fits. -/
def tighten (payload : Members) (budget : ℕ) (out : UnidentifiedEnvelope) (clipped : Bool) :
    UnidentifiedEnvelope × Bool :=
  if out.tooBig ∧ 64 < budget then
    tighten payload (budget / 2) { out with payload := (boundObject (budget / 2) payload).1 } true
  else (out, clipped)
termination_by budget

/-- The loop that drops payload members, each with its `_length` sibling. -/
def dropMembers (out : UnidentifiedEnvelope) (clipped : Bool) :
    List Text → UnidentifiedEnvelope × Bool
  | [] => (out, clipped)
  | key :: keys =>
    if out.tooBig then
      dropMembers { out with payload := (out.payload.delete key).delete (lengthKey key) } true keys
    else (out, clipped)

/-- The loop that drops refs from the end. -/
def dropRefs (out : UnidentifiedEnvelope) (clipped : Bool) : UnidentifiedEnvelope × Bool :=
  if _h : out.tooBig ∧ out.refs ≠ [] then dropRefs { out with refs := out.refs.dropLast } true
  else (out, clipped)
termination_by out.refs.length
decreasing_by
  have hlength := List.length_pos_of_ne_nil _h.2
  simp only [List.length_dropLast]
  omega

/-- The bounds of the members, before the whole form is measured. -/
def boundEach (candidate : UnidentifiedEnvelope) : UnidentifiedEnvelope × Bool :=
  let actor := boundActor candidate.actor
  let refs := boundRefs candidate.refs
  let payload := boundObject maxPayloadText candidate.payload
  ({ candidate with actor := actor.1, refs := refs.1, payload := payload.1 },
    actor.2 || refs.2 || payload.2)

/-- Only ever sets the marker: a candidate that carries it keeps it. -/
def bound (candidate : UnidentifiedEnvelope) : UnidentifiedEnvelope :=
  let (out, clipped) := candidate.boundEach
  let (out, clipped) := tighten candidate.payload maxPayloadText out clipped
  let (out, clipped) :=
    if out.tooBig then dropMembers out clipped (out.payload.keys.insertionSort (· ≤ ·)).reverse
    else (out, clipped)
  let (out, clipped) := dropRefs out clipped
  if clipped then { out with clipped := true } else out

variable {candidate out : UnidentifiedEnvelope} {payload : Members} {budget : ℕ} {clipped : Bool}
  {keys : List Text}

/-- A loop that reports nothing cut has done nothing. -/
theorem tighten_uncut (h : (tighten payload budget out clipped).2 = false) :
    tighten payload budget out clipped = (out, clipped) ∧ ¬(out.tooBig ∧ 64 < budget) := by
  by_cases hbig : out.tooBig ∧ 64 < budget
  · have hcut : ∀ n out, (tighten payload n out true).2 = true := by
      intro n
      induction n using Nat.strong_induction_on with
      | _ n ih =>
        intro out
        unfold tighten
        split
        · next hn => exact ih (n / 2) (by omega) _
        · rfl
    rw [tighten, if_pos hbig, hcut] at h
    cases h
  · rw [tighten, if_neg hbig]
    exact ⟨rfl, hbig⟩

theorem dropMembers_uncut (h : (dropMembers out clipped keys).2 = false) :
    dropMembers out clipped keys = (out, clipped) := by
  have hcut : ∀ keys out, (dropMembers out true keys).2 = true := by
    intro keys
    induction keys with
    | nil => intro out; rfl
    | cons key keys ih =>
      intro out
      unfold dropMembers
      split
      · exact ih _
      · rfl
  cases keys with
  | nil => rfl
  | cons key keys =>
    rw [dropMembers] at h ⊢
    split at h
    · rw [hcut] at h
      cases h
    · next hfits => rw [if_neg hfits]

theorem dropRefs_cut (n : ℕ) (out : UnidentifiedEnvelope) (hn : out.refs.length = n) :
    (dropRefs out true).2 = true := by
  induction n generalizing out with
  | zero =>
    rw [dropRefs, dif_neg]
    exact fun h ↦ h.2 (List.length_eq_zero_iff.1 hn)
  | succ n ih =>
    unfold dropRefs
    split
    · exact ih _ (by simp [hn])
    · rfl

theorem dropRefs_uncut (h : (dropRefs out clipped).2 = false) :
    dropRefs out clipped = (out, clipped) := by
  by_cases hbig : out.tooBig ∧ out.refs ≠ []
  · rw [dropRefs, dif_pos hbig, dropRefs_cut _ _ rfl] at h
    cases h
  · rw [dropRefs, dif_neg hbig]

/-- Without a marker, only the member bounds were applied: they cut nothing, and the form fits. -/
theorem bound_unmarked (h : (bound candidate).clipped = false) :
    candidate.boundEach.2 = false ∧ candidate.boundEach.1.tooBig = false ∧
      bound candidate = candidate.boundEach.1 := by
  obtain ⟨⟨out₁, cut₁⟩, h₁⟩ : ∃ r, candidate.boundEach = r := ⟨_, rfl⟩
  obtain ⟨⟨out₂, cut₂⟩, h₂⟩ : ∃ r, tighten candidate.payload maxPayloadText out₁ cut₁ = r := ⟨_, rfl⟩
  obtain ⟨⟨out₃, cut₃⟩, h₃⟩ : ∃ r, (if out₂.tooBig then
    dropMembers out₂ cut₂ (out₂.payload.keys.insertionSort (· ≤ ·)).reverse
    else (out₂, cut₂)) = r := ⟨_, rfl⟩
  obtain ⟨⟨out₄, cut₄⟩, h₄⟩ : ∃ r, dropRefs out₃ cut₃ = r := ⟨_, rfl⟩
  have hbound : bound candidate = if cut₄ then { out₄ with clipped := true } else out₄ := by
    simp only [bound, h₁, h₂, h₃, h₄]
  rw [hbound] at h ⊢
  cases cut₄ with
  | true => simp at h
  | false =>
    have hrefs := dropRefs_uncut (h₄ ▸ rfl : (dropRefs out₃ cut₃).2 = false)
    rw [h₄, Prod.mk.injEq] at hrefs
    obtain ⟨rfl, rfl⟩ := hrefs
    have hmembers : (out₂, cut₂) = (out₄, false) := by
      split at h₃
      · rw [← h₃]
        exact (dropMembers_uncut (by rw [h₃])).symm
      · exact h₃
    obtain ⟨rfl, rfl⟩ := Prod.mk.inj hmembers
    obtain ⟨htighten, hfits⟩ := tighten_uncut (by rw [h₂])
    rw [h₂, Prod.mk.injEq] at htighten
    obtain ⟨rfl, rfl⟩ := htighten
    refine ⟨by rw [h₁], ?_, by simp [h₁]⟩
    rw [h₁]
    by_contra hbig
    exact hfits ⟨by simpa using hbig, by decide⟩

theorem bound_of_fits (h : candidate.boundEach.2 = false)
    (hfits : candidate.boundEach.1.tooBig = false) : bound candidate = candidate.boundEach.1 := by
  obtain ⟨⟨out, cut⟩, hr⟩ : ∃ r, candidate.boundEach = r := ⟨_, rfl⟩
  rw [hr] at h hfits
  obtain rfl : cut = false := h
  have htighten : tighten candidate.payload maxPayloadText out false = (out, false) := by
    rw [tighten, if_neg (by simp [hfits])]
  have hrefs : dropRefs out false = (out, false) := by
    rw [dropRefs, dif_neg (by simp [hfits])]
  simp [bound, hr, htighten, hfits, hrefs]

/-- The bounds of the members that `bound` can cut. -/
structure Within (e : UnidentifiedEnvelope) : Prop where
  label : octets e.actor.label ≤ maxLabel
  refsCount : e.refs.length ≤ maxRefs
  refsValue : ∀ r ∈ e.refs, octets r.value ≤ maxRef
  payload : payloadViolation 0 (.obj e.payload) = none

theorem boundActor_uncut_iff {a : EnvelopeActor} :
    (boundActor a).2 = false ↔ octets a.label ≤ maxLabel := by
  rw [← clip_eq_iff]
  by_cases h : clip a.label maxLabel = a.label <;> simp [boundActor, h]

theorem boundActor_uncut {a : EnvelopeActor} (h : octets a.label ≤ maxLabel) :
    boundActor a = (a, false) := by simp [boundActor, clip_of_le h]

theorem boundRef_uncut_iff {r : EnvelopeRef} : (boundRef r).2 = false ↔ octets r.value ≤ maxRef := by
  rw [← clip_eq_iff]
  by_cases h : clip r.value maxRef = r.value <;> simp [boundRef, h]

theorem boundRef_uncut {r : EnvelopeRef} (h : octets r.value ≤ maxRef) : boundRef r = (r, false) := by
  simp [boundRef, clip_of_le h]

theorem boundRefs_uncut_iff {refs : List EnvelopeRef} : (boundRefs refs).2 = false ↔
    refs.length ≤ maxRefs ∧ ∀ r ∈ refs, octets r.value ≤ maxRef := by
  have hcount : (refs.take maxRefs).length = refs.length ↔ refs.length ≤ maxRefs := by
    rw [List.length_take]
    omega
  simp only [boundRefs, Bool.or_eq_false_iff, decide_eq_false_iff_not, not_not, hcount,
    List.any_eq_false, Bool.not_eq_true, boundRef_uncut_iff]
  apply and_congr_right
  intro hle
  rw [List.take_of_length_le hle]

theorem boundRefs_uncut {refs : List EnvelopeRef} (hcount : refs.length ≤ maxRefs)
    (hvalue : ∀ r ∈ refs, octets r.value ≤ maxRef) : boundRefs refs = (refs, false) := by
  refine Prod.ext ?_ (boundRefs_uncut_iff.2 ⟨hcount, hvalue⟩)
  rw [boundRefs, List.take_of_length_le hcount]
  exact (List.map_congr_left fun r hr ↦ congrArg Prod.fst (boundRef_uncut (hvalue r hr))).trans
    (List.map_id _)

theorem boundObject_uncut (hdistinct : (Json.obj payload).Distinct)
    (h : payloadViolation 0 (.obj payload) = none) :
    boundObject maxPayloadText payload = (Json.membersWithoutProto payload, false) := by
  have hquiet := boundPayload_quiet hdistinct h
  rw [boundPayload_object, Json.withoutProto, Prod.mk.injEq, Json.obj.injEq] at hquiet
  exact Prod.ext hquiet.1 hquiet.2

/-- Inside the member bounds, bounding only takes out what stands under `__proto__`. -/
theorem boundEach_within (hdistinct : (Json.obj candidate.payload).Distinct)
    (h : candidate.Within) : candidate.boundEach =
      ({ candidate with payload := Json.membersWithoutProto candidate.payload }, false) := by
  simp [boundEach, boundActor_uncut h.label, boundRefs_uncut h.refsCount h.refsValue,
    boundObject_uncut hdistinct h.payload]

theorem within_of_uncut (h : candidate.boundEach.2 = false) : candidate.Within := by
  simp only [boundEach, Bool.or_eq_false_iff] at h
  obtain ⟨⟨hactor, hrefs⟩, hpayload⟩ := h
  obtain ⟨hcount, hvalue⟩ := boundRefs_uncut_iff.1 hrefs
  refine ⟨boundActor_uncut_iff.1 hactor, hcount, hvalue, ?_⟩
  by_contra hviolation
  have hcut : (boundObject maxPayloadText candidate.payload).2 = true :=
    boundPayload_cuts (Nat.zero_le _) hviolation
  rw [hpayload] at hcut
  cases hcut

/-- The candidate carries the marker, exceeds a member bound, or is too big even without what
stands under `__proto__`. -/
def Cut (e : UnidentifiedEnvelope) : Prop :=
  e.clipped = true ∨ ¬e.Within ∨
    ({ e with payload := Json.membersWithoutProto e.payload } : UnidentifiedEnvelope).tooBig = true

theorem bound_of_not_cut (hdistinct : (Json.obj candidate.payload).Distinct)
    (h : ¬candidate.Cut) :
    bound candidate = { candidate with payload := Json.membersWithoutProto candidate.payload } := by
  simp only [Cut, not_or, not_not] at h
  obtain ⟨-, hwithin, hfits⟩ := h
  have heach := boundEach_within hdistinct hwithin
  rw [bound_of_fits (by rw [heach]) (by rw [heach]; simpa using hfits), heach]

/-- The marker is set exactly on the candidates that need it. -/
theorem bound_marked_iff (hdistinct : (Json.obj candidate.payload).Distinct) :
    (bound candidate).clipped = true ↔ candidate.Cut := by
  constructor
  · intro hmarked
    by_contra huncut
    have hunmarked : ¬candidate.clipped = true := fun h ↦ huncut (.inl h)
    rw [bound_of_not_cut hdistinct huncut] at hmarked
    exact hunmarked hmarked
  · intro hcut
    by_contra hunmarked
    obtain ⟨heach, hfits, hbound⟩ := bound_unmarked (by simpa using hunmarked)
    have hwithin := within_of_uncut heach
    rw [boundEach_within hdistinct hwithin] at hfits hbound
    obtain hclipped | hover | hbig := hcut
    · rw [hbound] at hunmarked
      exact hunmarked hclipped
    · exact hover hwithin
    · rw [hbig] at hfits
      cases hfits

theorem tighten_induction {P : UnidentifiedEnvelope → Prop} (clipped : Bool)
    (tightened : ∀ out, ∀ n ≤ budget, P out → P { out with payload := (boundObject n payload).1 })
    (h : P out) : P (tighten payload budget out clipped).1 := by
  induction budget using Nat.strong_induction_on generalizing out clipped with
  | _ n ih =>
    unfold tighten
    split
    · next hn =>
      exact ih (n / 2) (by omega) _ (fun out m hm ↦ tightened out m (by omega))
        (tightened out (n / 2) (by omega) h)
    · exact h

theorem dropMembers_induction {P : UnidentifiedEnvelope → Prop} (clipped : Bool) (keys : List Text)
    (dropped : ∀ out key, P out → P { out with payload := out.payload.delete key })
    (h : P out) : P (dropMembers out clipped keys).1 := by
  induction keys generalizing out clipped with
  | nil => exact h
  | cons key keys ih =>
    unfold dropMembers
    split
    · exact ih _ (dropped _ (lengthKey key) (dropped out key h))
    · exact h

theorem dropRefs_induction {P : UnidentifiedEnvelope → Prop} (clipped : Bool)
    (unreferenced : ∀ out, P out → P { out with refs := out.refs.dropLast }) (n : ℕ)
    (hn : out.refs.length = n) (h : P out) : P (dropRefs out clipped).1 := by
  induction n generalizing out clipped with
  | zero =>
    rw [dropRefs, dif_neg]
    · exact h
    · exact fun h ↦ h.2 (List.length_eq_zero_iff.1 hn)
  | succ n ih =>
    unfold dropRefs
    split
    · exact ih true (by simp [hn]) (unreferenced out h)
    · exact h

/-- What holds after the member bounds, and survives every cut, holds of the reduced candidate. -/
theorem bound_induction {P : UnidentifiedEnvelope → Prop} (each : P candidate.boundEach.1)
    (tightened : ∀ out, ∀ n ≤ maxPayloadText, P out →
      P { out with payload := (boundObject n candidate.payload).1 })
    (dropped : ∀ out key, P out → P { out with payload := out.payload.delete key })
    (unreferenced : ∀ out, P out → P { out with refs := out.refs.dropLast })
    (marked : ∀ out, P out → P { out with clipped := true }) : P (bound candidate) := by
  obtain ⟨⟨out₁, cut₁⟩, h₁⟩ : ∃ r, candidate.boundEach = r := ⟨_, rfl⟩
  obtain ⟨⟨out₂, cut₂⟩, h₂⟩ : ∃ r, tighten candidate.payload maxPayloadText out₁ cut₁ = r := ⟨_, rfl⟩
  obtain ⟨⟨out₃, cut₃⟩, h₃⟩ : ∃ r, (if out₂.tooBig then
    dropMembers out₂ cut₂ (out₂.payload.keys.insertionSort (· ≤ ·)).reverse
    else (out₂, cut₂)) = r := ⟨_, rfl⟩
  obtain ⟨⟨out₄, cut₄⟩, h₄⟩ : ∃ r, dropRefs out₃ cut₃ = r := ⟨_, rfl⟩
  have hbound : bound candidate = if cut₄ then { out₄ with clipped := true } else out₄ := by
    simp only [bound, h₁, h₂, h₃, h₄]
  have hout₁ : P out₁ := by rwa [h₁] at each
  have hout₂ : P out₂ := by
    have htighten := tighten_induction cut₁ tightened hout₁
    rwa [h₂] at htighten
  have hout₃ : P out₃ := by
    split at h₃
    · have hdrop := dropMembers_induction cut₂
        (out₂.payload.keys.insertionSort (· ≤ ·)).reverse dropped hout₂
      rwa [h₃] at hdrop
    · rw [Prod.mk.injEq] at h₃
      exact h₃.1 ▸ hout₂
  have hout₄ : P out₄ := by
    have hrefs := dropRefs_induction cut₃ unreferenced _ rfl hout₃
    rwa [h₄] at hrefs
  rw [hbound]
  split
  · exact marked out₄ hout₄
  · exact hout₄

theorem boundObject_assigned (budget : ℕ) (payload : Members) :
    Json.Every Assigned (.obj (boundObject budget payload).1) := by
  have h : Json.Every Assigned (boundPayload budget 0 (.obj payload)).1 := boundPayload_assigned _
  rwa [boundPayload_object] at h

/-- Every object of a reduced payload is one the reduction has written. -/
theorem bound_assigned (candidate : UnidentifiedEnvelope) :
    Json.Every Assigned (.obj (bound candidate).payload) := by
  refine bound_induction (P := fun out ↦ Json.Every Assigned (.obj out.payload)) ?_ ?_ ?_ ?_ ?_
  · exact boundObject_assigned _ _
  · exact fun _ n _ _ ↦ boundObject_assigned n _
  · exact fun _ _ h ↦ assigned_delete h
  · exact fun _ h ↦ h
  · exact fun _ h ↦ h

theorem boundObject_within {budget : ℕ} (hbudget : budget ≤ maxPayloadText) (payload : Members) :
    payloadViolation 0 (.obj (boundObject budget payload).1) = none := by
  have h := boundPayload_within (.obj payload) (Nat.zero_le _) hbudget
  rwa [boundPayload_object] at h

theorem boundEach_bounded (candidate : UnidentifiedEnvelope) : candidate.boundEach.1.Within where
  label := by
    have hclip := fun h ↦ octets_clip_le (s := candidate.actor.label) (n := maxLabel) h
    simp only [boundEach, boundActor]
    split
    · next hcut => exact hclip (not_le.1 fun hle ↦ hcut (clip_of_le hle))
    · next hsame => exact clip_eq_iff.1 (not_not.1 hsame)
  refsCount := by simp [boundEach, boundRefs]
  refsValue := by
    intro r hr
    obtain ⟨ref, -, rfl⟩ := List.mem_map.1 hr
    unfold boundRef
    dsimp only
    split
    · next hsame => exact clip_eq_iff.1 hsame
    · next hcut => exact octets_clip_le (not_le.1 fun hle ↦ hcut (clip_of_le hle))
  payload := boundObject_within le_rfl _

/-- The reduction brings every member it can cut inside its bound. -/
theorem bound_within (candidate : UnidentifiedEnvelope) : (bound candidate).Within := by
  refine bound_induction (boundEach_bounded candidate) ?_ ?_ ?_ ?_
  · exact fun _ n hn h ↦ { h with payload := boundObject_within hn _ }
  · intro out key h
    have hpayload := h.payload
    rw [payloadViolation, if_neg (by decide), membersViolation_eq_none_iff] at hpayload
    refine { h with payload := ?_ }
    rw [payloadViolation, if_neg (by decide), membersViolation_eq_none_iff]
    exact fun m hm ↦ hpayload m (List.mem_of_mem_filter hm)
  · intro out h
    refine { h with refsCount := ?_, refsValue := ?_ }
    · rw [List.length_dropLast]
      exact (Nat.sub_le _ _).trans h.refsCount
    · exact fun r hr ↦ h.refsValue r (List.mem_of_mem_dropLast hr)
  · exact fun _ h ↦ { h with }

/-- What the reduction leaves as it is. -/
structure Framed (candidate out : UnidentifiedEnvelope) : Prop where
  source : out.source = candidate.source
  kind : out.kind = candidate.kind
  occurredAt : out.occurredAt = candidate.occurredAt
  receivedAt : out.receivedAt = candidate.receivedAt
  persona : out.persona = candidate.persona
  externalId : out.actor.externalId = candidate.actor.externalId

theorem bound_framed (candidate : UnidentifiedEnvelope) : Framed candidate (bound candidate) := by
  refine bound_induction (P := Framed candidate) ⟨rfl, rfl, rfl, rfl, rfl, ?_⟩ ?_ ?_ ?_ ?_
  · simp only [boundEach, boundActor]
    split <;> rfl
  · exact fun _ _ _ h ↦ { h with }
  · exact fun _ _ h ↦ { h with }
  · exact fun _ h ↦ { h with }
  · exact fun _ h ↦ { h with }

/-- Inside the member bounds an envelope can be canonicalized. -/
theorem canonicalBytes_of_within (h : out.Within) : ∃ bytes, canonicalBytes out.toJson = some bytes := by
  have hpayload := height_le h.payload
  have hactor : out.actor.toJson.height ≤ 1 := by
    apply Json.membersHeight_le_iff.2
    intro m hm
    cases hid : out.actor.externalId <;> simp [hid] at hm
    · simp [hm, Json.height]
    · obtain rfl | rfl := hm <;> simp [Json.height]
  have hrefs : (Json.arr (out.refs.map EnvelopeRef.toJson)).height ≤ 2 := by
    apply Json.itemsHeight_le_iff.2
    intro v hv
    obtain ⟨r, -, rfl⟩ := List.mem_map.1 hv
    simp [EnvelopeRef.toJson, Json.height, Json.membersHeight]
  have hheight : 0 + out.toJson.height ≤ maxCanonicalizationDepth := by
    rw [zero_add, maxCanonicalizationDepth]
    unfold maxPayloadDepth at hpayload
    exact Json.membersHeight_le_iff.2 (forall_members (P := fun v ↦ v.height + 1 ≤ 256)
      (fun _ ↦ by simp [Json.height]) (fun _ ↦ by simp [Json.height]) (by omega) (by omega) (by omega))
  obtain ⟨cs, hcs⟩ := Option.isSome_iff_exists.1 ((write_isSome_iff out.toJson 0).2 hheight)
  exact ⟨encodeUtf8 cs, by rw [canonicalBytes, canonicalize, hcs, Option.map_some]⟩

/-- The bounds of the members that `bound` cannot cut. -/
structure Short (e : UnidentifiedEnvelope) : Prop where
  externalId : ∀ id ∈ e.actor.externalId, octets id ≤ maxLabel
  source : octets e.source.val ≤ maxLabel
  kind : octets e.kind.val ≤ maxLabel

theorem memberViolation_eq_none_iff {e : UnidentifiedEnvelope} :
    memberViolation e.toJson = none ↔ e.Within ∧ e.Short := by
  have hactor : e.toJson.member (text "actor") = some e.actor.toJson := rfl
  have hlabel : e.actor.toJson.member (text "label") = some (.str e.actor.label) := rfl
  have hexternal : textOver maxLabel (e.actor.toJson.member (text "external_id")) = true ↔
      ∃ id ∈ e.actor.externalId, maxLabel < octets id := by
    have hmember : e.actor.toJson.member (text "external_id") = e.actor.externalId.map Json.str := by
      obtain ⟨_, _, _, _, ⟨label, externalId⟩, _, _, _, _⟩ := e
      cases externalId <;> rfl
    rw [hmember]
    cases e.actor.externalId <;> simp [textOver]
  have hsource : e.toJson.member (text "source") = some (.str e.source.val) := rfl
  have hkind : e.toJson.member (text "kind") = some (.str e.kind.val) := rfl
  have hrefs : e.toJson.member (text "refs") = some (.arr (e.refs.map EnvelopeRef.toJson)) := rfl
  have hpayload : e.toJson.member (text "payload") = some (.obj e.payload) := rfl
  have hvalue : ((e.refs.map EnvelopeRef.toJson).any fun ref ↦
      textOver maxRef (ref.member (text "value"))) = true ↔ ∃ r ∈ e.refs, maxRef < octets r.value := by
    have hmember : ∀ r : EnvelopeRef, r.toJson.member (text "value") = some (.str r.value) :=
      fun _ ↦ rfl
    simp [hmember, textOver]
  simp only [memberViolation, hactor, hsource, hkind, hrefs, hpayload, Option.bind_some, hlabel,
    hexternal, hvalue, List.length_map, textOver_str]
  split_ifs with h₁ h₂ h₃ h₄ h₅ h₆
  · exact iff_of_false (by simp) fun h ↦ absurd h.1.label (not_le.2 h₁)
  · obtain ⟨id, hid, hlong⟩ := h₂
    exact iff_of_false (by simp) fun h ↦ absurd (h.2.externalId id hid) (not_le.2 hlong)
  · exact iff_of_false (by simp) fun h ↦ absurd h.2.source (not_le.2 h₃)
  · exact iff_of_false (by simp) fun h ↦ absurd h.2.kind (not_le.2 h₄)
  · exact iff_of_false (by simp) fun h ↦ absurd h.1.refsCount (not_le.2 h₅)
  · obtain ⟨r, hr, hlong⟩ := h₆
    exact iff_of_false (by simp) fun h ↦ absurd (h.1.refsValue r hr) (not_le.2 hlong)
  · simp only [not_exists, not_and, not_lt] at h₁ h₂ h₃ h₄ h₅ h₆
    exact ⟨fun h ↦ ⟨⟨h₁, h₅, h₆, h⟩, h₂, h₃, h₄⟩, fun h ↦ h.1.payload⟩

end UnidentifiedEnvelope

end Servanda
