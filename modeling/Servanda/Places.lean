import Servanda.Reduction

/-!
Places in a value, and what the cut to an allowance leaves at each.
-/

namespace Servanda

open Unicode

namespace Json

/-- One step down into a value. -/
inductive Step
  | item (i : ℕ)
  | member (key : Text)

abbrev Place := List Step

/-- The value at a place. -/
def at? : Json → Place → Option Json
  | v, [] => some v
  | .arr items, .item i :: place => items[i]?.bind fun v ↦ at? v place
  | .obj members, .member key :: place => (Members.get? members key).bind fun v ↦ at? v place
  | _, _ :: _ => none

variable {v : Json} {members : Members} {items : List Json} {key : Text} {i : ℕ}

@[simp]
theorem at?_nil (v : Json) : v.at? [] = some v := by
  cases v <;> rfl

theorem at?_append (v : Json) (place rest : Place) :
    v.at? (place ++ rest) = (v.at? place).bind fun w ↦ w.at? rest := by
  induction place generalizing v with
  | nil => simp
  | cons step place ih =>
    cases v with
    | arr items =>
      cases step with
      | item i => simp [at?, Option.bind_assoc, ih]
      | member key => rfl
    | obj members =>
      cases step with
      | item i => rfl
      | member key => simp [at?, Option.bind_assoc, ih]
    | _ => cases step <;> rfl

/-- A member stands in an object. -/
theorem owner_of_at? {place : Place} {w : Json} (h : v.at? (place ++ [.member key]) = some w) :
    ∃ ms, v.at? place = some (.obj ms) := by
  rw [at?_append, Option.bind_eq_some_iff] at h
  obtain ⟨u, hu, hw⟩ := h
  cases u with
  | obj ms => exact ⟨ms, hu⟩
  | _ => cases hw

theorem Every.at? {P : List Text → Prop} {place : Place} {w : Json} (hv : Every P v)
    (h : v.at? place = some w) : Every P w := by
  induction place generalizing v with
  | nil =>
    rw [at?_nil, Option.some.injEq] at h
    exact h ▸ hv
  | cons step place ih =>
    cases v with
    | arr items =>
      cases step with
      | member key => cases h
      | item i =>
        rw [Json.at?, Option.bind_eq_some_iff] at h
        obtain ⟨u, hu, hw⟩ := h
        exact ih (hv.items u (List.mem_of_getElem? hu)) hw
    | obj members =>
      cases step with
      | item i => cases h
      | member key =>
        rw [Json.at?, Option.bind_eq_some_iff] at h
        obtain ⟨u, hu, hw⟩ := h
        exact ih (hv.members _ (Members.mem_of_get? hu)) hw
    | _ => cases step <;> cases h

theorem at?_num {n : JsNumber} {place : Place} {w : Json} (h : (Json.num n).at? place = some w) :
    w = .num n := by
  cases place with
  | nil => simpa using h.symm
  | cons step place => cases step <;> cases h

end Json

namespace Members

variable {ms : Members} {key k : Text} {value : Json}

theorem get?_replace : get? (ms.map fun m ↦ if m.1 = key then (key, value) else m) k =
    if k = key then (get? ms k).map fun _ ↦ value else get? ms k := by
  induction ms with
  | nil => simp [get?]
  | cons m ms ih =>
    obtain ⟨name, v⟩ := m
    rw [List.map_cons]
    by_cases hname : name = key
    · rw [if_pos hname, get?_cons, get?_cons, ih, hname]
      by_cases hk : k = key <;> simp [hk]
    · rw [if_neg hname, get?_cons, get?_cons, ih]
      by_cases hk : k = name
      · rw [if_pos hk, if_pos hk, if_neg (hk ▸ hname)]
      · rw [if_neg hk, if_neg hk]

theorem get?_put : get? (ms.put key value) k = if k = key then some value else get? ms k := by
  unfold put
  split
  · next hmem =>
    rw [get?_replace]
    split
    · next hk =>
      cases hget : get? ms k with
      | some v => rfl
      | none => exact absurd (hk ▸ hmem) (get?_eq_none_iff.1 hget)
    · rfl
  · next habsent =>
    rw [get?, List.lookup_append]
    by_cases hk : k = key
    · have hnone : List.lookup k ms = none := get?_eq_none_iff.2 (hk ▸ habsent)
      rw [hnone, if_pos hk, hk]
      simp
    · have hbeq : (k == key) = false := by simpa using hk
      simp [List.lookup_cons, hbeq, hk, get?]

theorem get?_assign (hproto : key ≠ protoKey) :
    get? (ms.assign key value) k = if k = key then some value else get? ms k := by
  rw [assign, if_neg hproto, get?_put]

theorem get?_assign_ne (h : k ≠ key) : get? (ms.assign key value) k = get? ms k := by
  by_cases hproto : key = protoKey
  · rw [assign, if_pos hproto]
  · rw [get?_assign hproto, if_neg h]

end Members

theorem lengthKey_injective {key k : Text} (h : lengthKey key = lengthKey k) : key = k :=
  List.append_cancel_right h

theorem lengthKey_ne (key : Text) : lengthKey key ≠ key := by
  intro h
  have hlength := congrArg List.length h
  have hsuffix : (text "_length").length = 7 := by decide
  rw [lengthKey, List.length_append, hsuffix] at hlength
  omega

theorem ne_lengthKey {key : Text} (h : key.getLast? ≠ (text "_length").getLast?) (k : Text) :
    key ≠ lengthKey k := by
  rintro rfl
  exact h (List.getLast?_append_of_ne_nil _ (by decide))

theorem lengthKey_ne_proto (key : Text) : lengthKey key ≠ Members.protoKey :=
  (ne_lengthKey (by decide) key).symm

/-- The length a string over the allowance is recorded with. -/
def cutLength (budget : ℕ) : Json → Option ℕ
  | .str s => if budget < octets s then some (octets s) else none
  | _ => none

section Rounds

variable {budget depth : ℕ} {out ms front back : Members} {clipped : Bool} {key k : Text} {v x : Json}
  {s : Text}

/-- One round of the loop over an object's members. -/
def boundMember (budget depth : ℕ) (out : Members) (key : Text) (v : Json) : Members :=
  let b := boundPayload budget depth v
  let out := out.assign key b.1
  if b.2 then recordLength out key v else out

theorem boundMembers_cons : boundMembers budget depth out clipped ((key, v) :: ms) =
    boundMembers budget depth (boundMember budget depth out key v)
      (clipped || (boundPayload budget depth v).2) ms := rfl

theorem boundMembers_append : boundMembers budget depth out clipped (front ++ back) =
    boundMembers budget depth (boundMembers budget depth out clipped front).1
      (boundMembers budget depth out clipped front).2 back := by
  induction front generalizing out clipped with
  | nil => rfl
  | cons m front ih =>
    obtain ⟨key, v⟩ := m
    rw [List.cons_append, boundMembers_cons, boundMembers_cons, ih]

theorem boundMember_eq : boundMember budget depth out key v =
    match cutLength budget v with
    | some n => (out.assign key (boundPayload budget depth v).1).assign (lengthKey key)
      (.num (.ofNat n))
    | none => out.assign key (boundPayload budget depth v).1 := by
  cases v with
  | str s =>
    by_cases hlong : budget < octets s
    · have hcut : clip s budget ≠ s := fun h ↦ not_le.2 hlong (clip_eq_iff.1 h)
      simp [boundMember, boundPayload, cutLength, hlong, hcut, recordLength]
    · have hsame : clip s budget = s := clip_of_le (not_lt.1 hlong)
      simp [boundMember, boundPayload, cutLength, hlong, hsame]
  | _ => simp [boundMember, cutLength, recordLength]

theorem get?_boundMember_self (hproto : key ≠ Members.protoKey) :
    Members.get? (boundMember budget depth out key v) key = some (boundPayload budget depth v).1 := by
  rw [boundMember_eq]
  split
  · rw [Members.get?_assign (lengthKey_ne_proto key), if_neg (lengthKey_ne key).symm,
      Members.get?_assign hproto, if_pos rfl]
  · rw [Members.get?_assign hproto, if_pos rfl]

theorem get?_boundMember_length {n : ℕ} (h : cutLength budget v = some n) :
    Members.get? (boundMember budget depth out key v) (lengthKey key) = some (.num (.ofNat n)) := by
  rw [boundMember_eq, h]
  exact (Members.get?_assign (lengthKey_ne_proto key)).trans (if_pos rfl)

theorem get?_boundMember_other (hkey : k ≠ key) (h : k = lengthKey key → cutLength budget v = none) :
    Members.get? (boundMember budget depth out key v) k = Members.get? out k := by
  have hassign : Members.get? (out.assign key (boundPayload budget depth v).1) k =
      Members.get? out k := Members.get?_assign_ne hkey
  rw [boundMember_eq]
  split
  · next hcut =>
    have hlength : k ≠ lengthKey key := fun heq ↦ by
      rw [h heq] at hcut
      cases hcut
    rw [Members.get?_assign (lengthKey_ne_proto key), if_neg hlength, hassign]
  · exact hassign

/-- Under a name the members do not have, the loop writes lengths only. -/
theorem get?_boundMembers_absent (hkey : key ∉ ms.keys) :
    Members.get? (boundMembers budget depth out clipped ms).1 key = Members.get? out key ∨
      ∃ n, Members.get? (boundMembers budget depth out clipped ms).1 key = some (.num n) := by
  induction ms generalizing out clipped with
  | nil => exact .inl rfl
  | cons m ms ih =>
    obtain ⟨k, v⟩ := m
    simp only [Members.keys, List.map_cons, List.mem_cons, not_or] at hkey
    rw [boundMembers_cons]
    obtain hsame | hnum := @ih (boundMember budget depth out k v) _ hkey.2
    · rw [hsame]
      cases hcut : cutLength budget v with
      | none => exact .inl (get?_boundMember_other hkey.1 fun _ ↦ hcut)
      | some n =>
        by_cases hlength : key = lengthKey k
        · exact .inr ⟨_, hlength ▸ get?_boundMember_length hcut⟩
        · exact .inl (get?_boundMember_other hkey.1 fun h ↦ absurd h hlength)
    · exact .inr hnum

theorem get?_boundMembers_unrecorded (hkey : key ∉ ms.keys)
    (h : ∀ m ∈ ms, key = lengthKey m.1 → cutLength budget m.2 = none) :
    Members.get? (boundMembers budget depth out clipped ms).1 key = Members.get? out key := by
  induction ms generalizing out clipped with
  | nil => rfl
  | cons m ms ih =>
    obtain ⟨k, v⟩ := m
    simp only [Members.keys, List.map_cons, List.mem_cons, not_or] at hkey
    rw [boundMembers_cons, ih hkey.2 fun m hm ↦ h m (List.mem_cons_of_mem _ hm)]
    exact get?_boundMember_other hkey.1 (h (k, v) List.mem_cons_self)

end Rounds

/-- A name stands before another among the members. -/
def Precedes (ms : Members) (key k : Text) : Prop :=
  ∃ front back, ms = front ++ back ∧ key ∈ Members.keys front ∧ k ∈ Members.keys back

/-- A member gives way to the length of a longer string that stands after it. -/
def Overwritten (budget : ℕ) (ms : Members) (key : Text) : Prop :=
  ∃ k s, key = lengthKey k ∧ ms.get? k = some (.str s) ∧ budget < octets s ∧ Precedes ms key k

section Loop

variable {budget depth : ℕ} {ms front back : Members} {clipped : Bool} {key k : Text} {v x : Json}
  {s : Text}

theorem keys_append : Members.keys (front ++ back) = front.keys ++ back.keys := List.map_append

theorem not_mem_keys_of_mem (hnodup : (Members.keys (front ++ back)).Nodup) (h : key ∈ front.keys) :
    key ∉ back.keys := by
  rw [keys_append] at hnodup
  exact fun h' ↦ (List.nodup_append.1 hnodup).2.2 key h key h' rfl

/-- A member with what stands before and after it. -/
theorem split_at (hnodup : ms.keys.Nodup) (h : ms.get? key = some v) : ∃ front back,
    ms = front ++ (key, v) :: back ∧ key ∉ Members.keys front ∧ key ∉ Members.keys back := by
  obtain ⟨front, back, rfl⟩ := List.append_of_mem (Members.mem_of_get? h)
  refine ⟨front, back, rfl, fun hmem ↦ ?_, ?_⟩
  · exact not_mem_keys_of_mem hnodup hmem (by simp [Members.keys])
  · rw [keys_append] at hnodup
    exact (List.nodup_cons.1 (List.nodup_append.1 hnodup).2.1).1

/-- A member that does not give way is kept, cut to the allowance. -/
theorem get?_boundMembers_kept (hnodup : ms.keys.Nodup) (h : ms.get? key = some v)
    (hproto : key ≠ Members.protoKey) (hkept : ¬Overwritten budget ms key) :
    Members.get? (boundMembers budget depth [] clipped ms).1 key =
      some (boundPayload budget depth v).1 := by
  obtain ⟨front, back, rfl, hfront, hback⟩ := split_at hnodup h
  rw [boundMembers_append, boundMembers_cons, get?_boundMembers_unrecorded hback]
  · exact get?_boundMember_self hproto
  · rintro ⟨k, w⟩ hm rfl
    by_contra hcut
    cases w with
    | str s =>
      have hlong : budget < octets s := by
        by_contra hshort
        exact hcut (if_neg hshort)
      have hget : Members.get? (front ++ (lengthKey k, v) :: back) k = some (.str s) :=
        Members.get?_of_mem hnodup (by simp [hm])
      refine hkept ⟨k, s, rfl, hget, hlong, front ++ [(lengthKey k, v)], back, by simp, ?_, ?_⟩
      · simp [Members.keys]
      · exact List.mem_map_of_mem hm
    | _ => exact hcut rfl

/-- Under a name that records no length, the loop leaves what stood there, cut to the allowance. -/
theorem get?_boundMembers_plain (hnodup : ms.keys.Nodup) (hproto : key ≠ Members.protoKey)
    (hkey : ∀ k, key ≠ lengthKey k) :
    Members.get? (boundMembers budget depth [] clipped ms).1 key =
      (ms.get? key).map fun v ↦ (boundPayload budget depth v).1 := by
  cases hget : ms.get? key with
  | none =>
    have habsent := Members.get?_eq_none_iff.1 hget
    exact get?_boundMembers_unrecorded habsent fun m _ h ↦ absurd h (hkey m.1)
  | some v =>
    refine get?_boundMembers_kept hnodup hget hproto ?_
    rintro ⟨k, _, h, -⟩
    exact hkey k h

/-- What stands before a member does not stand after it. -/
theorem not_mem_of_precedes {back : Members}
    (hnodup : (Members.keys (front ++ (k, v) :: back)).Nodup) (hback : k ∉ back.keys)
    (h : Precedes (front ++ (k, v) :: back) key k) : key ∉ back.keys := by
  have hafter : key ∈ Members.keys front → key ∉ back.keys := fun hmem hmem' ↦
    not_mem_keys_of_mem hnodup hmem (List.mem_cons_of_mem _ hmem')
  obtain ⟨front', back', heq, hkey, hk⟩ := h
  obtain ⟨between, hfront, hbetween⟩ | ⟨between, hfront, -⟩ := List.append_eq_append_iff.1 heq
  · cases between with
    | nil =>
      rw [List.append_nil] at hfront
      exact hafter (hfront ▸ hkey)
    | cons m between =>
      rw [List.cons_append, List.cons.injEq] at hbetween
      rw [hbetween.2, keys_append] at hback
      exact absurd (List.mem_append_right _ hk) hback
  · refine hafter ?_
    rw [hfront, keys_append]
    exact List.mem_append_left _ hkey

/-- A longer string is recorded with its length, under a name that is free or stands before it. -/
theorem get?_boundMembers_recorded (hnodup : ms.keys.Nodup) (h : ms.get? k = some (.str s))
    (hlong : budget < octets s)
    (hfree : ms.get? (lengthKey k) = none ∨ Precedes ms (lengthKey k) k) :
    Members.get? (boundMembers budget depth [] clipped ms).1 (lengthKey k) =
      some (.num (.ofNat (octets s))) := by
  obtain ⟨front, back, rfl, -, hback⟩ := split_at hnodup h
  have hlength : lengthKey k ∉ Members.keys back := by
    obtain hnone | hprecedes := hfree
    · have habsent := Members.get?_eq_none_iff.1 hnone
      rw [keys_append] at habsent
      exact fun hmem ↦ habsent (List.mem_append_right _ (List.mem_cons_of_mem _ hmem))
    · exact not_mem_of_precedes hnodup hback hprecedes
  rw [boundMembers_append, boundMembers_cons, get?_boundMembers_unrecorded hlength]
  · exact get?_boundMember_length (if_pos hlong)
  · intro m hm heq
    rw [lengthKey_injective heq] at hback
    exact absurd (List.mem_map_of_mem hm) hback

/-- Everything else the loop writes is a length. -/
theorem get?_boundMembers_cases (hnodup : ms.keys.Nodup)
    (h : Members.get? (boundMembers budget depth [] clipped ms).1 key = some x) :
    (∃ v, ms.get? key = some v ∧ key ≠ Members.protoKey ∧ ¬Overwritten budget ms key ∧
      x = (boundPayload budget depth v).1) ∨ ∃ n, x = .num n := by
  by_cases hproto : key = Members.protoKey
  · have hempty : Assigned (Members.keys []) := ⟨List.nodup_nil, List.not_mem_nil⟩
    have hkeys : Assigned (boundMembers budget depth [] clipped ms).1.keys :=
      (boundMembers_induction (P := fun _ ↦ True) clipped (fun _ ↦ trivial) (fun _ _ ↦ trivial)
        (fun _ _ ↦ trivial) hempty).2
    refine absurd ?_ hkeys.2
    rw [← hproto]
    exact List.mem_map_of_mem (Members.mem_of_get? h)
  by_cases hover : Overwritten budget ms key
  · obtain ⟨k, s, rfl, hget, hlong, hprecedes⟩ := hover
    rw [get?_boundMembers_recorded hnodup hget hlong (.inr hprecedes)] at h
    exact .inr ⟨_, (Option.some.inj h).symm⟩
  cases hget : ms.get? key with
  | none =>
    obtain hsame | ⟨n, hn⟩ := @get?_boundMembers_absent budget depth [] ms clipped key
      (Members.get?_eq_none_iff.1 hget)
    · rw [hsame] at h
      cases h
    · rw [hn] at h
      exact .inr ⟨n, (Option.some.inj h).symm⟩
  | some v =>
    rw [get?_boundMembers_kept hnodup hget hproto hover] at h
    exact .inl ⟨v, rfl, hproto, hover, (Option.some.inj h).symm⟩

theorem boundPayload_eq_num {n : JsNumber} (h : (boundPayload budget depth v).1 = .num n) :
    v = .num n := by
  cases v with
  | num m => exact h
  | arr items =>
    rw [boundPayload] at h
    split at h <;> cases h
  | obj ms =>
    rw [boundPayload] at h
    split at h <;> cases h
  | _ => cases h

/-- The length of a longer string is on record exactly where a source member of the same name, with
another value, does not stand after it. -/
theorem get?_boundMembers_length_iff (hnodup : ms.keys.Nodup) (h : ms.get? key = some (.str s))
    (hlong : budget < octets s) :
    Members.get? (boundMembers budget depth [] clipped ms).1 (lengthKey key) =
        some (.num (.ofNat (octets s))) ↔
      ∀ v, ms.get? (lengthKey key) = some v → v ≠ .num (.ofNat (octets s)) →
        Precedes ms (lengthKey key) key := by
  have hover : Overwritten budget ms (lengthKey key) → Precedes ms (lengthKey key) key := by
    rintro ⟨k, _, hk, -, -, hprecedes⟩
    rwa [lengthKey_injective hk] at hprecedes ⊢
  constructor
  · intro hrecorded v hv hne
    by_contra hafter
    rw [get?_boundMembers_kept hnodup hv (lengthKey_ne_proto key) (mt hover hafter),
      Option.some.injEq] at hrecorded
    exact hne (boundPayload_eq_num hrecorded)
  · intro hfree
    by_cases hprecedes : Precedes ms (lengthKey key) key
    · exact get?_boundMembers_recorded hnodup h hlong (.inr hprecedes)
    cases hget : ms.get? (lengthKey key) with
    | none => exact get?_boundMembers_recorded hnodup h hlong (.inl hget)
    | some v =>
      have hnum : v = .num (.ofNat (octets s)) := by
        by_contra hne
        exact hprecedes (hfree v hget hne)
      rw [get?_boundMembers_kept hnodup hget (lengthKey_ne_proto key) (mt hover hprecedes), hnum]
      rfl

end Loop

/-- The places of a value that are kept when its strings are cut to an allowance. -/
inductive Stays (budget : ℕ) : ℕ → Json → Json.Place → Json → Prop
  | here (depth : ℕ) (v : Json) : Stays budget depth v [] v
  | item {depth i : ℕ} {items : List Json} {v w : Json} {place : Json.Place}
      (hdepth : depth < maxPayloadDepth) (hv : items[i]? = some v)
      (h : Stays budget (depth + 1) v place w) :
      Stays budget depth (.arr items) (.item i :: place) w
  | member {depth : ℕ} {ms : Members} {key : Text} {v w : Json} {place : Json.Place}
      (hdepth : depth < maxPayloadDepth) (hv : ms.get? key = some v)
      (hproto : key ≠ Members.protoKey) (hkept : ¬Overwritten budget ms key)
      (h : Stays budget (depth + 1) v place w) :
      Stays budget depth (.obj ms) (.member key :: place) w

section Value

variable {budget depth : ℕ} {v w x : Json} {place : Json.Place}

theorem stays_append {rest : Json.Place} : Stays budget depth v (place ++ rest) w ↔
    ∃ u, Stays budget depth v place u ∧ Stays budget (depth + place.length) u rest w := by
  induction place generalizing v depth with
  | nil =>
    constructor
    · exact fun h ↦ ⟨v, .here depth v, h⟩
    · rintro ⟨u, hu, h⟩
      cases hu
      exact h
  | cons step place ih =>
    have hlength : depth + 1 + place.length = depth + (step :: place).length := by
      rw [List.length_cons]
      omega
    rw [List.cons_append, ← hlength]
    constructor
    · intro h
      cases h with
      | item hdepth hv h =>
        obtain ⟨u, hu, h⟩ := ih.1 h
        exact ⟨u, .item hdepth hv hu, h⟩
      | member hdepth hv hproto hkept h =>
        obtain ⟨u, hu, h⟩ := ih.1 h
        exact ⟨u, .member hdepth hv hproto hkept hu, h⟩
    · rintro ⟨u, hu, h⟩
      cases hu with
      | item hdepth hv hu => exact .item hdepth hv (ih.2 ⟨u, hu, h⟩)
      | member hdepth hv hproto hkept hu => exact .member hdepth hv hproto hkept (ih.2 ⟨u, hu, h⟩)

theorem Stays.at? (h : Stays budget depth v place w) : v.at? place = some w := by
  induction h with
  | here depth v => simp
  | item hdepth hv h ih => simp [Json.at?, hv, ih]
  | member hdepth hv hproto hkept h ih => simp [Json.at?, hv, ih]

/-- What stays is there after the cut, cut to the allowance itself. -/
theorem Stays.at?_bounded (hdistinct : v.Distinct) (h : Stays budget depth v place w) :
    (boundPayload budget depth v).1.at? place =
      some (boundPayload budget (depth + place.length) w).1 := by
  induction h with
  | here depth v => simp
  | @item depth i items v w place hdepth hv h ih =>
    have hlength : depth + 1 + place.length = depth + (Json.Step.item i :: place).length := by
      rw [List.length_cons]
      omega
    rw [boundPayload, if_neg (not_le.2 hdepth), boundItems_eq]
    simp only [Json.at?, List.getElem?_map, hv, Option.map_some, Option.bind_some]
    rw [ih (hdistinct.items v (List.mem_of_getElem? hv)), hlength]
  | @member depth ms key v w place hdepth hv hproto hkept h ih =>
    have hlength : depth + 1 + place.length = depth + (Json.Step.member key :: place).length := by
      rw [List.length_cons]
      omega
    rw [boundPayload, if_neg (not_le.2 hdepth)]
    simp only [Json.at?, get?_boundMembers_kept hdistinct.keys hv hproto hkept, Option.bind_some]
    rw [ih (hdistinct.members _ (Members.mem_of_get? hv)), hlength]

/-- After the cut there is nothing but what stays, and lengths. -/
theorem at?_boundPayload (hdistinct : v.Distinct)
    (h : (boundPayload budget depth v).1.at? place = some x) :
    (∃ w, Stays budget depth v place w ∧ x = (boundPayload budget (depth + place.length) w).1) ∨
      ∃ n, x = .num n := by
  induction place generalizing v depth with
  | nil =>
    refine .inl ⟨v, .here depth v, ?_⟩
    simpa using h.symm
  | cons step place ih =>
    have hlength : depth + 1 + place.length = depth + (step :: place).length := by
      rw [List.length_cons]
      omega
    cases v with
    | arr items =>
      rw [boundPayload] at h
      split at h
      · cases step <;> simp [Json.at?] at h
      · next hdepth =>
        rw [boundItems_eq] at h
        cases step with
        | member key => simp [Json.at?] at h
        | item i =>
          simp only [Json.at?, List.getElem?_map, Option.bind_eq_some_iff,
            Option.map_eq_some_iff] at h
          obtain ⟨_, ⟨v, hv, rfl⟩, hx⟩ := h
          obtain ⟨w, hw, rfl⟩ | hnum := ih (hdistinct.items v (List.mem_of_getElem? hv)) hx
          · exact .inl ⟨w, .item (not_le.1 hdepth) hv hw, by rw [hlength]⟩
          · exact .inr hnum
    | obj ms =>
      rw [boundPayload] at h
      split at h
      · cases step <;> simp [Json.at?, Members.get?] at h
      · next hdepth =>
        cases step with
        | item i => simp [Json.at?] at h
        | member key =>
          simp only [Json.at?, Option.bind_eq_some_iff] at h
          obtain ⟨y, hy, hx⟩ := h
          obtain ⟨v, hv, hproto, hkept, rfl⟩ | ⟨n, rfl⟩ :=
            get?_boundMembers_cases hdistinct.keys hy
          · obtain ⟨w, hw, rfl⟩ | hnum := ih (hdistinct.members _ (Members.mem_of_get? hv)) hx
            · exact .inl ⟨w, .member (not_le.1 hdepth) hv hproto hkept hw, by rw [hlength]⟩
            · exact .inr hnum
          · exact .inr ⟨n, Json.at?_num hx⟩
    | _ => cases step <;> simp [boundPayload, Json.at?] at h

end Value

end Servanda
