import Servanda.Bounds

namespace Servanda

open Unicode UnidentifiedEnvelope

theorem hexDigit_hex : ∀ n < 16, isHexUnit (BitVec.ofNat 16 (hexDigit n).toNat) = true ∧
    (hexDigit n).toNat < 0x10000 := by decide

theorem isHex64_hexText (h : Sha256Hex) : isHex64 (units (hexText h)) = true := by
  have hunits : ∀ ns : List ℕ, (∀ n ∈ ns, n < 16) → (units (ns.map hexDigit)).length = ns.length ∧
      (units (ns.map hexDigit)).all isHexUnit = true := by
    intro ns hns
    induction ns with
    | nil => exact ⟨rfl, rfl⟩
    | cons n ns ih =>
      obtain ⟨hhex, hsmall⟩ := hexDigit_hex n (hns n List.mem_cons_self)
      obtain ⟨hlength, hall⟩ := ih fun m hm ↦ hns m (List.mem_cons_of_mem _ hm)
      have hcons : units ((n :: ns).map hexDigit) =
          BitVec.ofNat 16 (hexDigit n).toNat :: units (ns.map hexDigit) := by
        simp [units, unitsOf, hsmall]
      rw [hcons]
      exact ⟨by simp [hlength], by simp [hhex, hall]⟩
  have htext : hexText h =
      ((List.range 64).map fun i ↦ h.toNat / 16 ^ (64 - 1 - i) % 16).map hexDigit := by
    simp [hexText]
  obtain ⟨hlength, hall⟩ := hunits ((List.range 64).map fun i ↦ h.toNat / 16 ^ (64 - 1 - i) % 16)
    (by
      intro n hn
      obtain ⟨i, -, rfl⟩ := List.mem_map.1 hn
      omega)
  rw [htext, isHex64, hlength, hall]
  simp

/-- A digest as the text that spells it. -/
def hexId (h : Sha256Hex) : Checked isHex64 := ⟨units (hexText h), isHex64_hexText h⟩

def envelopeIdTag : String := "servanda/0.1:envelope_id"

/-- What the schema reads, or the error it throws. -/
def zodParse {α : Type} (parse : Json → Option α) (v : Json) : Except EnvelopeError α :=
  match parse v with
  | some a => .ok a
  | none => .error .zodError

section

variable (crypto : Crypto)

def envelopeId (v : Json) : Except EnvelopeError (Checked isHex64) :=
  match canonicalBytes v with
  | some bytes => .ok (hexId (crypto.sha256Hex (Crypto.domainTag envelopeIdTag ++ bytes)))
  | none => .error .jcsDepthExceeded

def sealEnvelope (candidate : Json) : Except EnvelopeError Envelope := do
  let base ← zodParse UnidentifiedEnvelope.parse candidate
  let bounded ← zodParse UnidentifiedEnvelope.parse (bound base).toJson
  match ← boundsViolation bounded.toJson with
  | some reason => throw (.boundsExceeded reason)
  | none =>
    let id ← envelopeId crypto bounded.toJson
    zodParse Envelope.parse (Envelope.toJson ⟨id, bounded⟩)

def acceptEnvelope (candidate : Json) : Except EnvelopeError Envelope := do
  match ← boundsViolation candidate with
  | some reason => throw (.boundsExceeded reason)
  | none => zodParse Envelope.parse candidate

end

/-- Something of the first value is shorter in the second, or missing from it. -/
inductive Lost : Json → Json → Prop
  | shorter {s t : Text} (h : octets t < octets s) : Lost (.str s) (.str t)
  | fewer {items items' : List Json} (h : items'.length < items.length) :
      Lost (.arr items) (.arr items')
  | item {items items' : List Json} (i : ℕ) {v v' : Json} (hv : items[i]? = some v)
      (hv' : items'[i]? = some v') (h : Lost v v') : Lost (.arr items) (.arr items')
  | missing {members members' : Members} (key : Text) (h : key ∈ members.keys)
      (h' : key ∉ members'.keys) : Lost (.obj members) (.obj members')
  | member {members members' : Members} (key : Text) {v v' : Json}
      (hv : members.get? key = some v) (hv' : members'.get? key = some v') (h : Lost v v') :
      Lost (.obj members) (.obj members')

/-- A member of the parsed candidate comes out shorter, or a payload member or a ref is missing. -/
structure Whole (base e : UnidentifiedEnvelope) : Prop where
  source : octets base.source.val ≤ octets e.source.val
  kind : octets base.kind.val ≤ octets e.kind.val
  label : octets base.actor.label ≤ octets e.actor.label
  externalId : ∀ id ∈ base.actor.externalId, ∃ id' ∈ e.actor.externalId, octets id ≤ octets id'
  refs : base.refs.length ≤ e.refs.length
  refsValue : ∀ (i : ℕ) (r r' : EnvelopeRef), base.refs[i]? = some r → e.refs[i]? = some r' →
    octets r.value ≤ octets r'.value
  payload : ¬Lost (.obj base.payload) (.obj e.payload)

/-- What a sealed envelope is promised to be, to the node that receives it and to its sender. -/
structure Conforming (crypto : Crypto) (base : UnidentifiedEnvelope) (e : Envelope) : Prop where
  accepted : acceptEnvelope e.toJson = .ok e
  recomputes : envelopeId crypto e.content.toJson = .ok e.id
  reseals : ∃ e', sealEnvelope crypto e.content.toJson = .ok e' ∧ e'.id = e.id
  marked : e.content.clipped = true ∨ Whole base e.content

variable {crypto : Crypto} {candidate : Json} {base u : UnidentifiedEnvelope} {e : Envelope}

/-- The octets an `id` adds to a canonical form: its name, its text and a comma. -/
def idOctets : ℕ := 72

theorem octetsOf_hex64 (id : Checked isHex64) : octetsOf (serializeString id.val) = 66 := by
  obtain ⟨hlength, hall⟩ := Bool.and_eq_true_iff.1 id.property
  have hplain : ∀ v ∈ id.val, isPlain v := by
    intro v hv
    have hhex := List.all_eq_true.1 hall v hv
    simp only [isHexUnit, Bool.or_eq_true, Bool.and_eq_true, decide_eq_true_eq] at hhex
    have hquote : v.toNat ≠ 0x22 := by omega
    have hslash : v.toNat ≠ 0x5C := by omega
    refine ⟨by omega, by omega, ?_, ?_⟩
    · rintro rfl
      exact hquote rfl
    · rintro rfl
      exact hslash rfl
  rw [octetsOf_serializeString hplain, beq_iff_eq.1 hlength]

theorem octetsOf_id (id : Checked isHex64) :
    octetsOf (writeMember (text "id", serializeString id.val)) + 1 = idOctets := by
  have hkey : octetsOf (serializeString (text "id")) = 4 := by decide
  have hcolon : octetsOf [':'] = 1 := by decide
  rw [writeMember, octetsOf_append, octetsOf_cons, hkey, hcolon, octetsOf_hex64]
  rfl

theorem write_str (s : Text) : write 1 (.str s) = some (serializeString s) := by
  rw [write, if_neg (by decide)]

theorem canonicalBytes_identified {bytes : List UInt8} (h : canonicalBytes u.toJson = some bytes)
    (id : Checked isHex64) : ∃ bytes', canonicalBytes (Envelope.toJson ⟨id, u⟩) = some bytes' ∧
      bytes'.length = bytes.length + idOctets := by
  obtain ⟨bytes', hbytes', hlength⟩ := canonicalBytes_insert
    [(text "v", .str protocolVersion), (text "type", .str (text "envelope"))] (text "id")
    (List.cons_ne_nil _ _) (write_str id.val) h
  exact ⟨bytes', hbytes', by rw [hlength, add_assoc, octetsOf_id]⟩

theorem boundsViolation_eq_none_iff {v : Json} (hv : v.isObject = true) :
    boundsViolation v = .ok none ↔ memberViolation v = none ∧
      ∃ bytes, canonicalBytes v = some bytes ∧ bytes.length ≤ maxEnvelopeOctets := by
  cases v with
  | obj ms =>
    rw [boundsViolation]
    cases memberViolation (.obj ms) with
    | some reason => simp
    | none =>
      cases hbytes : canonicalBytes (.obj ms) with
      | none => simp
      | some bytes =>
        by_cases hover : maxEnvelopeOctets < bytes.length
        · simp [hover, not_le.2 hover]
        · simp [hover, not_lt.1 hover]
  | _ => cases hv

theorem protoKey_not_mem (u : UnidentifiedEnvelope) : Members.protoKey ∉ (bound u).payload.keys :=
  (bound_assigned u).keys.2

/-- A candidate is sealed as the bounded form of what the schema reads in it, where that form is
inside every bound. -/
theorem sealEnvelope_ok_iff : sealEnvelope crypto candidate = .ok e ↔
    ∃ base, UnidentifiedEnvelope.parse candidate = some base ∧
      boundsViolation (bound base).toJson = .ok none ∧
      envelopeId crypto (bound base).toJson = .ok e.id ∧ e.content = bound base := by
  cases hbase : UnidentifiedEnvelope.parse candidate with
  | none =>
    have hfail : sealEnvelope crypto candidate = .error .zodError := by
      simp [sealEnvelope, zodParse, hbase, bind, Except.bind]
    simp [hfail]
  | some base =>
    have hbounded : UnidentifiedEnvelope.parse (bound base).toJson = some (bound base) :=
      UnidentifiedEnvelope.parse_toJson (protoKey_not_mem base)
    cases hviolation : boundsViolation (bound base).toJson with
    | error err =>
      have hfail : sealEnvelope crypto candidate = .error err := by
        simp [sealEnvelope, zodParse, hbase, hbounded, hviolation, bind, Except.bind]
      simp [hfail, hviolation]
    | ok reason =>
      cases reason with
      | some reason =>
        have hfail : sealEnvelope crypto candidate = .error (.boundsExceeded reason) := by
          simp [sealEnvelope, zodParse, hbase, hbounded, hviolation, bind, Except.bind, throw,
            throwThe, MonadExceptOf.throw]
        simp [hfail, hviolation]
      | none =>
        cases hid : envelopeId crypto (bound base).toJson with
        | error err =>
          have hfail : sealEnvelope crypto candidate = .error err := by
            simp [sealEnvelope, zodParse, hbase, hbounded, hviolation, hid, bind, Except.bind]
          simp [hfail, hviolation, hid]
        | ok id =>
          have hsealed : sealEnvelope crypto candidate = .ok ⟨id, bound base⟩ := by
            have hparse : Envelope.parse (Envelope.toJson ⟨id, bound base⟩) =
                some ⟨id, bound base⟩ := Envelope.parse_toJson (protoKey_not_mem base)
            simp [sealEnvelope, zodParse, hbase, hbounded, hviolation, hid, hparse, bind, Except.bind]
          obtain ⟨id', content⟩ := e
          simp [hsealed, hviolation, hid, eq_comm]

/-- The canonical form leaves room for an `id`. -/
def RoomForId (u : UnidentifiedEnvelope) : Prop :=
  ∃ bytes, canonicalBytes u.toJson = some bytes ∧ bytes.length + idOctets ≤ maxEnvelopeOctets

/-- A form that passes is inside the bounds with its `id` where there is room for it, and over the
last one elsewhere. -/
theorem boundsViolation_identified (h : boundsViolation u.toJson = .ok none) (id : Checked isHex64) :
    RoomForId u ∧ boundsViolation (Envelope.toJson ⟨id, u⟩) = .ok none ∨
      ¬RoomForId u ∧ ∃ size, boundsViolation (Envelope.toJson ⟨id, u⟩) =
        .ok (some (.canonicalForm size)) := by
  obtain ⟨hmember, bytes, hbytes, hlength⟩ := (boundsViolation_eq_none_iff rfl).1 h
  obtain ⟨bytes', hbytes', hlength'⟩ := canonicalBytes_identified hbytes id
  have hmember' : memberViolation (Envelope.toJson ⟨id, u⟩) = none := by
    rw [← hmember]
    simp (disch := decide) only [memberViolation, Envelope.member_toJson]
  have hroom : RoomForId u ↔ bytes'.length ≤ maxEnvelopeOctets := by
    rw [hlength']
    constructor
    · intro h
      obtain ⟨octets, hoctets, hle⟩ := h
      rw [hbytes, Option.some.injEq] at hoctets
      rwa [hoctets]
    · exact fun hle ↦ ⟨bytes, hbytes, hle⟩
  have hmeasure : boundsViolation (Envelope.toJson ⟨id, u⟩) =
      .ok (if maxEnvelopeOctets < bytes'.length then some (.canonicalForm bytes'.length) else none) := by
    have hobject : Envelope.toJson ⟨id, u⟩ = .obj _ := rfl
    rw [hobject] at hmember' hbytes' ⊢
    simp only [boundsViolation, hmember', hbytes']
  rw [hroom, hmeasure]
  by_cases hover : maxEnvelopeOctets < bytes'.length
  · exact .inr ⟨not_le.2 hover, bytes'.length, by rw [if_pos hover]⟩
  · exact .inl ⟨not_lt.1 hover, by rw [if_neg hover]⟩

theorem acceptEnvelope_cases (h : boundsViolation u.toJson = .ok none)
    (hproto : Members.protoKey ∉ u.payload.keys) (id : Checked isHex64) :
    RoomForId u ∧ acceptEnvelope (Envelope.toJson ⟨id, u⟩) = .ok ⟨id, u⟩ ∨
      ¬RoomForId u ∧ ∃ size, acceptEnvelope (Envelope.toJson ⟨id, u⟩) =
        .error (.boundsExceeded (.canonicalForm size)) := by
  have hparse : Envelope.parse (Envelope.toJson ⟨id, u⟩) = some ⟨id, u⟩ :=
    Envelope.parse_toJson hproto
  obtain ⟨hroom, hmeasure⟩ | ⟨hroom, size, hmeasure⟩ := boundsViolation_identified h id
  · refine .inl ⟨hroom, ?_⟩
    simp [acceptEnvelope, hmeasure, bind, Except.bind, zodParse, hparse]
  · refine .inr ⟨hroom, size, ?_⟩
    simp [acceptEnvelope, hmeasure, bind, Except.bind, throw, throwThe, MonadExceptOf.throw]

/-- A reduced candidate is inside the bounds but for the members that are never cut, and the size of
its form. -/
theorem boundsViolation_bound_iff : boundsViolation (bound base).toJson = .ok none ↔
    base.Short ∧ (bound base).tooBig = false := by
  have hshort : (bound base).Short ↔ base.Short := by
    have hframed := bound_framed base
    constructor
    · intro ⟨hexternal, hsource, hkind⟩
      exact ⟨hframed.externalId ▸ hexternal, hframed.source ▸ hsource, hframed.kind ▸ hkind⟩
    · intro ⟨hexternal, hsource, hkind⟩
      exact ⟨hframed.externalId ▸ hexternal, hframed.source ▸ hsource, hframed.kind ▸ hkind⟩
  have hwithin := bound_within base
  obtain ⟨bytes, hbytes⟩ := canonicalBytes_of_within hwithin
  rw [boundsViolation_eq_none_iff rfl, memberViolation_eq_none_iff, hshort, tooBig, hbytes]
  simp [hwithin]

theorem acceptEnvelope_ok_iff (h : boundsViolation u.toJson = .ok none)
    (hproto : Members.protoKey ∉ u.payload.keys) (id : Checked isHex64) :
    acceptEnvelope (Envelope.toJson ⟨id, u⟩) = .ok ⟨id, u⟩ ↔ RoomForId u := by
  obtain ⟨hroom, haccept⟩ | ⟨hroom, size, hrefuse⟩ := acceptEnvelope_cases h hproto id
  · exact iff_of_true haccept hroom
  · refine iff_of_false (fun haccept ↦ ?_) hroom
    rw [hrefuse] at haccept
    cases haccept

/-- What is sealed is inside the bounds with its `id` exactly where the members that are never cut
are short, and the reduced form leaves room for an `id`. -/
theorem seal_bounded_iff (crypto : Crypto) (hproto : Members.protoKey ∉ base.payload.keys) :
    (∃ e, sealEnvelope crypto base.toJson = .ok e ∧ boundsViolation e.toJson = .ok none) ↔
      base.Short ∧ RoomForId (bound base) := by
  have hparse : UnidentifiedEnvelope.parse base.toJson = some base :=
    UnidentifiedEnvelope.parse_toJson hproto
  constructor
  · intro ⟨⟨id, content⟩, hseal, hbounded⟩
    obtain ⟨base', hbase', hviolation, -, hcontent⟩ := sealEnvelope_ok_iff.1 hseal
    obtain rfl : base' = base := Option.some.inj (hbase'.symm.trans hparse)
    obtain rfl : content = bound base' := hcontent
    refine ⟨(boundsViolation_bound_iff.1 hviolation).1, ?_⟩
    obtain ⟨hroom, -⟩ | ⟨-, size, hover⟩ := boundsViolation_identified hviolation id
    · exact hroom
    · rw [hover] at hbounded
      cases hbounded
  · intro ⟨hshort, hroom⟩
    have hroom' := hroom
    obtain ⟨bytes, hbytes, hlength⟩ := hroom'
    have hfits : (bound base).tooBig = false := by
      rw [tooBig, hbytes]
      simp only [Option.any_some, decide_eq_false_iff_not, not_lt]
      omega
    have hviolation := boundsViolation_bound_iff.2 ⟨hshort, hfits⟩
    have hid : envelopeId crypto (bound base).toJson =
        .ok (hexId (crypto.sha256Hex (Crypto.domainTag envelopeIdTag ++ bytes))) := by
      rw [envelopeId, hbytes]
    refine ⟨⟨_, bound base⟩, sealEnvelope_ok_iff.2 ⟨base, hparse, hviolation, hid, rfl⟩, ?_⟩
    obtain ⟨-, hbounded⟩ | ⟨hfull, -⟩ := boundsViolation_identified hviolation _
    · exact hbounded
    · exact absurd hroom hfull

/-- A form inside every bound is a fixed point of the reduction. -/
theorem bound_of_passes (hassigned : Json.Every Assigned (.obj u.payload))
    (h : boundsViolation u.toJson = .ok none) : bound u = u := by
  obtain ⟨hmember, bytes, hbytes, hlength⟩ := (boundsViolation_eq_none_iff rfl).1 h
  have hdistinct : (Json.obj u.payload).Distinct := hassigned.imp fun _ h ↦ h.1
  have hprotoless : (Json.obj u.payload).Protoless := hassigned.imp fun _ h ↦ h.2
  have hpayload : Json.membersWithoutProto u.payload = u.payload :=
    Json.obj.inj (Json.withoutProto_of_protoless hprotoless)
  have heach := boundEach_within hdistinct (memberViolation_eq_none_iff.1 hmember).1
  rw [hpayload] at heach
  have hfits : u.tooBig = false := by simp [tooBig, hbytes, not_lt.2 hlength]
  rw [bound_of_fits (by rw [heach]) (by rw [heach]; exact hfits), heach]

/-- A form inside every bound is sealed as it is. -/
theorem seal_of_passes (crypto : Crypto) (hassigned : Json.Every Assigned (.obj u.payload))
    (h : boundsViolation u.toJson = .ok none) :
    ∃ id, sealEnvelope crypto u.toJson = .ok ⟨id, u⟩ := by
  obtain ⟨-, bytes, hbytes, -⟩ := (boundsViolation_eq_none_iff rfl).1 h
  have hbound := bound_of_passes hassigned h
  refine ⟨hexId (crypto.sha256Hex (Crypto.domainTag envelopeIdTag ++ bytes)),
    sealEnvelope_ok_iff.2 ⟨u, UnidentifiedEnvelope.parse_toJson hassigned.keys.2, ?_, ?_, hbound.symm⟩⟩
  · rw [hbound, h]
  · rw [hbound, envelopeId, hbytes]

theorem reseals_of_sealed (hseal : sealEnvelope crypto candidate = .ok e) :
    sealEnvelope crypto e.content.toJson = .ok e := by
  obtain ⟨base, -, hviolation, hid, hcontent⟩ := sealEnvelope_ok_iff.1 hseal
  have hfixed := bound_of_passes (bound_assigned base) hviolation
  refine sealEnvelope_ok_iff.2 ⟨bound base, ?_, ?_, ?_, ?_⟩
  · rw [hcontent]
    exact UnidentifiedEnvelope.parse_toJson (protoKey_not_mem base)
  · rw [hfixed, hviolation]
  · rw [hfixed, hid]
  · rw [hfixed, hcontent]

theorem lost_irrefl (v : Json) : ¬Lost v v := by
  induction v using Json.induction with
  | null | bool b | num n => exact fun h ↦ nomatch h
  | str s =>
    intro h
    cases h with
    | shorter h => exact lt_irrefl _ h
  | arr items ih =>
    intro h
    cases h with
    | fewer h => exact lt_irrefl _ h
    | item i hv hv' h =>
      obtain rfl := Option.some.inj (hv.symm.trans hv')
      exact ih _ (List.mem_of_getElem? hv) h
  | obj members ih =>
    intro h
    cases h with
    | missing key h h' => exact h' h
    | member key hv hv' h =>
      obtain rfl := Option.some.inj (hv.symm.trans hv')
      exact ih _ (Members.mem_of_get? hv) h

theorem protoKey_not_mem_keys (members : Members) :
    Members.protoKey ∉ Members.keys (Json.membersWithoutProto members) := by
  induction members with
  | nil => exact List.not_mem_nil
  | cons m members ih =>
    obtain ⟨key, v⟩ := m
    rw [Json.membersWithoutProto]
    split
    · exact ih
    · next hkey =>
      simp only [Members.keys, List.map_cons, List.mem_cons, not_or]
      exact ⟨fun heq ↦ hkey heq.symm, ih⟩

theorem get?_membersWithoutProto {members : Members} {key : Text} {v : Json}
    (hkey : key ≠ Members.protoKey) (h : members.get? key = some v) :
    Members.get? (Json.membersWithoutProto members) key = some v.withoutProto := by
  induction members with
  | nil => cases h
  | cons m members ih =>
    obtain ⟨k, w⟩ := m
    rw [Members.get?_cons] at h
    rw [Json.membersWithoutProto]
    split at h
    · next heq =>
      subst heq
      rw [if_neg hkey, Members.get?_cons, if_pos rfl, Option.some.inj h]
    · next hne =>
      split
      · exact ih h
      · rw [Members.get?_cons, if_neg hne]
        exact ih h

theorem getElem?_itemsWithoutProto (items : List Json) (i : ℕ) :
    (Json.itemsWithoutProto items)[i]? = items[i]?.map Json.withoutProto := by
  induction items generalizing i with
  | nil => rfl
  | cons v items ih =>
    cases i with
    | zero => rfl
    | succ i => simpa [Json.itemsWithoutProto] using ih i

/-- A value that holds something under `__proto__` anywhere loses it. -/
theorem lost_withoutProto {v : Json} (hdistinct : v.Distinct) (h : ¬v.Protoless) :
    Lost v v.withoutProto := by
  induction v using Json.induction with
  | null => exact absurd .null h
  | bool b => exact absurd (.bool b) h
  | num n => exact absurd (.num n) h
  | str s => exact absurd (.str s) h
  | arr items ih =>
    obtain ⟨v, hv, hproto⟩ : ∃ v ∈ items, ¬v.Protoless := by
      by_contra hall
      exact h (.arr (by simpa using hall))
    obtain ⟨i, hi⟩ := List.getElem?_of_mem hv
    have hi' : (Json.itemsWithoutProto items)[i]? = some v.withoutProto := by
      rw [getElem?_itemsWithoutProto, hi, Option.map_some]
    exact .item i hi hi' (ih v hv (hdistinct.items v hv) hproto)
  | obj members ih =>
    by_cases hkeys : Members.protoKey ∈ Members.keys members
    · exact .missing _ hkeys (protoKey_not_mem_keys members)
    · obtain ⟨⟨key, v⟩, hm, hproto⟩ : ∃ m ∈ members, ¬m.2.Protoless := by
        by_contra hall
        exact h (.obj hkeys (by simpa using hall))
      have hget := Members.get?_of_mem hdistinct.keys hm
      have hne : key ≠ Members.protoKey := by
        rintro rfl
        exact hkeys (List.mem_map.2 ⟨_, hm, rfl⟩)
      exact .member key hget (get?_membersWithoutProto hne hget)
        (ih _ hm (hdistinct.members _ hm) hproto)

theorem whole_refl (u : UnidentifiedEnvelope) : Whole u u where
  source := le_rfl
  kind := le_rfl
  label := le_rfl
  externalId id hid := ⟨id, hid, le_rfl⟩
  refs := le_rfl
  refsValue i r r' hr hr' := by
    obtain rfl := Option.some.inj (hr.symm.trans hr')
    exact le_rfl
  payload := lost_irrefl _

/-- The reduction says what it took out, but for what stands under `__proto__`. -/
theorem marked_iff (hdistinct : (Json.obj base.payload).Distinct) :
    (bound base).clipped = true ∨ Whole base (bound base) ↔
      (Json.obj base.payload).Protoless ∨ base.Cut := by
  rw [bound_marked_iff hdistinct]
  by_cases hcut : base.Cut
  · simp [hcut]
  · simp only [hcut, false_or, or_false, bound_of_not_cut hdistinct hcut]
    constructor
    · intro hwhole
      by_contra hproto
      exact hwhole.payload (lost_withoutProto hdistinct hproto)
    · intro hproto
      have hpayload : Json.membersWithoutProto base.payload = base.payload :=
        Json.obj.inj (Json.withoutProto_of_protoless hproto)
      rw [hpayload]
      exact whole_refl base

/-- A sealed envelope is all it is promised to be exactly where its bounded form leaves room for the
`id`, and a payload that holds something under `__proto__` had something else cut. -/
theorem sealed_conforming_iff (hdistinct : candidate.Distinct)
    (hbase : UnidentifiedEnvelope.parse candidate = some base)
    (hseal : sealEnvelope crypto candidate = .ok e) : Conforming crypto base e ↔
      RoomForId (bound base) ∧ ((Json.obj base.payload).Protoless ∨ base.Cut) := by
  obtain ⟨base', hbase', hviolation, hid, hcontent⟩ := sealEnvelope_ok_iff.1 hseal
  obtain rfl : base' = base := Option.some.inj (hbase'.symm.trans hbase)
  obtain ⟨id, content⟩ := e
  obtain rfl : content = bound base' := hcontent
  have haccept := acceptEnvelope_ok_iff hviolation (protoKey_not_mem base') id
  have hmarked := marked_iff (UnidentifiedEnvelope.parse_distinct hdistinct hbase)
  constructor
  · intro h
    exact ⟨haccept.1 h.accepted, hmarked.1 h.marked⟩
  · intro ⟨hroom, hproto⟩
    exact ⟨haccept.2 hroom, hid, ⟨_, reseals_of_sealed hseal, rfl⟩, hmarked.2 hproto⟩

namespace Sample

/-- Primitives whose digests are not looked at. -/
def anyDigest : Crypto := ⟨fun _ ↦ 0, fun _ ↦ [], fun _ _ ↦ true, fun a _ ↦ a.sig⟩

theorem isRfc3339_morning : isRfc3339 (text "2026-03-01T09:00:00Z") = true := by decide

def observed (payload : Members) : UnidentifiedEnvelope where
  source := ⟨text "chat", by decide⟩
  kind := ⟨text "chat_message", by decide⟩
  occurredAt := ⟨text "2026-03-01T09:00:00Z", isRfc3339_morning⟩
  receivedAt := ⟨text "2026-03-01T09:00:00Z", isRfc3339_morning⟩
  actor := ⟨text "ada", none⟩
  payload := payload
  refs := []
  clipped := false
  persona := hexId 0

/-- A message of so many letters. -/
def letters (n : ℕ) : Text := List.replicate n 0x78

def chapters (lengths : List (Text × ℕ)) : Members := lengths.map fun c ↦ (c.1, .str (letters c.2))

theorem letters_plain (n : ℕ) : ∀ u ∈ letters n, isPlain u := by
  intro u hu
  rw [List.eq_of_mem_replicate hu]
  exact ⟨by decide, by decide, by decide, by decide⟩

theorem writeMembers_chapters (depth : ℕ) (lengths : List (Text × ℕ))
    (hdepth : depth ≤ maxCanonicalizationDepth) : writeMembers depth (chapters lengths) =
      some (lengths.map fun c ↦ (c.1, serializeString (letters c.2))) := by
  induction lengths with
  | nil => rfl
  | cons c lengths ih =>
    have hwrite : write depth (.str (letters c.2)) = some (serializeString (letters c.2)) := by
      rw [write, if_neg (not_lt.2 hdepth)]
    simp only [chapters] at ih
    simp [chapters, writeMembers, hwrite, ih]

/-- The members in front of the payload, and those after it. -/
def front : Members := [(text "v", .str protocolVersion), (text "type", .str (text "envelope"))] ++
  (observed []).described.take 5

def back : Members := (observed []).described.drop 6

/-- The canonical form of an observation with chapters has the octets of its other members, of the
names of the chapters and of their letters. -/
theorem canonicalBytes_observed (lengths : List (Text × ℕ)) :
    ∃ bytes, canonicalBytes (observed (chapters lengths)).toJson = some bytes ∧
      bytes.length = 274 + (lengths.length - 1) +
        (lengths.map fun c ↦ octetsOf (serializeString c.1) + (c.2 + 3)).sum := by
  obtain ⟨rest, hrest, hlength⟩ : ∃ rest, canonicalBytes (.obj (front ++ back)) = some rest ∧
      rest.length = 261 := by
    have hmeasured : (canonicalBytes (.obj (front ++ back))).map List.length = some 261 := by
      decide +kernel
    simpa using hmeasured
  have hpayload := writeMembers_chapters 2 lengths (by decide)
  have hwrite : write 1 (.obj (chapters lengths)) = some ('{' :: commas ((sortKeys (lengths.map
      fun c ↦ (c.1, serializeString (letters c.2)))).map writeMember) ++ ['}']) := by
    rw [write, if_neg (by decide), hpayload, Option.map_some]
  obtain ⟨bytes, hbytes, hsize⟩ := canonicalBytes_insert front (text "payload")
    (List.cons_ne_nil _ _) hwrite hrest
  refine ⟨bytes, hbytes, ?_⟩
  have hkey : octetsOf (serializeString (text "payload")) = 9 := by decide
  have hcolon : octetsOf [':'] = 1 := by decide
  have hchapter : ∀ c : Text × ℕ, octetsOf (writeMember (c.1, serializeString (letters c.2))) =
      octetsOf (serializeString c.1) + (c.2 + 3) := by
    intro c
    rw [writeMember, octetsOf_append, octetsOf_cons, hcolon,
      octetsOf_serializeString (letters_plain c.2), letters, List.length_replicate]
    dsimp only
    omega
  rw [hsize, hlength, writeMember, octetsOf_append, octetsOf_cons, hkey, hcolon, octetsOf_object]
  simp only [List.length_map, List.map_map, Function.comp_def, hchapter]
  omega

theorem scalars_letters (n : ℕ) : scalars (letters n) = List.replicate n 'x' := by
  induction n with
  | zero => rfl
  | succ n ih =>
    cases n with
    | zero => rfl
    | succ n =>
      have hcons : scalars (letters (n + 2)) = 'x' :: scalars (letters (n + 1)) := rfl
      rw [hcons, ih]
      rfl

theorem octetsOf_letters (n : ℕ) : octetsOf (List.replicate n 'x') = n := by
  have hletter : 'x'.utf8Size = 1 := rfl
  rw [octetsOf, encodeUtf8, List.length_flatMap]
  simp [hletter]

theorem octets_letters (n : ℕ) : octets (letters n) = n := by
  rw [octets, scalars_letters, octetsOf_letters]

/-- An observation with chapters of at most 8192 letters, under different names, passes as long as
its form does. -/
theorem observed_passes (lengths : List (Text × ℕ)) (hnames : Assigned (lengths.map Prod.fst))
    (hletters : ∀ c ∈ lengths, c.2 ≤ maxPayloadText) (hsize : 274 + (lengths.length - 1) +
      (lengths.map fun c ↦ octetsOf (serializeString c.1) + (c.2 + 3)).sum ≤ maxEnvelopeOctets) :
    Json.Every Assigned (.obj (chapters lengths)) ∧
      boundsViolation (observed (chapters lengths)).toJson = .ok none := by
  have hkeys : (chapters lengths).keys = lengths.map Prod.fst := by
    simp [chapters, Members.keys, Function.comp_def]
  have hmembers : ∀ m ∈ chapters lengths, ∃ n ≤ maxPayloadText, m.2 = .str (letters n) := by
    intro m hm
    obtain ⟨c, hc, rfl⟩ := List.mem_map.1 hm
    exact ⟨c.2, hletters c hc, rfl⟩
  constructor
  · refine .obj (hkeys ▸ hnames) fun m hm ↦ ?_
    obtain ⟨n, -, hstr⟩ := hmembers m hm
    rw [hstr]
    exact .str _
  · obtain ⟨bytes, hbytes, hlength⟩ := canonicalBytes_observed lengths
    have hlabel : octets (text "ada") ≤ maxLabel := by decide
    have hshort : (observed []).Short := ⟨by decide, by decide, by decide⟩
    refine (boundsViolation_eq_none_iff rfl).2 ⟨memberViolation_eq_none_iff.2 ⟨⟨hlabel, Nat.zero_le _,
      List.forall_mem_nil _, ?_⟩, ⟨hshort.externalId, hshort.source, hshort.kind⟩⟩, bytes, hbytes,
      hlength ▸ hsize⟩
    rw [payloadViolation, if_neg (by decide)]
    apply membersViolation_eq_none_iff.2
    intro m hm
    obtain ⟨n, hn, hstr⟩ := hmembers m hm
    rw [hstr, payloadViolation, if_neg (by decide), octets_letters, if_neg (not_lt.2 hn)]

/-- Seven chapters as long as a payload string may be, and a shorter one. -/
def eightChapters : List (Text × ℕ) :=
  [(text "a", 8192), (text "b", 8192), (text "c", 8192), (text "d", 8192), (text "e", 8192),
    (text "f", 8192), (text "g", 8192), (text "h", 7800)]

end Sample

theorem actor_distinct (a : EnvelopeActor) : a.toJson.Distinct := by
  obtain ⟨label, externalId⟩ := a
  cases externalId with
  | none => exact .obj (List.nodup_singleton _) (List.forall_mem_singleton.2 (.str _))
  | some id =>
    have hkeys : [text "label", text "external_id"].Nodup := by decide
    exact .obj hkeys (List.forall_mem_cons.2 ⟨.str _, List.forall_mem_singleton.2 (.str _)⟩)

theorem refs_distinct (refs : List EnvelopeRef) :
    (Json.arr (refs.map EnvelopeRef.toJson)).Distinct := by
  have hkeys : [text "kind", text "value"].Nodup := by decide
  refine .arr fun v hv ↦ ?_
  obtain ⟨r, -, rfl⟩ := List.mem_map.1 hv
  exact .obj hkeys (List.forall_mem_cons.2 ⟨.str _, List.forall_mem_singleton.2 (.str _)⟩)

theorem toJson_distinct (h : (Json.obj u.payload).Distinct) : u.toJson.Distinct := by
  have hkeys : Members.keys ((text "v", .str protocolVersion) ::
      (text "type", .str (text "envelope")) :: u.described) =
        [text "v", text "type", text "source", text "kind", text "occurred_at", text "received_at",
          text "actor", text "payload", text "refs"] ++
          (if u.clipped then [text "clipped"] else []) ++ [text "persona"] := by
    cases hclipped : u.clipped <;> simp [described, Members.keys, hclipped]
  refine .obj (hkeys ▸ ?_) (forall_members .str .bool (actor_distinct u.actor) h
    (refs_distinct u.refs))
  cases u.clipped <;> decide

theorem short_observation_conforms : ∃ e, sealEnvelope Sample.anyDigest
    (Sample.observed (Sample.chapters [(text "body", 40)])).toJson = .ok e ∧
    Conforming Sample.anyDigest (Sample.observed (Sample.chapters [(text "body", 40)])) e := by
  obtain ⟨hassigned, hpasses⟩ := Sample.observed_passes [(text "body", 40)]
    ⟨by decide, by decide⟩ (by decide) (by decide)
  obtain ⟨id, hseal⟩ := seal_of_passes Sample.anyDigest hassigned hpasses
  obtain ⟨bytes, hbytes, hlength⟩ := Sample.canonicalBytes_observed [(text "body", 40)]
  have hdistinct : (Sample.observed (Sample.chapters [(text "body", 40)])).toJson.Distinct :=
    toJson_distinct (hassigned.imp fun _ h ↦ h.1)
  refine ⟨_, hseal, (sealed_conforming_iff hdistinct
    (UnidentifiedEnvelope.parse_toJson hassigned.keys.2) hseal).2 ⟨?_, .inl ?_⟩⟩
  · rw [bound_of_passes hassigned hpasses]
    exact ⟨bytes, hbytes, by rw [hlength]; decide⟩
  · exact hassigned.imp fun _ h ↦ h.2

/-- Its form fits, and is sealed; with the `id` it does not fit any more. -/
theorem full_envelope_refused : ∃ e, sealEnvelope Sample.anyDigest
    (Sample.observed (Sample.chapters Sample.eightChapters)).toJson = .ok e ∧
    ¬∃ e', acceptEnvelope e.toJson = .ok e' := by
  obtain ⟨hassigned, hpasses⟩ := Sample.observed_passes Sample.eightChapters
    ⟨by decide, by decide⟩ (by decide) (by decide)
  obtain ⟨id, hseal⟩ := seal_of_passes Sample.anyDigest hassigned hpasses
  obtain ⟨bytes, hbytes, hlength⟩ := Sample.canonicalBytes_observed Sample.eightChapters
  refine ⟨_, hseal, ?_⟩
  have hfull : ¬RoomForId (Sample.observed (Sample.chapters Sample.eightChapters)) := by
    intro ⟨octets, hoctets, hroom⟩
    rw [hbytes, Option.some.injEq] at hoctets
    rw [← hoctets, hlength] at hroom
    revert hroom
    decide
  obtain ⟨hroom, -⟩ | ⟨-, size, hrefuse⟩ := acceptEnvelope_cases hpasses hassigned.keys.2 id
  · exact absurd hroom hfull
  · intro ⟨e', haccept⟩
    rw [hrefuse] at haccept
    cases haccept

end Servanda
