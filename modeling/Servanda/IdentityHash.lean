import Servanda.Envelope
import Servanda.Signing

/-!
The three identifiers: of a commitment, of an edge and of an envelope. Each is the digest of octets
that begin with a tag of its own.
-/

namespace Servanda

open Unicode JsonRpc

/-- Where the first octet of one value ends two lists' heads, it ends them at the same place. -/
theorem List.append_cons_inj_of_notMem {α : Type} {a : α} {l l' m m' : List α} (h : a ∉ l)
    (h' : a ∉ l') (heq : l ++ a :: m = l' ++ a :: m') : l = l' ∧ m = m' := by
  induction l generalizing l' with
  | nil =>
    cases l' with
    | nil => exact ⟨rfl, (List.cons.inj heq).2⟩
    | cons b l' => exact absurd (List.cons.inj heq).1 (List.ne_of_not_mem_cons h')
  | cons b l ih =>
    cases l' with
    | nil => exact absurd (List.cons.inj heq).1.symm (List.ne_of_not_mem_cons h)
    | cons b' l' =>
      obtain ⟨hb, heq⟩ := List.cons.inj heq
      obtain ⟨hl, hm⟩ := ih (List.not_mem_of_not_mem_cons h) (List.not_mem_of_not_mem_cons h') heq
      exact ⟨by rw [hb, hl], hm⟩

namespace IdentityHash

/-- The octets of a string: a lone surrogate is written as U+FFFD. -/
def utf8 (s : Text) : List UInt8 := encodeUtf8 (scalars s)

/-- Has a string no lone surrogate? -/
def isWellFormed (s : Text) : Bool := units (scalars s) == s

def domainTag (tag : Text) : List UInt8 := utf8 tag ++ [0x00]

structure CommitmentHashInput where
  intent : Text
  owner : Text
  owedTo : Option Text
  due : Option Text
  createdAt : Text
  deriving DecidableEq

def nullable : Option Text → Json
  | none => .null
  | some s => .str s

def commitmentHashPreimage (c : CommitmentHashInput) : Json :=
  .obj [(text "intent", .str c.intent), (text "owner", .str c.owner),
    (text "owed_to", nullable c.owedTo), (text "due", nullable c.due),
    (text "created_at", .str c.createdAt)]

def commitmentHashTag : Text := text "servanda/0.1:commitment_hash"

def edgeIdTag : Text := text "servanda/0.1:edge_id"

def envelopeIdTag : Text := text "servanda/0.1:envelope_id"

structure EdgeIdInput where
  commitmentHash : Text
  owner : Text
  owedTo : Text
  proposedAt : Text
  deriving DecidableEq

/-- The octets of an edge that are hashed, or `none` where the source throws. -/
def edgeIdPreimage (e : EdgeIdInput) : Option (List UInt8) :=
  if isHex64 e.commitmentHash && isHex64 e.owner && isHex64 e.owedTo then
    some (domainTag edgeIdTag ++ utf8 e.commitmentHash ++ utf8 e.owner ++ utf8 e.owedTo ++
      utf8 e.proposedAt)
  else none

variable {Digest : Type} (sha256Hex : List UInt8 → Digest)

def commitmentHash (c : CommitmentHashInput) : Option Digest :=
  (canonicalBytes (commitmentHashPreimage c)).map fun bytes ↦
    sha256Hex (domainTag commitmentHashTag ++ bytes)

def edgeId (e : EdgeIdInput) : Option Digest := (edgeIdPreimage e).map sha256Hex

/-- `none` where the canonical form throws. -/
def envelopeId (envelopeSansId : Value) : Option Digest :=
  (envelopeSansId.toJson?.bind canonicalBytes).map fun bytes ↦
    sha256Hex (domainTag envelopeIdTag ++ bytes)

def edgeIdBindsBody [DecidableEq Digest] (body : EdgeIdInput) (id : Digest) : Bool :=
  edgeId sha256Hex body == some id

/-- What an identifier is of. -/
inductive Subject
  | commitment (c : CommitmentHashInput)
  | edge (e : EdgeIdInput)
  | envelope (v : Value)

namespace Subject

def identifier : Subject → Option Digest
  | commitment c => commitmentHash sha256Hex c
  | edge e => edgeId sha256Hex e
  | envelope v => envelopeId sha256Hex v

/-- The octets whose digest an identifier is. -/
def preimage : Subject → Option (List UInt8)
  | commitment c =>
    (canonicalBytes (commitmentHashPreimage c)).map (domainTag commitmentHashTag ++ ·)
  | edge e => edgeIdPreimage e
  | envelope v => (v.toJson?.bind canonicalBytes).map (domainTag envelopeIdTag ++ ·)

/-- A timestamp without a lone surrogate in it, and an envelope that lists no name twice. -/
def WellFormed : Subject → Prop
  | commitment _ => True
  | edge e => isWellFormed e.proposedAt = true
  | envelope v => v.Distinct

/-- One subject, up to the order of an envelope's members. -/
def Same : Subject → Subject → Prop
  | commitment c, commitment c' => c = c'
  | edge e, edge e' => e = e'
  | envelope v, envelope v' => v.Same v'
  | _, _ => False

def tag : Subject → Text
  | commitment _ => commitmentHashTag
  | edge _ => edgeIdTag
  | envelope _ => envelopeIdTag

/-- What follows the tag. -/
def body : Subject → Option (List UInt8)
  | commitment c => canonicalBytes (commitmentHashPreimage c)
  | edge e =>
    if isHex64 e.commitmentHash && isHex64 e.owner && isHex64 e.owedTo then
      some (utf8 e.commitmentHash ++ utf8 e.owner ++ utf8 e.owedTo ++ utf8 e.proposedAt)
    else none
  | envelope v => v.toJson?.bind canonicalBytes

theorem identifier_eq (x : Subject) : x.identifier sha256Hex = x.preimage.map sha256Hex := by
  cases x with
  | commitment c => rw [identifier, commitmentHash, preimage, Option.map_map]; rfl
  | edge e => rfl
  | envelope v => rw [identifier, envelopeId, preimage, Option.map_map]; rfl

theorem preimage_eq (x : Subject) : x.preimage = x.body.map (domainTag x.tag ++ ·) := by
  cases x with
  | commitment c => rfl
  | edge e =>
    rw [preimage, edgeIdPreimage, body, tag]
    split
    · simp only [Option.map_some, List.append_assoc]
    · rfl
  | envelope v => rfl

end Subject

theorem isWellFormed_iff {s : Text} : isWellFormed s = true ↔ units (scalars s) = s := beq_iff_eq

theorem utf8_injective {s t : Text} (hs : isWellFormed s = true) (ht : isWellFormed t = true)
    (h : utf8 s = utf8 t) : s = t := by
  rw [← isWellFormed_iff.mp hs, ← isWellFormed_iff.mp ht]
  exact congrArg units (Signing.encodeUtf8_injective h)

theorem ascii_spec {s : Text} (h : ∀ u ∈ s, u.toNat < 0x80) :
    units (scalars s) = s ∧ (utf8 s).length = s.length := by
  have hone {u : CodeUnit} (hu : u.toNat < 0x80) : isHigh u = false ∧ isLow u = false ∧
      unitsOf (Char.ofNat u.toNat) = [u] ∧
      (String.utf8EncodeChar (Char.ofNat u.toNat)).length = 1 := by
    have hval : (Char.ofNat u.toNat).toNat = u.toNat := toNat_ofNat (by omega)
    refine ⟨?_, ?_, ?_, ?_⟩
    · simp only [isHigh, Bool.and_eq_false_iff, decide_eq_false_iff_not]
      omega
    · simp only [isLow, Bool.and_eq_false_iff, decide_eq_false_iff_not]
      omega
    · rw [unitsOf, hval, if_pos (by omega), BitVec.ofNat_toNat, BitVec.setWidth_eq]
    · rw [utf8EncodeChar_one (by omega)]
      rfl
  have hscalars : scalars s = s.map fun u ↦ Char.ofNat u.toNat := by
    fun_induction scalars s with
    | case1 => rfl
    | case2 u =>
      obtain ⟨hhigh, hlow, -⟩ := hone (h u List.mem_cons_self)
      simp [unitScalar, hhigh, hlow]
    | case3 u v rest hpair =>
      obtain ⟨hhigh, -⟩ := hone (h u List.mem_cons_self)
      simp [hhigh] at hpair
    | case4 u v rest _ ih =>
      obtain ⟨hhigh, hlow, -⟩ := hone (h u List.mem_cons_self)
      rw [List.map_cons, ← ih fun w hw ↦ h w (List.mem_cons_of_mem _ hw)]
      simp [unitScalar, hhigh, hlow]
  rw [utf8, hscalars]
  clear hscalars
  induction s with
  | nil => exact ⟨rfl, rfl⟩
  | cons u s ih =>
    obtain ⟨hunits, hlength⟩ := ih fun v hv ↦ h v (List.mem_cons_of_mem _ hv)
    obtain ⟨-, -, hunit, hoctet⟩ := hone (h u List.mem_cons_self)
    rw [units] at hunits ⊢
    rw [encodeUtf8] at hlength ⊢
    rw [List.map_cons, List.flatMap_cons, List.flatMap_cons, hunit, hunits, List.length_append,
      hoctet, hlength, List.length_cons]
    exact ⟨rfl, by omega⟩

theorem hex64_spec {s : Text} (h : isHex64 s = true) :
    isWellFormed s = true ∧ (utf8 s).length = 64 := by
  simp only [isHex64, Bool.and_eq_true, beq_iff_eq, List.all_eq_true] at h
  have hascii : ∀ u ∈ s, u.toNat < 0x80 := by
    intro u hu
    have hhex := h.2 u hu
    simp only [isHexUnit, Bool.or_eq_true, Bool.and_eq_true, decide_eq_true_eq] at hhex
    omega
  obtain ⟨hunits, hlength⟩ := ascii_spec hascii
  exact ⟨isWellFormed_iff.mpr hunits, hlength.trans h.1⟩

/-- The fields of an edge stand at fixed places, whatever they hold. -/
theorem edge_body_injective {e e' : EdgeIdInput} {bytes : List UInt8}
    (hwell : isWellFormed e.proposedAt = true) (hwell' : isWellFormed e'.proposedAt = true)
    (h : (Subject.edge e).body = some bytes) (h' : (Subject.edge e').body = some bytes) :
    e = e' := by
  simp only [Subject.body, Option.ite_none_right_eq_some, Bool.and_eq_true, Option.some.injEq]
    at h h'
  obtain ⟨⟨⟨hhash, howner⟩, howed⟩, rfl⟩ := h
  obtain ⟨⟨⟨hhash', howner'⟩, howed'⟩, heq⟩ := h'
  have hlength {s t : Text} (hs : isHex64 s = true) (ht : isHex64 t = true) :
      (utf8 s).length = (utf8 t).length := (hex64_spec hs).2.trans (hex64_spec ht).2.symm
  obtain ⟨hfront, hproposed⟩ := List.append_inj heq.symm (by
    simp only [List.length_append, hlength hhash hhash', hlength howner howner',
      hlength howed howed'])
  obtain ⟨hfront, howedEq⟩ := List.append_inj hfront (by
    simp only [List.length_append, hlength hhash hhash', hlength howner howner'])
  obtain ⟨hhashEq, hownerEq⟩ := List.append_inj hfront (hlength hhash hhash')
  obtain ⟨hash, owner, owedTo, proposedAt⟩ := e
  obtain ⟨hash', owner', owedTo', proposedAt'⟩ := e'
  rw [EdgeIdInput.mk.injEq]
  exact ⟨utf8_injective (hex64_spec hhash).1 (hex64_spec hhash').1 hhashEq,
    utf8_injective (hex64_spec howner).1 (hex64_spec howner').1 hownerEq,
    utf8_injective (hex64_spec howed).1 (hex64_spec howed').1 howedEq,
    utf8_injective hwell hwell' hproposed⟩

theorem distinct_preimage (c : CommitmentHashInput) : (commitmentHashPreimage c).Distinct := by
  have hnullable (s : Option Text) : (nullable s).Distinct := by
    cases s with
    | none => exact .null
    | some s => exact .str s
  refine .obj (by decide : [text "intent", text "owner", text "owed_to", text "due",
    text "created_at"].Nodup) ?_
  simp only [List.mem_cons, List.not_mem_nil, or_false]
  rintro m (rfl | rfl | rfl | rfl | rfl)
  · exact .str _
  · exact .str _
  · exact hnullable _
  · exact hnullable _
  · exact .str _

theorem str_of_same {s t : Text} (h : Json.Same (.str s) (.str t)) : s = t := by
  cases h
  rfl

theorem nullable_of_same {s t : Option Text} (h : (nullable s).Same (nullable t)) : s = t := by
  cases s <;> cases t <;> cases h <;> rfl

/-- Two objects with one list of names are equal member by member. -/
theorem members_of_same {ms ns : Members} (h : Json.Same (.obj ms) (.obj ns))
    (hkeys : ms.keys = ns.keys) : List.Forall₂ (fun m n ↦ m.2.Same n.2) ms ns := by
  cases h with
  | obj _ h =>
  have hlength : ms.length = ns.length := by simpa [Members.keys] using congrArg List.length hkeys
  refine List.forall₂_iff_get.mpr ⟨hlength, fun i hi hi' ↦ ?_⟩
  have hkey := List.getElem_of_eq hkeys (i := i) (by simpa [Members.keys] using hi)
  simp only [Members.keys, List.getElem_map] at hkey
  exact h _ (List.get_mem _ _) _ (List.get_mem _ _) hkey

theorem commitment_of_same {c c' : CommitmentHashInput}
    (h : (commitmentHashPreimage c).Same (commitmentHashPreimage c')) : c = c' := by
  have hmembers := members_of_same h rfl
  simp only [List.forall₂_cons, List.forall₂_nil_left_iff] at hmembers
  obtain ⟨hintent, howner, howedTo, hdue, hcreatedAt, -⟩ := hmembers
  obtain ⟨intent, owner, owedTo, due, createdAt⟩ := c
  obtain ⟨intent', owner', owedTo', due', createdAt'⟩ := c'
  rw [CommitmentHashInput.mk.injEq]
  exact ⟨str_of_same hintent, str_of_same howner, nullable_of_same howedTo, nullable_of_same hdue,
    str_of_same hcreatedAt⟩

theorem same_of_canonicalBytes {u v : Json} (hu : u.Distinct) (hv : v.Distinct)
    {bytes : List UInt8} (h : canonicalBytes u = some bytes) (h' : canonicalBytes v = some bytes) :
    u.Same v := by
  obtain ⟨cs, hcs, rfl⟩ := Option.map_eq_some_iff.mp h
  obtain ⟨ds, hds, heq⟩ := Option.map_eq_some_iff.mp h'
  obtain rfl := Signing.encodeUtf8_injective heq
  exact Jcs.same_of_canonicalize hu hv hcs hds

theorem tags_spec : ∀ tag ∈ [commitmentHashTag, edgeIdTag, envelopeIdTag],
    0x00 ∉ utf8 tag ∧ isWellFormed tag = true := by decide

/-- A tag ends at its zero octet, so it and what follows it are read off a preimage. -/
theorem tag_and_body {x y : Subject} {bytes : List UInt8} (hx : x.preimage = some bytes)
    (hy : y.preimage = some bytes) : x.tag = y.tag ∧ ∃ b, x.body = some b ∧ y.body = some b := by
  rw [Subject.preimage_eq] at hx hy
  obtain ⟨b, hb, rfl⟩ := Option.map_eq_some_iff.mp hx
  obtain ⟨b', hb', heq⟩ := Option.map_eq_some_iff.mp hy
  have hzero (z : Subject) : 0x00 ∉ utf8 z.tag ∧ isWellFormed z.tag = true :=
    tags_spec _ (by cases z <;> simp [Subject.tag])
  simp only [domainTag, List.append_assoc, List.singleton_append] at heq
  obtain ⟨htag, rfl⟩ := List.append_cons_inj_of_notMem (hzero y).1 (hzero x).1 heq
  exact ⟨(utf8_injective (hzero y).2 (hzero x).2 htag).symm, b', hb, hb'⟩

/-- A preimage is that of one subject. -/
theorem same_of_preimage {x y : Subject} (hx : x.WellFormed) (hy : y.WellFormed)
    {bytes : List UInt8} (hbytes : x.preimage = some bytes) (hbytes' : y.preimage = some bytes) :
    x.Same y := by
  obtain ⟨htag, b, hb, hb'⟩ := tag_and_body hbytes hbytes'
  have hcommitment : commitmentHashTag ≠ edgeIdTag := by decide
  have hedge : edgeIdTag ≠ envelopeIdTag := by decide
  have henvelope : envelopeIdTag ≠ commitmentHashTag := by decide
  cases x with
  | commitment c =>
    cases y with
    | commitment c' =>
      exact commitment_of_same
        (same_of_canonicalBytes (distinct_preimage c) (distinct_preimage c') hb hb')
    | edge e => exact absurd htag hcommitment
    | envelope v => exact absurd htag.symm henvelope
  | edge e =>
    cases y with
    | commitment c => exact absurd htag.symm hcommitment
    | edge e' => exact edge_body_injective hx hy hb hb'
    | envelope v => exact absurd htag hedge
  | envelope v =>
    cases y with
    | commitment c => exact absurd htag henvelope
    | edge e => exact absurd htag.symm hedge
    | envelope v' =>
      obtain ⟨j, hj, hj'⟩ := Option.bind_eq_some_iff.mp hb
      obtain ⟨k, hk, hk'⟩ := Option.bind_eq_some_iff.mp hb'
      obtain rfl := Value.toJson?_eq_some_iff.mp hj
      obtain rfl := Value.toJson?_eq_some_iff.mp hk
      exact Value.same_ofJson_iff.mpr (same_of_canonicalBytes (Value.distinct_of_ofJson hx)
        (Value.distinct_of_ofJson hy) hj' hk')

/-- The digest tells the preimages of two subjects apart. -/
def Subject.Apart (x y : Subject) : Prop :=
  ∀ a b, x.preimage = some a → y.preimage = some b → sha256Hex a = sha256Hex b → a = b

/-- Identifiers do not collide, across objects or kinds: two subjects with one identifier are one,
and so are the bodies of two edges under one `edge_id`. -/
theorem identifiers_apart [DecidableEq Digest] {x y : Subject} (hx : x.WellFormed)
    (hy : y.WellFormed) (hapart : x.Apart sha256Hex y) :
    (∀ id, x.identifier sha256Hex = some id → y.identifier sha256Hex = some id → x.Same y) ∧
    ∀ e e' id, x = .edge e → y = .edge e' → edgeIdBindsBody sha256Hex e id = true →
      edgeIdBindsBody sha256Hex e' id = true → e = e' := by
  have hsame : ∀ id, x.identifier sha256Hex = some id → y.identifier sha256Hex = some id →
      x.Same y := by
    intro id hid hid'
    rw [Subject.identifier_eq] at hid hid'
    obtain ⟨a, ha, rfl⟩ := Option.map_eq_some_iff.mp hid
    obtain ⟨b, hb, hdigest⟩ := Option.map_eq_some_iff.mp hid'
    obtain rfl := hapart a b ha hb hdigest.symm
    exact same_of_preimage hx hy ha hb
  refine ⟨hsame, ?_⟩
  rintro e e' id rfl rfl hbinds hbinds'
  exact hsame id (beq_iff_eq.mp hbinds) (beq_iff_eq.mp hbinds')

theorem identifiers_apart_across : ¬∃ id,
    commitmentHash (fun bytes : List UInt8 ↦ bytes) ⟨text "pay", [], none, none, []⟩ = some id ∧
      envelopeId (fun bytes : List UInt8 ↦ bytes) .null = some id := fun ⟨id, hid, hid'⟩ ↦
  (identifiers_apart (fun bytes : List UInt8 ↦ bytes)
    (x := .commitment ⟨text "pay", [], none, none, []⟩) (y := .envelope .null) trivial .null
    fun _ _ _ _ h ↦ h).1 id hid hid'

/-- An edge of zeros, proposed at a text. -/
def zeros (proposedAt : Text) : EdgeIdInput where
  commitmentHash := List.replicate 64 0x30
  owner := List.replicate 64 0x30
  owedTo := List.replicate 64 0x30
  proposedAt := proposedAt

/-- A lone surrogate and U+FFFD are written as the same octets, whatever the digest. -/
theorem lone_surrogate_collides :
    ∃ id, edgeId (fun bytes : List UInt8 ↦ bytes) (zeros [0xD800]) = some id ∧
      edgeId (fun bytes : List UInt8 ↦ bytes) (zeros [0xFFFD]) = some id ∧
      zeros [0xD800] ≠ zeros [0xFFFD] := by
  have hzeros : isHex64 (List.replicate 64 0x30) = true := by decide
  have hpreimage (proposedAt : Text) : edgeIdPreimage (zeros proposedAt) =
      some (domainTag edgeIdTag ++ utf8 (List.replicate 64 0x30) ++ utf8 (List.replicate 64 0x30) ++
        utf8 (List.replicate 64 0x30) ++ utf8 proposedAt) := by
    rw [edgeIdPreimage, zeros, hzeros]
    rfl
  have hutf8 : utf8 [0xD800] = utf8 [0xFFFD] := by decide
  refine ⟨_, by rw [edgeId, hpreimage, Option.map_some], ?_, ?_⟩
  · rw [edgeId, hpreimage, Option.map_some, hutf8]
  · rw [zeros, zeros, ne_eq, EdgeIdInput.mk.injEq]
    exact fun h ↦ absurd h.2.2.2 (by decide)

end IdentityHash

end Servanda
