import Mathlib.Data.Option.Basic
import Servanda.Jcs

/-!
What a signature is made over: an object without its signatures, in canonical form.
-/

namespace Servanda

open Unicode JsonRpc

namespace JsonRpc.Value

/-- No object lists a name twice. -/
inductive Distinct : Value → Prop
  | null : Distinct .null
  | bool (b : Bool) : Distinct (.bool b)
  | num (n : JsNumber) : Distinct (.num n)
  | infinity (negative : Bool) : Distinct (.infinity negative)
  | str (s : Text) : Distinct (.str s)
  | arr {items : List Value} (h : ∀ v ∈ items, Distinct v) : Distinct (.arr items)
  | obj {members : List (Text × Value)} (hkeys : (members.map Prod.fst).Nodup)
      (h : ∀ m ∈ members, Distinct m.2) : Distinct (.obj members)

/-- Equal up to the order of members. -/
inductive Same : Value → Value → Prop
  | null : Same .null .null
  | bool (b : Bool) : Same (.bool b) (.bool b)
  | num (n : JsNumber) : Same (.num n) (.num n)
  | infinity (negative : Bool) : Same (.infinity negative) (.infinity negative)
  | str (s : Text) : Same (.str s) (.str s)
  | arr {vs ws : List Value} (hlength : vs.length = ws.length)
      (h : ∀ p ∈ vs.zip ws, Same p.1 p.2) : Same (.arr vs) (.arr ws)
  | obj {ms ns : List (Text × Value)}
      (hkeys : ∀ key, key ∈ ms.map Prod.fst ↔ key ∈ ns.map Prod.fst)
      (h : ∀ m ∈ ms, ∀ n ∈ ns, m.1 = n.1 → Same m.2 n.2) : Same (.obj ms) (.obj ns)

mutual

/-- `none` where a number in the value is not finite. -/
def toJson? : Value → Option Json
  | .null => some .null
  | .bool b => some (.bool b)
  | .num n => some (.num n)
  | .infinity _ => none
  | .str s => some (.str s)
  | .arr items => (toItems? items).map .arr
  | .obj members => (toMembers? members).map .obj

def toItems? : List Value → Option (List Json)
  | [] => some []
  | v :: items => (toJson? v).bind fun w ↦ (toItems? items).map (w :: ·)

def toMembers? : List (Text × Value) → Option (List (Text × Json))
  | [] => some []
  | (key, v) :: members => (toJson? v).bind fun w ↦ (toMembers? members).map ((key, w) :: ·)

end

theorem toItems?_map {f : Json → Value} (items : List Json) (h : ∀ v ∈ items, toJson? (f v) = some v) :
    toItems? (items.map f) = some items := by
  induction items with
  | nil => rfl
  | cons v items ih =>
    rw [List.map_cons, toItems?, h v List.mem_cons_self,
      ih fun w hw ↦ h w (List.mem_cons_of_mem _ hw)]
    rfl

theorem toMembers?_map {f : Json → Value} (members : Members)
    (h : ∀ m ∈ members, toJson? (f m.2) = some m.2) :
    toMembers? (members.map fun m ↦ (m.1, f m.2)) = some members := by
  induction members with
  | nil => rfl
  | cons m members ih =>
    rw [List.map_cons, toMembers?, h m List.mem_cons_self,
      ih fun n hn ↦ h n (List.mem_cons_of_mem _ hn)]
    rfl

theorem toJson?_ofJson (v : Json) : toJson? (ofJson v) = some v := by
  induction v using Json.induction with
  | null | bool b | num n | str s => rfl
  | arr items ih =>
    rw [ofJson, JsonParse.ofItems_eq, toJson?, toItems?_map items ih, Option.map_some]
  | obj members ih =>
    rw [ofJson, JsonParse.ofMembers_eq, toJson?, toMembers?_map members ih, Option.map_some]

theorem ofItems_of_toItems? {items : List Value} {js : List Json}
    (ih : ∀ v ∈ items, ∀ j, toJson? v = some j → v = ofJson j) (h : toItems? items = some js) :
    items = js.map ofJson := by
  induction items generalizing js with
  | nil => exact (Option.some.inj h).symm ▸ rfl
  | cons v items ihs =>
    rw [toItems?] at h
    obtain ⟨j, hj, h⟩ := Option.bind_eq_some_iff.mp h
    obtain ⟨js, hjs, rfl⟩ := Option.map_eq_some_iff.mp h
    rw [List.map_cons, ← ih v List.mem_cons_self j hj,
      ← ihs (fun w hw ↦ ih w (List.mem_cons_of_mem _ hw)) hjs]

theorem ofMembers_of_toMembers? {members : List (Text × Value)} {js : Members}
    (ih : ∀ m ∈ members, ∀ j, toJson? m.2 = some j → m.2 = ofJson j)
    (h : toMembers? members = some js) : members = js.map fun m ↦ (m.1, ofJson m.2) := by
  induction members generalizing js with
  | nil => exact (Option.some.inj h).symm ▸ rfl
  | cons m members ihs =>
    obtain ⟨key, v⟩ := m
    rw [toMembers?] at h
    obtain ⟨j, hj, h⟩ := Option.bind_eq_some_iff.mp h
    obtain ⟨js, hjs, rfl⟩ := Option.map_eq_some_iff.mp h
    have hv : v = ofJson j := ih (key, v) List.mem_cons_self j hj
    rw [List.map_cons, hv, ← ihs (fun n hn ↦ ih n (List.mem_cons_of_mem _ hn)) hjs]

theorem toJson?_eq_some_iff {v : Value} {j : Json} : toJson? v = some j ↔ v = ofJson j := by
  refine ⟨fun h ↦ ?_, fun h ↦ h ▸ toJson?_ofJson j⟩
  induction v using Value.induction generalizing j with
  | null | bool b | num n | str s => exact (Option.some.inj h).symm ▸ rfl
  | infinity negative => cases h
  | arr items ih =>
    obtain ⟨js, hjs, rfl⟩ := Option.map_eq_some_iff.mp h
    rw [ofJson, JsonParse.ofItems_eq, ofItems_of_toItems? (fun v hv j ↦ ih v hv) hjs]
  | obj members ih =>
    obtain ⟨js, hjs, rfl⟩ := Option.map_eq_some_iff.mp h
    rw [ofJson, JsonParse.ofMembers_eq, ofMembers_of_toMembers? (fun m hm j ↦ ih m hm) hjs]

theorem distinct_of_ofJson {v : Json} (h : (ofJson v).Distinct) : v.Distinct := by
  induction v using Json.induction with
  | null => exact .null
  | bool b => exact .bool b
  | num n => exact .num n
  | str s => exact .str s
  | arr items ih =>
    rw [ofJson, JsonParse.ofItems_eq] at h
    cases h with
    | arr h => exact .arr fun v hv ↦ ih v hv (h _ (List.mem_map_of_mem hv))
  | obj members ih =>
    rw [ofJson, JsonParse.ofMembers_eq] at h
    cases h with
    | obj hkeys h =>
      rw [List.map_map] at hkeys
      exact .obj hkeys fun m hm ↦ ih m hm (h _ (List.mem_map_of_mem hm))

theorem same_ofJson_iff {u v : Json} : (ofJson u).Same (ofJson v) ↔ u.Same v := by
  have hkeys (ms : Members) :
      (ms.map fun m ↦ (m.1, ofJson m.2)).map Prod.fst = Members.keys ms := by
    rw [List.map_map]
    rfl
  constructor
  · intro h
    induction u using Json.induction generalizing v with
    | null | bool b | num n | str s =>
      cases v <;> simp only [ofJson] at h <;> cases h
      constructor
    | arr vs ih =>
      cases v with
      | null | bool b | num n | str s | obj ms =>
        simp only [ofJson] at h
        cases h
      | arr ws =>
        rw [ofJson, ofJson, JsonParse.ofItems_eq, JsonParse.ofItems_eq] at h
        cases h with
        | arr hlength h =>
        refine .arr (by simpa using hlength) fun p hp ↦ ?_
        have hmem : (ofJson p.1, ofJson p.2) ∈ (vs.map ofJson).zip (ws.map ofJson) := by
          rw [List.zip_map]
          exact List.mem_map.mpr ⟨p, hp, rfl⟩
        exact ih _ (List.of_mem_zip hp).1 (h _ hmem)
    | obj ms ih =>
      cases v with
      | null | bool b | num n | str s | arr items =>
        simp only [ofJson] at h
        cases h
      | obj ns =>
        rw [ofJson, ofJson, JsonParse.ofMembers_eq, JsonParse.ofMembers_eq] at h
        cases h with
        | obj hnames h =>
        rw [hkeys, hkeys] at hnames
        exact .obj hnames fun m hm n hn hkey ↦ ih m hm
          (h _ (List.mem_map_of_mem hm) _ (List.mem_map_of_mem hn) hkey)
  · intro h
    induction h with
    | null => exact .null
    | bool b => exact .bool b
    | num n => exact .num n
    | str s => exact .str s
    | arr hlength h ih =>
      rw [ofJson, ofJson, JsonParse.ofItems_eq, JsonParse.ofItems_eq]
      refine .arr (by simpa using hlength) fun p hp ↦ ?_
      rw [List.zip_map] at hp
      obtain ⟨q, hq, rfl⟩ := List.mem_map.mp hp
      exact ih q hq
    | obj hnames h ih =>
      rw [ofJson, ofJson, JsonParse.ofMembers_eq, JsonParse.ofMembers_eq]
      refine .obj (by rw [hkeys, hkeys]; exact hnames) ?_
      rintro m' hm' n' hn' hkey
      obtain ⟨m, hm, rfl⟩ := List.mem_map.mp hm'
      obtain ⟨n, hn, rfl⟩ := List.mem_map.mp hn'
      exact ih m hm n hn hkey

end JsonRpc.Value

namespace Signing

/-- A member name whose member the signing preimage leaves out. -/
def stripped (key : Text) : Bool := key = text "sig" || (text "sig_").isPrefixOf key

/-- `out[key] = value` on an ordinary object. -/
def assign (out : List (Text × Value)) (m : Text × Value) : List (Text × Value) :=
  if m.1 = Members.protoKey then out else JsonParse.define out m

/-- The object as it enters the hash. -/
def unsigned (o : List (Text × Value)) : List (Text × Value) :=
  o.foldl (fun out m ↦ if stripped m.1 then out else assign out m) []

variable {Digest : Type} (sha256 : List UInt8 → Digest)

/-- `none` where the canonical form throws. -/
def signingPreimage (o : List (Text × Value)) : Option Digest :=
  ((Value.obj (unsigned o)).toJson?.bind canonicalBytes).map sha256

/-- `verify` is the signature scheme, on the texts of the signature and of the key. -/
def verifyObject (verify : Text → Digest → Text → Bool) (o : List (Text × Value))
    (publicKey : Text) : Bool :=
  match o.lookup (text "sig") with
  | some (.str sig) =>
    sig.length = 128 && (signingPreimage sha256 o).any fun digest ↦ verify sig digest publicKey
  | _ => false

/-- Two objects have equal members under a name, or both have none. -/
def Agree (o p : List (Text × Value)) (key : Text) : Prop :=
  Option.Rel Value.Same (o.lookup key) (p.lookup key)

/-- No two digests verify under one signature. -/
def Binds (verify : Text → Digest → Text → Bool) (sig publicKey : Text) : Prop :=
  ∀ x y, verify sig x publicKey = true → verify sig y publicKey = true → x = y

/-- A preimage is that of one object up to its signatures, and so is a signature. -/
structure Covers (o p : List (Text × Value)) : Prop where
  preimage : ∀ x, signingPreimage sha256 o = some x → signingPreimage sha256 p = some x →
    ∀ key, stripped key = false → Agree o p key
  verified : ∀ verify publicKey sig, o.lookup (text "sig") = some (.str sig) →
    p.lookup (text "sig") = some (.str sig) → Binds verify sig publicKey →
    verifyObject sha256 verify o publicKey = true → verifyObject sha256 verify p publicKey = true →
    ∀ key, stripped key = false → Agree o p key

/-- What is left of an object in its preimage. -/
def kept (o : List (Text × Value)) : List (Text × Value) :=
  o.filter fun m ↦ !stripped m.1 && m.1 ≠ Members.protoKey

/-- Has an object a canonical form, once its signatures are out? -/
def Signable (o : List (Text × Value)) : Prop :=
  ∃ j : Json, (Value.obj (kept o)).toJson? = some j ∧ j.height ≤ maxCanonicalizationDepth

theorem unsigned_eq {o : List (Text × Value)} (h : (o.map Prod.fst).Nodup) : unsigned o = kept o := by
  have hstep : (fun (out : List (Text × Value)) (m : Text × Value) ↦
      if stripped m.1 then out else assign out m) = fun out m ↦
        if (!stripped m.1 && decide (m.1 ≠ Members.protoKey)) = true then JsonParse.define out m
        else out := by
    funext out m
    unfold assign
    by_cases hstripped : stripped m.1 = true
    · simp [hstripped]
    · by_cases hproto : m.1 = Members.protoKey <;> simp [hstripped, hproto]
  rw [unsigned, hstep]
  exact JsonParse.foldl_define (fun key ↦ !stripped key && decide (key ≠ Members.protoKey)) h

section Lookup

variable {o p : List (Text × Value)} {key : Text} {v : Value}

theorem lookup_eq_some_iff (h : (o.map Prod.fst).Nodup) : o.lookup key = some v ↔ (key, v) ∈ o := by
  induction o with
  | nil => simp
  | cons m o ih =>
    obtain ⟨habsent, hnodup⟩ := List.nodup_cons.mp h
    by_cases hkey : key = m.1
    · subst hkey
      rw [List.lookup_cons_self, List.mem_cons, Option.some.injEq]
      constructor
      · rintro rfl
        exact .inl rfl
      · rintro (heq | hmem)
        · exact (congrArg Prod.snd heq).symm
        · exact absurd (List.mem_map.mpr ⟨_, hmem, rfl⟩) habsent
    · have hbeq : (key == m.1) = false := by simpa using hkey
      rw [List.lookup_cons, hbeq, List.mem_cons, ih hnodup]
      exact (or_iff_right fun heq ↦ hkey (congrArg Prod.fst heq)).symm

theorem lookup_eq_none_iff' : o.lookup key = none ↔ key ∉ o.map Prod.fst := by
  rw [List.lookup_eq_none_iff, List.mem_map]
  constructor
  · rintro h ⟨m, hm, rfl⟩
    simpa using h m hm
  · intro h m hm
    simpa using fun heq : key = m.1 ↦ h ⟨m, hm, heq.symm⟩

/-- Two objects are equal where they agree in every member. -/
theorem same_iff_agree (ho : (o.map Prod.fst).Nodup) (hp : (p.map Prod.fst).Nodup) :
    Value.Same (.obj o) (.obj p) ↔ ∀ key, Agree o p key := by
  constructor
  · intro h key
    cases h with
    | obj hkeys h =>
    unfold Agree
    cases hlookup : o.lookup key with
    | none =>
      have habsent := (hkeys key).not.mp (lookup_eq_none_iff'.mp hlookup)
      rw [lookup_eq_none_iff'.mpr habsent]
      exact .none
    | some v =>
      have hmem := (lookup_eq_some_iff ho).mp hlookup
      obtain ⟨n, hn, hkey⟩ := List.mem_map.mp ((hkeys key).mp (List.mem_map.mpr ⟨_, hmem, rfl⟩))
      rw [(lookup_eq_some_iff hp).mpr (show (key, n.2) ∈ p from hkey ▸ hn)]
      exact .some (h _ hmem n hn hkey.symm)
  · intro h
    refine .obj (fun key ↦ ?_) fun m hm n hn hkey ↦ ?_
    · have hagree := h key
      unfold Agree at hagree
      rw [← not_iff_not, ← lookup_eq_none_iff', ← lookup_eq_none_iff']
      generalize o.lookup key = v, p.lookup key = w at hagree ⊢
      cases hagree <;> simp
    · have hagree := h m.1
      unfold Agree at hagree
      rw [(lookup_eq_some_iff ho).mpr (show (m.1, m.2) ∈ o from hm),
        (lookup_eq_some_iff hp).mpr (show (m.1, n.2) ∈ p from hkey ▸ hn)] at hagree
      cases hagree with
      | some hsame => exact hsame

theorem lookup_kept : (kept o).lookup key =
    if stripped key = false ∧ key ≠ Members.protoKey then o.lookup key else none := by
  induction o with
  | nil => simp [kept]
  | cons m o ih =>
    obtain ⟨k, v⟩ := m
    unfold kept at ih ⊢
    by_cases hkey : key = k
    · subst hkey
      by_cases hkept : stripped key = false ∧ key ≠ Members.protoKey
      · rw [List.filter_cons_of_pos (by simpa using hkept), List.lookup_cons_self,
          List.lookup_cons_self, if_pos hkept]
      · rw [List.filter_cons_of_neg (by simpa using hkept), ih, if_neg hkept, if_neg hkept]
    · have hbeq : (key == k) = false := by simpa using hkey
      rw [List.lookup_cons, hbeq]
      rw [List.filter_cons]
      split
      · rw [List.lookup_cons, hbeq]
        exact ih
      · exact ih

theorem agree_kept : Agree (kept o) (kept p) key ↔
    (stripped key = false → key ≠ Members.protoKey → Agree o p key) := by
  unfold Agree
  rw [lookup_kept, lookup_kept]
  by_cases hkey : stripped key = false ∧ key ≠ Members.protoKey
  · rw [if_pos hkey, if_pos hkey]
    exact ⟨fun h _ _ ↦ h, fun h ↦ h hkey.1 hkey.2⟩
  · rw [if_neg hkey, if_neg hkey]
    exact ⟨fun _ hstripped hproto ↦ absurd ⟨hstripped, hproto⟩ hkey, fun _ ↦ .none⟩

end Lookup

section Coverage

variable {sha256} {o p : List (Text × Value)}

theorem distinct_kept (ho : (Value.obj o).Distinct) : (Value.obj (kept o)).Distinct := by
  cases ho with
  | obj hkeys h =>
    refine .obj (hkeys.sublist (List.filter_sublist.map _)) fun m hm ↦ h m (List.mem_of_mem_filter hm)

theorem keys_nodup (ho : (Value.obj o).Distinct) : (o.map Prod.fst).Nodup := by
  cases ho with
  | obj hkeys _ => exact hkeys

/-- A preimage is the digest of the canonical text of what is left. -/
theorem signingPreimage_eq_some_iff (ho : (Value.obj o).Distinct) {x : Digest} :
    signingPreimage sha256 o = some x ↔ ∃ j cs, Value.obj (kept o) = .ofJson j ∧
      canonicalize j = some cs ∧ sha256 (encodeUtf8 cs) = x := by
  simp only [signingPreimage, unsigned_eq (keys_nodup ho), Option.map_eq_some_iff,
    Option.bind_eq_some_iff, canonicalBytes, Value.toJson?_eq_some_iff]
  constructor
  · rintro ⟨-, ⟨j, hj, cs, hcs, rfl⟩, rfl⟩
    exact ⟨j, cs, hj, hcs, rfl⟩
  · rintro ⟨j, cs, hj, hcs, rfl⟩
    exact ⟨_, ⟨j, hj, cs, hcs, rfl⟩, rfl⟩

theorem signable_iff : Signable o ↔ ∃ j cs, Value.obj (kept o) = .ofJson j ∧
    canonicalize j = some cs := by
  unfold Signable
  refine exists_congr fun j ↦ ?_
  rw [Value.toJson?_eq_some_iff, exists_and_left, ← Option.isSome_iff_exists, canonicalize,
    write_isSome_iff, zero_add]

/-- Two texts of what is left of two objects are equal where the objects agree there. -/
theorem text_eq_iff (ho : (Value.obj o).Distinct) (hp : (Value.obj p).Distinct) {j k : Json}
    {cs ds : List Char} (hj : Value.obj (kept o) = .ofJson j) (hk : Value.obj (kept p) = .ofJson k)
    (hcs : canonicalize j = some cs) (hds : canonicalize k = some ds) :
    cs = ds ↔ ∀ key, stripped key = false → key ≠ Members.protoKey → Agree o p key := by
  have hdo := distinct_kept ho
  have hdp := distinct_kept hp
  have hsame : j.Same k ↔ ∀ key, stripped key = false → key ≠ Members.protoKey → Agree o p key := by
    rw [← Value.same_ofJson_iff, ← hj, ← hk, same_iff_agree (keys_nodup hdo) (keys_nodup hdp)]
    exact forall_congr' fun key ↦ agree_kept
  rw [hj] at hdo
  rw [hk] at hdp
  have hdj := Value.distinct_of_ofJson hdo
  have hdk := Value.distinct_of_ofJson hdp
  rw [← hsame]
  constructor
  · rintro rfl
    exact Jcs.same_of_canonicalize hdj hdk hcs hds
  · intro h
    have hdepth := (write_isSome_iff k 0).mp (Option.isSome_iff_exists.mpr ⟨ds, hds⟩)
    exact Option.some.inj
      ((Jcs.canonicalize_of_same hdj hdk h hcs (by omega)).symm.trans hds)

theorem encodeUtf8_injective : Function.Injective encodeUtf8 := fun cs ds h ↦ by
  rw [← Decoder.run_encodeUtf8 cs, h, Decoder.run_encodeUtf8]

theorem verifyObject_eq_true {verify : Text → Digest → Text → Bool} {publicKey sig : Text}
    (hsig : o.lookup (text "sig") = some (.str sig))
    (h : verifyObject sha256 verify o publicKey = true) :
    ∃ x, signingPreimage sha256 o = some x ∧ verify sig x publicKey = true := by
  rw [verifyObject, hsig] at h
  have hany := (Bool.and_eq_true_iff.mp h).2
  cases hx : signingPreimage sha256 o with
  | none => simp [hx] at hany
  | some x => exact ⟨x, rfl, by simpa [hx] using hany⟩

end Coverage

/-- A signed member, and beside it one that no signature covers. -/
def sneaked : List (Text × Value) :=
  [(text "type", .str (text "edge")), (Members.protoKey, .str (text "anything"))]

def unsneaked : List (Text × Value) := [(text "type", .str (text "edge"))]

end Signing

end Servanda
