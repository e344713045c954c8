import Servanda.IdentityHash
import Servanda.Rekey
import Servanda.Workspace

/-!
Where a sealed record opens: what authenticates it holds the place it was written at and the kind
it was written as, and a reader takes both from the file it finds.
-/

namespace Servanda.RecordBinding

open Unicode IdentityHash JsonRpc
open Workspace (slash)

/-- A segment of a path that has been resolved. -/
structure Segment where
  name : Text
  nonempty : name ≠ []
  whole : slash ∉ name
  noNul : 0 ∉ name
  resolved : name ≠ text "." ∧ name ≠ text ".."
  deriving DecidableEq

def names (path : List Segment) : List Text := path.map Segment.name

/-- `path.relative` of two resolved paths: up to where they part, and down again. -/
def relative : List Segment → List Segment → List Text
  | [], path => names path
  | dir, [] => dir.map fun _ ↦ text ".."
  | d :: dir, s :: path =>
    if d = s then relative dir path
    else ((d :: dir).map fun _ ↦ text "..") ++ names (s :: path)

def relativePath (vaultDir path : List Segment) : Text :=
  [slash].intercalate (([slash].intercalate (relative vaultDir path)).splitOn slash)

def bindingText (kind rel : Text) : Text :=
  text "servanda/0.2 vault-record" ++ 0 :: (kind ++ 0 :: rel)

def recordBinding (vaultDir path : List Segment) (kind : Text) : Except Text Bytes :=
  let rel := relativePath vaultDir path
  if (text "..").isPrefixOf rel then .error (text "refusing to seal outside the vault: " ++ rel)
  else .ok (utf8 (bindingText kind rel))

def hex (bytes : Bytes) : Text := units (toHex bytes).toList

def unhex (s : Text) : Option Bytes := fromHex (String.ofList (scalars s))

/-- The files below the vault's directory, each by what `JSON.parse` makes of it. -/
abbrev Files := List Segment → Option (Option Value)

structure SealedRecordError where
  record : Text
  message : Text
  deriving DecidableEq

def couldNotBeRead (rel : Text) : SealedRecordError :=
  ⟨rel, rel ++ text " could not be read from the vault"⟩

def notReadableAsJson (rel : Text) : SealedRecordError where
  record := rel
  message := rel ++ text " is not readable as JSON, so it was written only partly — a power loss, " ++
    text "a full disk or a killed process during a write does this. No other record is affected. " ++
    text "The last good copy is in this vault's git history; move this file out of the vault to " ++
    text "read the rest."

def notASealedRecord (rel : Text) : SealedRecordError :=
  ⟨rel, rel ++ text
    " is valid JSON but not a Servanda sealed record (no nonce and ciphertext)."⟩

def didNotOpen (rel : Text) : SealedRecordError where
  record := rel
  message := rel ++ text " did not open. A sealed record is bound to the exact place it lives, so " ++
    text "this is either: the file was moved, renamed or copied inside the vault (put it back at " ++
    rel ++ text "); or its bytes were altered on disk; or this vault's records were sealed under " ++
    text "a different content key than the one that just opened keyset.json. Every other record is " ++
    text "unaffected."

section Records

variable {Data : Type} [JsonText Data] (ciphers : Ciphers)

def sealRecord (contentKey nonce : Bytes) (kind : Text) (value : Data) (binding : Bytes) : Value :=
  .obj [(text "v", .str (text "servanda/0.2")), (text "type", .str (text "vault_record")),
    (text "kind", .str kind), (text "nonce", .str (hex nonce)),
    (text "ciphertext", .str (hex (ciphers.encrypt contentKey nonce binding
      (JsonText.stringify value))))]

def openRecord (Data : Type) [JsonText Data] (contentKey : Bytes) (nonce ciphertext : Text)
    (binding : Bytes) : Option Data := do
  let nonce ← unhex nonce
  let ciphertext ← unhex ciphertext
  let plaintext ← ciphers.decrypt contentKey nonce binding ciphertext
  JsonText.parse plaintext

def writeSealed (files : Files) (vaultDir path : List Segment) (contentKey nonce : Bytes)
    (kind : Text) (value : Data) : Except Text Files :=
  (recordBinding vaultDir path kind).map fun binding ↦
    Function.update files path (some (some
      (sealRecord ciphers contentKey nonce kind value binding)))

/-- `${field}`, of a member that may be missing. -/
def spelled : Option Value → Option Text
  | none => some (text "undefined")
  | some v => v.asString

def readSealed (Data : Type) [JsonText Data] (files : Files) (vaultDir path : List Segment)
    (contentKey : Bytes) : Except SealedRecordError Data :=
  let rel := relativePath vaultDir path
  match files path with
  | none => .error (couldNotBeRead rel)
  | some none => .error (notReadableAsJson rel)
  | some (some record) =>
    match record.member (text "ciphertext"), record.member (text "nonce") with
    | some (.str ciphertext), some (.str nonce) =>
      let opened := do
        let kind ← spelled (record.member (text "kind"))
        let binding ← (recordBinding vaultDir path kind).toOption
        openRecord ciphers Data contentKey nonce ciphertext binding
      match opened with
      | some value => .ok value
      | none => .error (didNotOpen rel)
    | _, _ => .error (notASealedRecord rel)

/-- A record whose `kind` has been edited, or taken out. -/
def relabel (field : Option Value) : Value → Value
  | .obj members => .obj (members.filterMap fun m ↦
      if m.1 = text "kind" then field.map (m.1, ·) else some m)
  | v => v

end Records

section Scalars

variable {u : CodeUnit} {s t : Text}

theorem unitScalar_of_ascii (h : u.toNat < 0x80) :
    isHigh u = false ∧ isLow u = false ∧ unitScalar u = Char.ofNat u.toNat := by
  have hhigh : isHigh u = false := by
    rw [isHigh, Bool.and_eq_false_iff]
    exact .inl (decide_eq_false (by omega))
  have hlow : isLow u = false := by
    rw [isLow, Bool.and_eq_false_iff]
    exact .inl (decide_eq_false (by omega))
  refine ⟨hhigh, hlow, ?_⟩
  rw [unitScalar, hhigh, hlow]
  rfl

/-- A unit that is no surrogate splits a text's scalars. -/
theorem scalars_append_cons (h : u.toNat < 0x80) :
    scalars (s ++ u :: t) = scalars s ++ Char.ofNat u.toNat :: scalars t := by
  obtain ⟨hhigh, hlow, hunit⟩ := unitScalar_of_ascii h
  have hcons : scalars (u :: t) = Char.ofNat u.toNat :: scalars t := by
    cases t with
    | nil => rw [scalars.eq_2, hunit, scalars.eq_1]
    | cons v t => simp [scalars, hhigh, hunit]
  induction s using scalars.induct with
  | case1 => exact hcons
  | case2 w =>
    rw [List.singleton_append, scalars.eq_3, hlow, Bool.and_false, if_neg Bool.false_ne_true, hcons]
    rfl
  | case3 w v rest hpair ih => simp only [List.cons_append, scalars, hpair, if_true, ih]
  | case4 w v rest hpair ih =>
    simp only [List.cons_append, scalars, hpair] at ih ⊢
    rw [ih]
    rfl

theorem eq_of_ofNat_eq {n m : ℕ} (hn : n.isValidChar) (hm : m < 0x80)
    (h : Char.ofNat n = Char.ofNat m) : n = m := by
  have hval := congrArg Char.toNat h
  rwa [toNat_ofNat (n := m) (by omega), Char.ofNat, dif_pos hn] at hval

theorem eq_of_unitScalar_eq {w : CodeUnit} (h : u.toNat < 0x80)
    (heq : unitScalar w = Char.ofNat u.toNat) : w = u := by
  unfold unitScalar at heq
  split_ifs at heq with hsurrogate
  · have hval := congrArg Char.toNat heq
    rw [toNat_ofNat (by omega)] at hval
    have hreplacement : replacement.toNat = 0xFFFD := rfl
    omega
  · have hw := w.isLt
    have hvalid : w.toNat.isValidChar := by
      simp only [isHigh, isLow, Bool.or_eq_true, Bool.and_eq_true, decide_eq_true_eq] at hsurrogate
      unfold Nat.isValidChar
      omega
    exact BitVec.eq_of_toNat_eq (eq_of_ofNat_eq hvalid h heq)

theorem pairScalar_ne_ascii {v w : CodeUnit} (h : u.toNat < 0x80)
    (hpair : (isHigh v && isLow w) = true) : pairScalar v w ≠ Char.ofNat u.toNat := by
  intro heq
  simp only [isHigh, isLow, Bool.and_eq_true, decide_eq_true_eq] at hpair
  have hvalid : (0x10000 + (v.toNat - 0xD800) * 0x400 + (w.toNat - 0xDC00)).isValidChar := by
    unfold Nat.isValidChar
    omega
  have hval := eq_of_ofNat_eq hvalid h heq
  omega

theorem scalars_eq_cons {r : List Char} (h : u.toNat < 0x80)
    (heq : scalars s = Char.ofNat u.toNat :: r) : ∃ t, s = u :: t ∧ scalars t = r := by
  cases s using scalars.fun_cases with
  | case1 => cases heq
  | case2 w =>
    obtain ⟨hw, hr⟩ := List.cons.inj heq
    exact ⟨[], by rw [eq_of_unitScalar_eq h hw], hr⟩
  | case3 v w rest hpair =>
    rw [scalars, if_pos hpair] at heq
    exact absurd (List.cons.inj heq).1 (pairScalar_ne_ascii h hpair)
  | case4 w v rest hpair =>
    rw [scalars, if_neg hpair] at heq
    obtain ⟨hw, hr⟩ := List.cons.inj heq
    exact ⟨v :: rest, by rw [eq_of_unitScalar_eq h hw], hr⟩

theorem mem_of_mem_scalars (h : u.toNat < 0x80) (hmem : Char.ofNat u.toNat ∈ scalars s) : u ∈ s := by
  induction s using scalars.induct with
  | case1 => cases hmem
  | case2 w =>
    rw [scalars.eq_2, List.mem_singleton] at hmem
    rw [eq_of_unitScalar_eq h hmem.symm, List.mem_singleton]
  | case3 v w rest hpair ih =>
    rw [scalars, if_pos hpair] at hmem
    have hrest := (List.mem_cons.mp hmem).resolve_left (pairScalar_ne_ascii h hpair).symm
    exact List.mem_cons_of_mem _ (List.mem_cons_of_mem _ (ih hrest))
  | case4 w v rest hpair ih =>
    rw [scalars, if_neg hpair] at hmem
    obtain hw | hrest := List.mem_cons.mp hmem
    · rw [eq_of_unitScalar_eq h hw.symm]
      exact List.mem_cons_self
    · exact List.mem_cons_of_mem _ (ih hrest)

end Scalars

section Places

variable {vaultDir path other : List Segment} {kind kind' : Text}

/-- A path inside the vault, as it is bound. -/
def place (path : List Segment) : Text := [slash].intercalate (names path)

theorem relativePath_append (vaultDir path : List Segment) :
    relativePath vaultDir (vaultDir ++ path) = place path := by
  have hrelative : relative vaultDir (vaultDir ++ path) = names path := by
    induction vaultDir with
    | nil => cases path <;> rfl
    | cons d dir ih => simp only [List.cons_append, relative, if_true, ih]
  rw [relativePath, List.intercalate_splitOn, hrelative, place]

theorem names_injective : Function.Injective names := by
  refine List.map_injective_iff.mpr fun s t h ↦ ?_
  cases s
  cases t
  cases h
  rfl

theorem place_eq_nil_iff : place path = [] ↔ path = [] := by
  refine ⟨fun h ↦ ?_, fun h ↦ h ▸ rfl⟩
  cases path with
  | nil => rfl
  | cons s path =>
    have hwhole : ∀ name ∈ names (s :: path), slash ∉ name :=
      List.forall_mem_map.mpr fun t _ ↦ t.whole
    have hsplit := List.splitOn_intercalate slash hwhole (List.cons_ne_nil _ _)
    rw [place] at h
    rw [h, List.splitOn_nil] at hsplit
    exact absurd (List.cons.inj hsplit).1.symm s.nonempty

theorem place_injective : Function.Injective place := by
  intro path other h
  have hwhole (path : List Segment) : ∀ name ∈ names path, slash ∉ name :=
    List.forall_mem_map.mpr fun t _ ↦ t.whole
  by_cases hnil : path = []
  · rw [hnil, place_eq_nil_iff.mpr rfl] at h
    rw [hnil, place_eq_nil_iff.mp h.symm]
  · have hother : other ≠ [] := fun hother ↦
      hnil (place_eq_nil_iff.mp (h.trans (place_eq_nil_iff.mpr hother)))
    have hsplit := congrArg (List.splitOn slash) h
    rw [place, place, List.splitOn_intercalate _ (hwhole _) (by simpa [names] using hnil),
      List.splitOn_intercalate _ (hwhole _) (by simpa [names] using hother)] at hsplit
    exact names_injective hsplit

theorem noNul_place : 0 ∉ place path := by
  have hslash : (0 : CodeUnit) ≠ slash := by decide
  unfold place
  induction path with
  | nil => exact List.not_mem_nil
  | cons s path ih =>
    cases path with
    | nil => simpa [names, List.intercalate] using s.noNul
    | cons t path =>
      have hjoin : [slash].intercalate (names (s :: t :: path)) =
          s.name ++ slash :: [slash].intercalate (names (t :: path)) := by
        simp [names, List.intercalate]
      rw [hjoin, List.mem_append, List.mem_cons, not_or, not_or]
      exact ⟨s.noNul, hslash, ih⟩

theorem utf8_eq_iff {s t : Text} : utf8 s = utf8 t ↔ scalars s = scalars t :=
  Signing.encodeUtf8_injective.eq_iff

/-- Two bindings are one where kind and place are one in UTF-8: no kind holds the octet that ends
the first of them. -/
theorem utf8_bindingText_iff (hkind : 0 ∉ kind) :
    utf8 (bindingText kind' (place other)) = utf8 (bindingText kind (place path)) ↔
      utf8 kind' = utf8 kind ∧ utf8 (place other) = utf8 (place path) := by
  have hzero : (0 : CodeUnit).toNat < 0x80 := by decide
  have hnul {s : Text} (h : 0 ∉ s) : Char.ofNat (0 : CodeUnit).toNat ∉ scalars s := fun hmem ↦
    h (mem_of_mem_scalars hzero hmem)
  simp only [utf8_eq_iff, bindingText, scalars_append_cons hzero, List.append_cancel_left_eq,
    List.cons.injEq, true_and]
  constructor
  · intro h
    have hcount := congrArg (List.count (Char.ofNat (0 : CodeUnit).toNat)) h
    rw [List.count_append, List.count_append, List.count_cons_self, List.count_cons_self,
      List.count_eq_zero.mpr (hnul hkind), List.count_eq_zero.mpr (hnul noNul_place),
      List.count_eq_zero.mpr (hnul noNul_place)] at hcount
    have hkind' : Char.ofNat (0 : CodeUnit).toNat ∉ scalars kind' :=
      List.count_eq_zero.mp (by omega)
    exact List.append_cons_inj_of_notMem hkind' (hnul hkind) h
  · rintro ⟨hkinds, hplaces⟩
    rw [hkinds, hplaces]

end Places

section Bound

variable {Data : Type} [JsonText Data] {ciphers : Ciphers} {vaultDir vaultDir' path other : List Segment}
  {contentKey nonce binding : Bytes} {kind kind' : Text} {field : Option Value} {value opened : Data}
  {files files' : Files}

/-- The cipher authenticates what it is given beside the plaintext. -/
structure Authenticated (ciphers : Ciphers) : Prop where
  decrypt_encrypt (key nonce aad plaintext : Bytes) :
    ciphers.decrypt key nonce aad (ciphers.encrypt key nonce aad plaintext) = some plaintext
  bound {key nonce aad other plaintext opened : Bytes} :
    ciphers.decrypt key nonce other (ciphers.encrypt key nonce aad plaintext) = some opened →
      other = aad

theorem recordBinding_ok_iff : recordBinding vaultDir (vaultDir ++ path) kind = .ok binding ↔
    (text "..").isPrefixOf (place path) = false ∧ utf8 (bindingText kind (place path)) = binding := by
  rw [recordBinding, relativePath_append]
  by_cases houtside : (text "..").isPrefixOf (place path) = true
  · simp [houtside]
  · rw [if_neg houtside, Bool.eq_false_iff, and_iff_right houtside, Except.ok.injEq]

/-- Places that are one in UTF-8 are refused alike. -/
theorem outside_of_utf8 (h : utf8 (place other) = utf8 (place path))
    (houtside : (text "..").isPrefixOf (place other) = true) :
    (text "..").isPrefixOf (place path) = true := by
  have hdot : (Scan.unit '.').toNat < 0x80 := by decide
  have htwo : text ".." = [Scan.unit '.', Scan.unit '.'] := by decide
  obtain ⟨rest, hrest⟩ := List.isPrefixOf_iff_prefix.mp houtside
  rw [utf8_eq_iff, ← hrest, htwo] at h
  have hfirst := @scalars_append_cons _ [] (Scan.unit '.' :: rest) hdot
  have hsecond := @scalars_append_cons _ [] rest hdot
  rw [List.nil_append, scalars.eq_1, List.nil_append] at hfirst hsecond
  rw [List.cons_append, List.singleton_append, hfirst, hsecond] at h
  obtain ⟨t, ht, hscalars⟩ := scalars_eq_cons hdot h.symm
  obtain ⟨t', ht', -⟩ := scalars_eq_cons hdot hscalars
  rw [ht, ht', htwo]
  exact List.isPrefixOf_iff_prefix.mpr ⟨t', rfl⟩

theorem unhex_hex (bytes : Bytes) : unhex (hex bytes) = some bytes := by
  rw [unhex, hex, scalars_units, String.ofList_toList, fromHex_toHex]

section Members

variable (field : Option Value) (kind : Text) (value : Data)

theorem member_ciphertext : (relabel field (sealRecord ciphers contentKey nonce kind value
    binding)).member (text "ciphertext") =
      some (.str (hex (ciphers.encrypt contentKey nonce binding (JsonText.stringify value)))) := by
  cases field <;> rfl

theorem member_nonce : (relabel field (sealRecord ciphers contentKey nonce kind value
    binding)).member (text "nonce") = some (.str (hex nonce)) := by
  cases field <;> rfl

theorem member_kind : (relabel field (sealRecord ciphers contentKey nonce kind value
    binding)).member (text "kind") = field := by
  cases field <;> rfl

end Members

/-- An edited record opens to its value where what authenticates it is spelled from the field. -/
theorem readSealed_ok_iff (hciphers : Authenticated ciphers)
    (hfile : files' (vaultDir' ++ other) = some (some (relabel field
      (sealRecord ciphers contentKey nonce kind value binding)))) :
    readSealed ciphers Data files' vaultDir' (vaultDir' ++ other) contentKey = .ok opened ↔
      (∃ kind', spelled field = some kind' ∧
        recordBinding vaultDir' (vaultDir' ++ other) kind' = .ok binding) ∧ opened = value := by
  unfold readSealed
  rw [hfile]
  dsimp only
  rw [member_ciphertext, member_nonce, member_kind]
  dsimp only
  cases hspelled : spelled field with
  | none => simp
  | some kind' =>
    have hopen (bytes : Bytes) : openRecord ciphers Data contentKey (hex nonce)
        (hex (ciphers.encrypt contentKey nonce binding (JsonText.stringify value))) bytes =
          if bytes = binding then some value else none := by
      simp only [openRecord, unhex_hex, Option.bind_eq_bind, Option.bind_some]
      by_cases hbytes : bytes = binding
      · rw [if_pos hbytes, hbytes, hciphers.decrypt_encrypt, Option.bind_some,
          JsonText.parse_stringify]
      · rw [if_neg hbytes, Option.eq_none_iff_forall_ne_some.mpr fun plaintext h ↦
          hbytes (hciphers.bound h)]
        rfl
    simp only [Option.bind_eq_bind, Option.bind_some, Option.some.injEq, exists_eq_left', hopen]
    cases hbinding : recordBinding vaultDir' (vaultDir' ++ other) kind' with
    | error e => simp [Except.toOption]
    | ok bytes =>
      simp only [Except.toOption, Option.bind_some, Except.ok.injEq]
      by_cases hbytes : bytes = binding
      · simp [hbytes, eq_comm]
      · simp [hbytes]

theorem written_of_writeSealed {written : Files} (h : writeSealed ciphers files vaultDir
    (vaultDir ++ path) contentKey nonce kind value = .ok written) :
    ∃ binding, recordBinding vaultDir (vaultDir ++ path) kind = .ok binding ∧
      written (vaultDir ++ path) = some (some (sealRecord ciphers contentKey nonce kind value
        binding)) := by
  unfold writeSealed at h
  cases hbinding : recordBinding vaultDir (vaultDir ++ path) kind with
  | error e =>
    rw [hbinding] at h
    cases h
  | ok binding =>
    rw [hbinding] at h
    cases h
    exact ⟨binding, rfl, Function.update_self _ _ _⟩

/-- The binding of a kind at a place is that of the kind and the place of a file found with a field
edited, though not both are the same. -/
def Mistakable (path other : List Segment) (kind : Text) (field : Option Value) : Prop :=
  ∃ kind', spelled field = some kind' ∧ utf8 kind' = utf8 kind ∧
    utf8 (place other) = utf8 (place path) ∧ ¬(other = path ∧ field = some (.str kind))

/-- A record opens only where and as what it was sealed. -/
structure OpensAsSealed (ciphers : Ciphers) (files : Files) (vaultDir vaultDir' path other :
    List Segment) (contentKey : Bytes) (kind : Text) (field : Option Value) (value : Data) :
    Prop where
  injective (kind' : Text) (binding : Bytes) : spelled field = some kind' →
    recordBinding vaultDir (vaultDir ++ path) kind = .ok binding →
      recordBinding vaultDir' (vaultDir' ++ other) kind' = .ok binding → other = path ∧ kind' = kind
  opened (found : Data) :
    readSealed ciphers Data files vaultDir' (vaultDir' ++ other) contentKey = .ok found →
      other = path ∧ field = some (.str kind) ∧ found = value

/-- The reader's binding is the writer's where kind and place are one in UTF-8. -/
theorem recordBinding_eq_iff (hkind : 0 ∉ kind)
    (hbinding : recordBinding vaultDir (vaultDir ++ path) kind = .ok binding) :
    recordBinding vaultDir' (vaultDir' ++ other) kind' = .ok binding ↔
      utf8 kind' = utf8 kind ∧ utf8 (place other) = utf8 (place path) := by
  obtain ⟨hinside, hbytes⟩ := recordBinding_ok_iff.mp hbinding
  rw [recordBinding_ok_iff, ← hbytes, utf8_bindingText_iff hkind]
  refine ⟨And.right, fun h ↦ ⟨Bool.eq_false_iff.mpr fun houtside ↦ ?_, h⟩⟩
  rw [outside_of_utf8 h.2 houtside] at hinside
  cases hinside

/-- A sealed record opens only where and as what it was sealed, unless it can be mistaken: its field
is no string and is spelled as one, or a lone surrogate stands where U+FFFD stood. -/
theorem opensAsSealed_iff {written : Files} (hciphers : Authenticated ciphers) (hkind : 0 ∉ kind)
    (hwritten : writeSealed ciphers files vaultDir (vaultDir ++ path) contentKey nonce kind value =
      .ok written)
    (hedited : files' (vaultDir' ++ other) =
      (written (vaultDir ++ path)).map (Option.map (relabel field))) :
    OpensAsSealed ciphers files' vaultDir vaultDir' path other contentKey kind field value ↔
      ¬Mistakable path other kind field := by
  obtain ⟨binding, hbinding, hfile⟩ := written_of_writeSealed hwritten
  rw [hfile] at hedited
  constructor
  · rintro ⟨-, hopened⟩ ⟨kind', hspelled, hkinds, hplaces, hdiffers⟩
    have hread : readSealed ciphers Data files' vaultDir' (vaultDir' ++ other) contentKey =
        .ok value := (readSealed_ok_iff hciphers hedited).mpr
      ⟨⟨kind', hspelled, (recordBinding_eq_iff hkind hbinding).mpr ⟨hkinds, hplaces⟩⟩, rfl⟩
    obtain ⟨hplace, hfield, -⟩ := hopened value hread
    exact hdiffers ⟨hplace, hfield⟩
  · intro hsafe
    have hsame (kind' : Text) (hspelled : spelled field = some kind')
        (h : recordBinding vaultDir' (vaultDir' ++ other) kind' = .ok binding) :
        other = path ∧ field = some (.str kind) := by
      obtain ⟨hkinds, hplaces⟩ := (recordBinding_eq_iff hkind hbinding).mp h
      by_contra hdiffers
      exact hsafe ⟨kind', hspelled, hkinds, hplaces, hdiffers⟩
    refine ⟨fun kind' bytes hspelled hbytes hbytes' ↦ ?_, fun found hread ↦ ?_⟩
    · rw [hbinding, Except.ok.injEq] at hbytes
      obtain ⟨hplace, hfield⟩ := hsame kind' hspelled (hbytes ▸ hbytes')
      rw [hfield] at hspelled
      exact ⟨hplace, (Option.some.inj hspelled).symm⟩
    · obtain ⟨⟨kind', hspelled, h⟩, hvalue⟩ := (readSealed_ok_iff hciphers hedited).mp hread
      obtain ⟨hplace, hfield⟩ := hsame kind' hspelled h
      exact ⟨hplace, hfield, hvalue⟩

end Bound

section Relabelled

theorem openCiphers_authenticated : Authenticated openCiphers where
  decrypt_encrypt := openCiphers_sound.decrypt_encrypt
  bound h := by
    simp only [openCiphers, Option.ite_none_right_eq_some, List.isPrefixOf_iff_prefix] at h
    obtain ⟨⟨rest, hrest⟩, -⟩ := h
    simp only [List.append_assoc, List.append_cancel_left_eq] at hrest
    exact frame_append_inj hrest

def edgeFile : List Segment :=
  [⟨text "personas", by decide, by decide, by decide, by decide⟩,
    ⟨text "0a", by decide, by decide, by decide, by decide⟩,
    ⟨text "edge.json", by decide, by decide, by decide, by decide⟩]

def edgeRecord : Value := sealRecord openCiphers oldKey (List.replicate 24 2) (text "edge") true
  (utf8 (bindingText (text "edge") (place edgeFile)))

def edgeWritten : Files := Function.update (fun _ ↦ none) edgeFile (some (some edgeRecord))

theorem edgeFile_bound : recordBinding [] ([] ++ edgeFile) (text "edge") =
    .ok (utf8 (bindingText (text "edge") (place edgeFile))) :=
  recordBinding_ok_iff.mpr ⟨by decide, rfl⟩

theorem edgeRecord_written : writeSealed openCiphers (fun _ ↦ none) [] ([] ++ edgeFile) oldKey
    (List.replicate 24 2) (text "edge") true = .ok edgeWritten := by
  rw [writeSealed, edgeFile_bound]
  rfl

theorem edgeRecord_opens_as_sealed : OpensAsSealed openCiphers edgeWritten [] [] edgeFile edgeFile
    oldKey (text "edge") (some (.str (text "edge"))) true := by
  refine (opensAsSealed_iff openCiphers_authenticated (by decide) edgeRecord_written rfl).mpr ?_
  rintro ⟨kind', -, -, -, hdiffers⟩
  exact hdiffers ⟨rfl, rfl⟩

def listed : Value := .arr [.str (text "edge")]

/-- A list that holds the kind is no kind, and the record opens as what it was sealed. -/
theorem listed_kind_opens : ¬OpensAsSealed openCiphers
    (fun _ ↦ some (some (relabel (some listed) edgeRecord))) [] [] edgeFile edgeFile oldKey
    (text "edge") (some listed) true := by
  intro h
  have hspelled : spelled (some listed) = some (text "edge") := by decide
  have hread : readSealed openCiphers Bool (fun _ ↦ some (some (relabel (some listed) edgeRecord)))
      [] ([] ++ edgeFile) oldKey = .ok true :=
    (readSealed_ok_iff openCiphers_authenticated rfl).mpr
      ⟨⟨text "edge", hspelled, edgeFile_bound⟩, rfl⟩
  cases (h.opened true hread).2.1

end Relabelled

end Servanda.RecordBinding
