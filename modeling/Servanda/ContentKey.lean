import Mathlib.Algebra.Order.Field.Rat
import Mathlib.Tactic.Linarith
import Servanda.Crypto

namespace Servanda

abbrev Bytes := List UInt8

section Hex

def hexValue (c : Char) : Option ℕ :=
  if 48 ≤ c.toNat ∧ c.toNat ≤ 57 then some (c.toNat - 48)
  else if 97 ≤ c.toNat ∧ c.toNat ≤ 102 then some (c.toNat - 87)
  else if 65 ≤ c.toNat ∧ c.toNat ≤ 70 then some (c.toNat - 55)
  else none

def fromHexDigits : List Char → Option Bytes
  | [] => some []
  | [_] => none
  | high :: low :: rest => do
    let h ← hexValue high
    let l ← hexValue low
    let bytes ← fromHexDigits rest
    some (UInt8.ofNat (16 * h + l) :: bytes)

/-- The octets of a text in hexadecimal digits; `none` where the call throws. -/
def fromHex (hex : String) : Option Bytes := fromHexDigits hex.toList

def hexDigits (bytes : Bytes) : List Char :=
  bytes.flatMap fun b ↦ [hexDigit (b.toNat / 16), hexDigit (b.toNat % 16)]

def toHex (bytes : Bytes) : String := String.ofList (hexDigits bytes)

theorem hexValue_hexDigit : ∀ n < 16, hexValue (hexDigit n) = some n := by decide

@[simp] theorem fromHex_toHex (bytes : Bytes) : fromHex (toHex bytes) = some bytes := by
  rw [fromHex, toHex, String.toList_ofList]
  induction bytes with
  | nil => rfl
  | cons b bytes ih =>
    have hb : b.toNat < 256 := b.toNat_lt
    have hbyte : UInt8.ofNat (16 * (b.toNat / 16) + b.toNat % 16) = b := by
      rw [Nat.div_add_mod, UInt8.ofNat_toNat]
    simp only [hexDigits, List.flatMap_cons, List.cons_append, List.nil_append, fromHexDigits,
      hexValue_hexDigit (b.toNat / 16) (by omega), hexValue_hexDigit (b.toNat % 16) (by omega)]
    rw [← hexDigits, ih]
    simp only [Option.bind_eq_bind, Option.bind_some, hbyte]

theorem hexDigits_length (bytes : Bytes) : (hexDigits bytes).length = 2 * bytes.length := by
  induction bytes with
  | nil => rfl
  | cons b bytes ih =>
    rw [hexDigits, List.flatMap_cons, List.length_append, ← hexDigits, ih]
    simp only [List.length_cons, List.length_nil]
    omega

end Hex

/-- A key derivation's cost. The derived key has 32 octets in every profile. -/
structure Argon2idParams where
  m : ℚ
  t : ℚ
  p : ℚ
  deriving DecidableEq

namespace Argon2idParams

def work (params : Argon2idParams) : ℚ := params.m * params.t * params.p

def desktop : Argon2idParams := ⟨1048576, 2, 4⟩

def constrained : Argon2idParams := ⟨65536, 3, 1⟩

end Argon2idParams

structure Kdf where
  salt : String
  params : Argon2idParams
  deriving DecidableEq

inductive WrapKind
  | passphrase | device
  deriving DecidableEq, Repr

structure WrappedKey where
  kind : WrapKind
  label : String
  nonce : String
  ciphertext : String
  kdf : Option Kdf
  deriving DecidableEq

structure ContentKeySet where
  wraps : List WrappedKey
  deriving DecidableEq

/-- The ciphers package: the authenticated cipher, and the two derivations of a wrapping key, of
which the one from a passphrase refuses costs that it cannot run at. -/
structure Ciphers where
  encrypt (key nonce aad plaintext : Bytes) : Bytes
  decrypt (key nonce aad ciphertext : Bytes) : Option Bytes
  argon2id (password salt : Bytes) (params : Argon2idParams) : Option Bytes
  hkdf (ikm : Bytes) : Bytes

inductive KeyError
  | malformedHex
  | weakDeviceKey (length : ℕ)
  | emptyPassphrase
  | memoryBelowFloor (m : ℚ)
  | workBelowFloor (work : ℚ)
  | memoryAboveCeiling (m : ℚ)
  | workAboveCeiling (work : ℚ)
  | argon2idRefused
  | noUsablePassphraseWrap
  | tooManyPassphraseWraps (count : ℕ)
  | notAPositiveInteger (value : ℚ)
  | saltTooShort
  | unspendableMemory (m : ℚ)
  | unspendableWork (work remaining : ℚ)
  | noWrapOpened
  deriving DecidableEq

namespace ContentKey

def maxUnwrapMemoryKib : ℚ := Argon2idParams.desktop.m * 2

def maxUnwrapWork : ℚ := Argon2idParams.desktop.work * 2

def maxPassphraseCandidates : ℕ := 8

def minSaltBytes : ℕ := 16

def deviceKeyMinBytes : ℕ := 32

def isPositiveSafeInteger (q : ℚ) : Bool := q.isInt && decide (1 ≤ q) && decide (q ≤ 2 ^ 53 - 1)

variable (ciphers : Ciphers)

def deviceWrapKey (deviceKeyHex : String) : Except KeyError Bytes :=
  match fromHex deviceKeyHex with
  | none => .error .malformedHex
  | some raw =>
    if raw.length < deviceKeyMinBytes then .error (.weakDeviceKey raw.length)
    else .ok (ciphers.hkdf raw)

def deriveKeyFromPassphrase (passphrase : String) (salt : Bytes) (params : Argon2idParams) :
    Option Bytes :=
  ciphers.argon2id (Crypto.utf8 passphrase.toList) salt params

/-- The floor that a new wrap stands on, and the ceilings that no open goes past. -/
def assertConformingProfile (params : Argon2idParams) : Except KeyError Unit :=
  if params.m < Argon2idParams.constrained.m then .error (.memoryBelowFloor params.m)
  else if params.work < Argon2idParams.constrained.work then .error (.workBelowFloor params.work)
  else if maxUnwrapMemoryKib < params.m then .error (.memoryAboveCeiling params.m)
  else if maxUnwrapWork < params.work then .error (.workAboveCeiling params.work)
  else .ok ()

/-- `salt` and `nonce` are what the call draws at random. -/
def wrapForPassphrase (contentKey : Bytes) (passphrase label : String) (params : Argon2idParams)
    (salt nonce : Bytes) : Except KeyError WrappedKey :=
  if passphrase = "" then .error .emptyPassphrase
  else match assertConformingProfile params with
    | .error e => .error e
    | .ok () =>
      match deriveKeyFromPassphrase ciphers passphrase salt params with
      | none => .error .argon2idRefused
      | some kek => .ok ⟨.passphrase, label, toHex nonce,
          toHex (ciphers.encrypt kek nonce [] contentKey), some ⟨toHex salt, params⟩⟩

def wrapForDevice (contentKey : Bytes) (deviceKeyHex label : String) (nonce : Bytes) :
    Except KeyError WrappedKey :=
  (deviceWrapKey ciphers deviceKeyHex).map fun kek ↦
    ⟨.device, label, toHex nonce, toHex (ciphers.encrypt kek nonce [] contentKey), none⟩

/-- Could the wrap be opened, as far as its members tell? -/
def usable (wrap : WrappedKey) : Bool :=
  wrap.kind == .passphrase && wrap.kdf.any (fun kdf ↦
    [kdf.params.m, kdf.params.t, kdf.params.p].all isPositiveSafeInteger &&
      decide (minSaltBytes * 2 ≤ kdf.salt.toList.length)) && decide (0 < wrap.ciphertext.toList.length)

def sealContentKey (wraps : List WrappedKey) : Except KeyError ContentKeySet :=
  if wraps.any usable then .ok ⟨wraps⟩ else .error .noUsablePassphraseWrap

def unwrapWith (key : Bytes) (wrap : WrappedKey) : Option Bytes := do
  let nonce ← fromHex wrap.nonce
  let ciphertext ← fromHex wrap.ciphertext
  ciphers.decrypt key nonce [] ciphertext

/-- What is left to spend once a derivation at a wrap's own cost is paid for. -/
def assertSpendable (kdf : Kdf) (remainingWork : ℚ) : Except KeyError ℚ :=
  match [kdf.params.m, kdf.params.t, kdf.params.p].find? fun q ↦ !isPositiveSafeInteger q with
  | some value => .error (.notAPositiveInteger value)
  | none =>
    match fromHex kdf.salt with
    | none => .error .malformedHex
    | some salt =>
      if salt.length < minSaltBytes then .error .saltTooShort
      else if maxUnwrapMemoryKib < kdf.params.m then .error (.unspendableMemory kdf.params.m)
      else if remainingWork < kdf.params.work then
        .error (.unspendableWork kdf.params.work remainingWork)
      else .ok (remainingWork - kdf.params.work)

/-- Tries the passphrase wraps in turn. A wrap it may not spend on ends the call; one that does not
open is passed over. -/
def openPassphraseWraps (passphrase : String) : List WrappedKey → ℚ → Except KeyError Bytes
  | [], _ => .error .noWrapOpened
  | wrap :: rest, budget =>
    match wrap.kdf with
    | none => openPassphraseWraps passphrase rest budget
    | some kdf =>
      match assertSpendable kdf budget, fromHex kdf.salt with
      | .error e, _ => .error e
      | .ok _, none => .error .malformedHex
      | .ok budget, some salt =>
        match deriveKeyFromPassphrase ciphers passphrase salt kdf.params with
        | none => .error .argon2idRefused
        | some kek =>
          match unwrapWith ciphers kek wrap with
          | some contentKey => .ok contentKey
          | none => openPassphraseWraps passphrase rest budget

def candidates (keyset : ContentKeySet) (kind : WrapKind) (label : Option String) :
    List WrappedKey :=
  keyset.wraps.filter fun w ↦ w.kind = kind ∧ label.all fun l ↦ decide (w.label = l)

def unwrapWithPassphrase (keyset : ContentKeySet) (passphrase : String)
    (label : Option String) : Except KeyError Bytes :=
  let candidates := candidates keyset .passphrase label
  if maxPassphraseCandidates < candidates.length then
    .error (.tooManyPassphraseWraps candidates.length)
  else openPassphraseWraps ciphers passphrase candidates maxUnwrapWork

def unwrapWithDevice (keyset : ContentKeySet) (deviceKeyHex : String) (label : Option String) :
    Except KeyError Bytes :=
  match deviceWrapKey ciphers deviceKeyHex with
  | .error e => .error e
  | .ok kek =>
    match (candidates keyset .device label).findSome? (unwrapWith ciphers kek) with
    | some contentKey => .ok contentKey
    | none => .error .noWrapOpened

/-- The cost of the weakest passphrase wrap. -/
def kdfProfileOf (keyset : ContentKeySet) : Option Argon2idParams :=
  match (keyset.wraps.filter (·.kind = .passphrase)).filterMap (·.kdf) with
  | [] => none
  | kdf :: kdfs => some <| kdfs.foldl
      (fun weakest k ↦ if k.params.work < weakest.work then k.params else weakest) kdf.params

/-- Costs that Argon2id runs at: whole numbers within its bounds, with memory for every lane. -/
structure Argon2idRuns (params : Argon2idParams) : Prop where
  wholeM : params.m.isInt = true
  wholeT : params.t.isInt = true
  wholeP : params.p.isInt = true
  passes : 1 ≤ params.t ∧ params.t < 2 ^ 32
  lanes : 1 ≤ params.p ∧ params.p < 2 ^ 24
  memory : 8 * params.p ≤ params.m ∧ params.m < 2 ^ 32

instance (params : Argon2idParams) : Decidable (Argon2idRuns params) :=
  decidable_of_iff (params.m.isInt = true ∧ params.t.isInt = true ∧ params.p.isInt = true ∧
      (1 ≤ params.t ∧ params.t < 2 ^ 32) ∧ (1 ≤ params.p ∧ params.p < 2 ^ 24) ∧
      8 * params.p ≤ params.m ∧ params.m < 2 ^ 32)
    ⟨fun ⟨hm, ht, hp, hpasses, hlanes, hmemory⟩ ↦ ⟨hm, ht, hp, hpasses, hlanes, hmemory⟩,
      fun h ↦ ⟨h.wholeM, h.wholeT, h.wholeP, h.passes, h.lanes, h.memory⟩⟩

/-- The ciphers do what they document, without collisions: a ciphertext opens to its plaintext, and
under no other key; a derivation that runs at its cost gives each secret a key of its own. -/
structure Sound : Prop where
  decrypt_encrypt (key nonce aad plaintext : Bytes) :
    ciphers.decrypt key nonce aad (ciphers.encrypt key nonce aad plaintext) = some plaintext
  committing {key other nonce aad plaintext opened : Bytes} :
    ciphers.decrypt other nonce aad (ciphers.encrypt key nonce aad plaintext) = some opened →
      other = key
  tagged (key nonce aad plaintext : Bytes) : ciphers.encrypt key nonce aad plaintext ≠ []
  argon2id_isSome (password : Bytes) {salt : Bytes} (params : Argon2idParams) :
    8 ≤ salt.length →
      ((ciphers.argon2id password salt params).isSome = true ↔ Argon2idRuns params)
  argon2id_inj {password other salt key : Bytes} {params : Argon2idParams} :
    ciphers.argon2id password salt params = some key →
      ciphers.argon2id other salt params = some key → other = password
  hkdf_inj {ikm other : Bytes} : ciphers.hkdf ikm = ciphers.hkdf other → ikm = other

/-- A device key that a wrap can be made for: well-formed digits of enough octets. -/
def StrongDeviceKey (deviceKeyHex : String) : Prop :=
  ∃ raw, fromHex deviceKeyHex = some raw ∧ deviceKeyMinBytes ≤ raw.length

structure StrongPassphrase (passphrase : String) (params : Argon2idParams) : Prop where
  nonempty : passphrase ≠ ""
  conforming : assertConformingProfile params = .ok ()
  runs : Argon2idRuns params

variable {ciphers} {contentKey kek salt nonce raw : Bytes} {passphrase label keyHex : String}
  {params : Argon2idParams} {wrap : WrappedKey}

theorem utf8_injective : Function.Injective Crypto.utf8 := by
  intro l m h
  have hbytes : (String.ofList l).toByteArray = (String.ofList m).toByteArray := by
    rw [String.toByteArray_ofList, String.toByteArray_ofList, List.utf8Encode, List.utf8Encode]
    exact congrArg List.toByteArray h
  simpa using congrArg String.toList (String.toByteArray_inj.mp hbytes)

theorem isPositiveSafeInteger_iff {q : ℚ} :
    isPositiveSafeInteger q = true ↔ q.isInt = true ∧ 1 ≤ q ∧ q ≤ 2 ^ 53 - 1 := by
  simp [isPositiveSafeInteger, and_assoc]

theorem Argon2idRuns.safe (h : Argon2idRuns params) :
    ∀ q ∈ [params.m, params.t, params.p], isPositiveSafeInteger q = true := by
  have hm : 1 ≤ params.m := by linarith [h.memory.1, h.lanes.1]
  have hm' : params.m ≤ 2 ^ 53 - 1 := by linarith [h.memory.2]
  have ht : params.t ≤ 2 ^ 53 - 1 := by linarith [h.passes.2]
  have hp : params.p ≤ 2 ^ 53 - 1 := by linarith [h.lanes.2]
  intro q hq
  simp only [List.mem_cons, List.not_mem_nil, or_false] at hq
  rcases hq with rfl | rfl | rfl
  · exact isPositiveSafeInteger_iff.mpr ⟨h.wholeM, hm, hm'⟩
  · exact isPositiveSafeInteger_iff.mpr ⟨h.wholeT, h.passes.1, ht⟩
  · exact isPositiveSafeInteger_iff.mpr ⟨h.wholeP, h.lanes.1, hp⟩

theorem conforming_ceilings (h : assertConformingProfile params = .ok ()) :
    params.m ≤ maxUnwrapMemoryKib ∧ params.work ≤ maxUnwrapWork := by
  unfold assertConformingProfile at h
  split_ifs at h with _ _ hm hwork
  exact ⟨not_lt.mp hm, not_lt.mp hwork⟩

theorem deviceWrapKey_ok_iff {key : Bytes} : deviceWrapKey ciphers keyHex = .ok key ↔
    ∃ raw, fromHex keyHex = some raw ∧ deviceKeyMinBytes ≤ raw.length ∧ key = ciphers.hkdf raw := by
  unfold deviceWrapKey
  cases hraw : fromHex keyHex with
  | none => simp
  | some raw =>
    by_cases hlength : raw.length < deviceKeyMinBytes
    · simp [hlength]
    · simp [hlength, not_lt.mp hlength, eq_comm]

theorem wrapForDevice_ok_iff : wrapForDevice ciphers contentKey keyHex label nonce = .ok wrap ↔
    ∃ raw, fromHex keyHex = some raw ∧ deviceKeyMinBytes ≤ raw.length ∧ wrap = ⟨.device, label,
      toHex nonce, toHex (ciphers.encrypt (ciphers.hkdf raw) nonce [] contentKey), none⟩ := by
  unfold wrapForDevice
  cases hkey : deviceWrapKey ciphers keyHex with
  | error e =>
    apply iff_of_false (by simp [Except.map])
    intro ⟨raw, hraw, hlength, _⟩
    rw [deviceWrapKey_ok_iff.mpr ⟨raw, hraw, hlength, rfl⟩] at hkey
    cases hkey
  | ok key =>
    obtain ⟨raw, hraw, hlength, rfl⟩ := deviceWrapKey_ok_iff.mp hkey
    simp only [Except.map, Except.ok.injEq, hraw, Option.some.injEq, exists_eq_left']
    exact ⟨fun h ↦ ⟨hlength, h.symm⟩, fun h ↦ h.2.symm⟩

theorem wrapForPassphrase_ok_iff (hsound : Sound ciphers) (hsalt : 8 ≤ salt.length) :
    wrapForPassphrase ciphers contentKey passphrase label params salt nonce = .ok wrap ↔
      StrongPassphrase passphrase params ∧
        ∃ kek, deriveKeyFromPassphrase ciphers passphrase salt params = some kek ∧
          wrap = ⟨.passphrase, label, toHex nonce, toHex (ciphers.encrypt kek nonce [] contentKey),
            some ⟨toHex salt, params⟩⟩ := by
  have hruns := hsound.argon2id_isSome (Crypto.utf8 passphrase.toList) params hsalt
  rw [← deriveKeyFromPassphrase] at hruns
  unfold wrapForPassphrase
  constructor
  · intro h
    split_ifs at h with hempty
    split at h
    · cases h
    next hconforming =>
      split at h
      · cases h
      next kek hkek =>
        cases h
        exact ⟨⟨hempty, hconforming, hruns.mp (by rw [hkek]; rfl)⟩, kek, hkek, rfl⟩
  · rintro ⟨hstrong, kek, hkek, rfl⟩
    rw [if_neg hstrong.nonempty, hstrong.conforming, hkek]

theorem unwrapWith_eq (hsound : Sound ciphers) {other : Bytes} {kind : WrapKind}
    {kdf : Option Kdf} : unwrapWith ciphers other ⟨kind, label, toHex nonce,
      toHex (ciphers.encrypt kek nonce [] contentKey), kdf⟩ =
      if other = kek then some contentKey else none := by
  simp only [unwrapWith, fromHex_toHex, Option.bind_eq_bind, Option.bind_some]
  split_ifs with h
  · rw [h, hsound.decrypt_encrypt]
  · cases hopened : ciphers.decrypt other nonce [] (ciphers.encrypt kek nonce [] contentKey) with
    | none => rfl
    | some opened => exact absurd (hsound.committing hopened) h

theorem assertSpendable_eq (hconforming : assertConformingProfile params = .ok ())
    (hruns : Argon2idRuns params) (hsalt : minSaltBytes ≤ salt.length) (budget : ℚ) :
    assertSpendable ⟨toHex salt, params⟩ budget =
      if budget < params.work then .error (.unspendableWork params.work budget)
      else .ok (budget - params.work) := by
  have hm := (conforming_ceilings hconforming).1
  have hnone : [params.m, params.t, params.p].find? (fun q ↦ !isPositiveSafeInteger q) = none := by
    rw [List.find?_eq_none]
    intro q hq
    simp [hruns.safe q hq]
  simp only [assertSpendable, hnone, fromHex_toHex]
  rw [if_neg (not_lt.mpr hsalt), if_neg (not_lt.mpr hm)]

/-- A wrap the writer made: it ends the call where its cost is no longer there to spend, opens with its
own passphrase, and is passed over with any other. -/
theorem openPassphraseWraps_cons (hsound : Sound ciphers) (hsalt : minSaltBytes ≤ salt.length)
    (hwrap : wrapForPassphrase ciphers contentKey passphrase label params salt nonce = .ok wrap)
    (other : String) (rest : List WrappedKey) (budget : ℚ) :
    openPassphraseWraps ciphers other (wrap :: rest) budget =
      if budget < params.work then .error (.unspendableWork params.work budget)
      else if other = passphrase then .ok contentKey
      else openPassphraseWraps ciphers other rest (budget - params.work) := by
  have hsalt' : 8 ≤ salt.length := le_trans (by decide) hsalt
  obtain ⟨hstrong, kek, hkek, rfl⟩ := (wrapForPassphrase_ok_iff hsound hsalt').mp hwrap
  have hruns := hsound.argon2id_isSome (Crypto.utf8 other.toList) params hsalt'
  obtain ⟨otherKek, hother⟩ := Option.isSome_iff_exists.mp (hruns.mpr hstrong.runs)
  rw [← deriveKeyFromPassphrase] at hother
  simp only [openPassphraseWraps, assertSpendable_eq hstrong.conforming hstrong.runs hsalt]
  by_cases hbudget : budget < params.work
  · rw [if_pos hbudget, if_pos hbudget]
  simp only [hbudget, if_false, fromHex_toHex, hother, unwrapWith_eq hsound]
  by_cases hsame : other = passphrase
  · subst hsame
    obtain rfl : otherKek = kek := Option.some.inj (hother.symm.trans hkek)
    simp
  · have hne : otherKek ≠ kek := by
      rintro rfl
      have hutf8 := utf8_injective (hsound.argon2id_inj hkek hother)
      exact hsame (String.toList_injective hutf8)
    simp [hsame, hne]

theorem openPassphraseWraps_single (hsound : Sound ciphers) (hsalt : minSaltBytes ≤ salt.length)
    (hwrap : wrapForPassphrase ciphers contentKey passphrase label params salt nonce = .ok wrap)
    (other : String) : openPassphraseWraps ciphers other [wrap] maxUnwrapWork =
      if other = passphrase then .ok contentKey else .error .noWrapOpened := by
  have hstrong :=
    ((wrapForPassphrase_ok_iff hsound (le_trans (by decide) hsalt)).mp hwrap).1
  rw [openPassphraseWraps_cons hsound hsalt hwrap, openPassphraseWraps,
    if_neg (not_lt.mpr (conforming_ceilings hstrong.conforming).2)]

theorem usable_of_wrapForPassphrase (hsound : Sound ciphers) (hsalt : minSaltBytes ≤ salt.length)
    (hwrap : wrapForPassphrase ciphers contentKey passphrase label params salt nonce = .ok wrap) :
    usable wrap = true := by
  obtain ⟨hstrong, kek, -, rfl⟩ :=
    (wrapForPassphrase_ok_iff hsound (le_trans (by decide) hsalt)).mp hwrap
  have hlength : minSaltBytes * 2 ≤ (toHex salt).toList.length := by
    rw [toHex, String.toList_ofList, hexDigits_length]
    omega
  have htag : 0 < (toHex (ciphers.encrypt kek nonce [] contentKey)).toList.length := by
    rw [toHex, String.toList_ofList, hexDigits_length]
    have := List.length_pos_of_ne_nil (hsound.tagged kek nonce [] contentKey)
    omega
  have hsafe : [params.m, params.t, params.p].all isPositiveSafeInteger = true :=
    List.all_eq_true.mpr hstrong.runs.safe
  simpa [usable, hlength, htag] using hsafe

end ContentKey

end Servanda
