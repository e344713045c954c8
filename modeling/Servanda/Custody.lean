import Servanda.Rewrap

namespace Servanda.ContentKey

variable (ciphers : Ciphers)

def assertM16 (wraps : List WrappedKey) : Except KeyError Unit :=
  if wraps.any usable then .ok () else .error .noUsablePassphraseWrap

structure OpenOptions where
  passphrase : Option String
  /-- The device's label, where one is given, and its key. -/
  deviceKey : Option (Option String × String)

inductive OpenError
  | refused (e : KeyError)
  | noCredential
  deriving DecidableEq

/-- The opening of a vault whose directory holds this keyset. -/
def openVault (keyset : ContentKeySet) (opts : OpenOptions) : Except OpenError Bytes :=
  match assertM16 keyset.wraps with
  | .error e => .error (.refused e)
  | .ok () =>
    match opts.passphrase, opts.deviceKey with
    | some passphrase, _ =>
      (unwrapWithPassphrase ciphers keyset passphrase none).mapError .refused
    | none, some (label, keyHex) =>
      (unwrapWithDevice ciphers keyset keyHex label).mapError .refused
    | none, none => .error .noCredential

/-- An open with the passphrase comes as far as this wrap, and derives this key for it. -/
inductive Derives (passphrase : String) : List WrappedKey → ℚ → WrappedKey → Bytes → Prop
  | here {wrap : WrappedKey} {rest : List WrappedKey} {budget left : ℚ} {kdf : Kdf}
      {salt kek : Bytes} : wrap.kdf = some kdf → assertSpendable kdf budget = .ok left →
      fromHex kdf.salt = some salt →
      deriveKeyFromPassphrase ciphers passphrase salt kdf.params = some kek →
      Derives passphrase (wrap :: rest) budget wrap kek
  | unkeyed {first wrap : WrappedKey} {rest : List WrappedKey} {budget : ℚ} {kek : Bytes} :
      first.kdf = none → Derives passphrase rest budget wrap kek →
      Derives passphrase (first :: rest) budget wrap kek
  | next {first wrap : WrappedKey} {rest : List WrappedKey} {budget left : ℚ} {kdf : Kdf}
      {salt firstKek kek : Bytes} : first.kdf = some kdf → assertSpendable kdf budget = .ok left →
      fromHex kdf.salt = some salt →
      deriveKeyFromPassphrase ciphers passphrase salt kdf.params = some firstKek →
      unwrapWith ciphers firstKek first = none → Derives passphrase rest left wrap kek →
      Derives passphrase (first :: rest) budget wrap kek

/-- Nonce and ciphertext are hexadecimal, so that a key derived for the wrap is tried on it. -/
def Decodes (wrap : WrappedKey) : Prop :=
  (fromHex wrap.nonce).isSome = true ∧ (fromHex wrap.ciphertext).isSome = true

/-- Some passphrase is really tried on some passphrase wrap. -/
def PassphraseRoute (keyset : ContentKeySet) : Prop :=
  ∃ passphrase wrap kek, (candidates keyset .passphrase none).length ≤ maxPassphraseCandidates ∧
    Derives ciphers passphrase (candidates keyset .passphrase none) maxUnwrapWork wrap kek ∧
    Decodes wrap

/-- Where the custody check passes, by itself or on the way into a vault, the passphrase route is
there. -/
structure M16Holds (keyset : ContentKeySet) : Prop where
  accepted : assertM16 keyset.wraps = .ok () → PassphraseRoute ciphers keyset
  admitted : ∀ label keyHex key, openVault ciphers keyset ⟨none, some (label, keyHex)⟩ = .ok key →
    PassphraseRoute ciphers keyset

/-- A derivation that Argon2id runs and an open may begin. -/
structure Spendable (kdf : Kdf) : Prop where
  runs : Argon2idRuns kdf.params
  salted : ∃ salt, fromHex kdf.salt = some salt ∧ minSaltBytes ≤ salt.length
  memory : kdf.params.m ≤ maxUnwrapMemoryKib

def keyed (wraps : List WrappedKey) : List Kdf := wraps.filterMap (·.kdf)

def totalWork (kdfs : List Kdf) : ℚ := (kdfs.map (·.params.work)).sum

/-- Some passphrase wrap decodes, every derivation up to its own can be run, and together they cost no
more than an open may spend. -/
structure Payable (wraps : List WrappedKey) : Prop where
  few : wraps.length ≤ maxPassphraseCandidates
  reached : ∃ before wrap after kdf, wraps = before ++ wrap :: after ∧ wrap.kdf = some kdf ∧
    Decodes wrap ∧ (∀ k ∈ keyed before ++ [kdf], Spendable k) ∧
    totalWork (keyed before ++ [kdf]) ≤ maxUnwrapWork

variable {ciphers} {passphrase : String} {kdf : Kdf} {budget left : ℚ} {wrap : WrappedKey}
  {wraps : List WrappedKey} {salt kek : Bytes} {keyset : ContentKeySet}

theorem sealContentKey_eq (wraps : List WrappedKey) :
    sealContentKey wraps = (assertM16 wraps).map fun _ ↦ ⟨wraps⟩ := by
  unfold sealContentKey assertM16
  split_ifs <;> rfl

theorem unwrapWith_of_undecoded (h : ¬Decodes wrap) : unwrapWith ciphers kek wrap = none := by
  unfold unwrapWith
  cases hnonce : fromHex wrap.nonce with
  | none => rfl
  | some nonce =>
    cases hciphertext : fromHex wrap.ciphertext with
    | none => rfl
    | some ciphertext => exact absurd ⟨by rw [hnonce]; rfl, by rw [hciphertext]; rfl⟩ h

theorem assertSpendable_ok_iff : assertSpendable kdf budget = .ok left ↔
    (∀ q ∈ [kdf.params.m, kdf.params.t, kdf.params.p], isPositiveSafeInteger q = true) ∧
      (∃ salt, fromHex kdf.salt = some salt ∧ minSaltBytes ≤ salt.length) ∧
      kdf.params.m ≤ maxUnwrapMemoryKib ∧ kdf.params.work ≤ budget ∧
      left = budget - kdf.params.work := by
  unfold assertSpendable
  cases hfind : [kdf.params.m, kdf.params.t, kdf.params.p].find? fun q ↦
      !isPositiveSafeInteger q with
  | some q =>
    have hunsafe := List.find?_some hfind
    apply iff_of_false (by simp)
    intro h
    simp [h.1 q (List.mem_of_find?_eq_some hfind)] at hunsafe
  | none =>
    have hsafe : ∀ q ∈ [kdf.params.m, kdf.params.t, kdf.params.p],
        isPositiveSafeInteger q = true := fun q hq ↦ by
      simpa using List.find?_eq_none.mp hfind q hq
    cases fromHex kdf.salt with
    | none => simp
    | some salt =>
      dsimp only
      split_ifs with hsalt hm hwork
      · simp [hsalt]
      · simp [hm]
      · simp [hwork]
      · simp only [Except.ok.injEq, Option.some.injEq, exists_eq_left', not_lt.mp hsalt,
          not_lt.mp hm, not_lt.mp hwork, true_and]
        exact ⟨fun h ↦ ⟨hsafe, h.symm⟩, fun h ↦ h.2.symm⟩

/-- The budget after a derivation, and the key it gives. -/
theorem derives_key_iff (hsound : Sound ciphers) (passphrase : String) :
    (∃ salt kek, assertSpendable kdf budget = .ok left ∧ fromHex kdf.salt = some salt ∧
      deriveKeyFromPassphrase ciphers passphrase salt kdf.params = some kek) ↔
    Spendable kdf ∧ kdf.params.work ≤ budget ∧ left = budget - kdf.params.work := by
  constructor
  · intro ⟨salt, kek, hspend, hsalt, hkek⟩
    obtain ⟨-, ⟨salt', hsalt', hlength⟩, hm, hwork, hleft⟩ := assertSpendable_ok_iff.mp hspend
    obtain rfl : salt = salt' := Option.some.inj (hsalt.symm.trans hsalt')
    have hruns := (hsound.argon2id_isSome (Crypto.utf8 passphrase.toList) kdf.params
      (le_trans (by decide) hlength)).mp (Option.isSome_of_eq_some hkek)
    exact ⟨⟨hruns, ⟨salt, hsalt, hlength⟩, hm⟩, hwork, hleft⟩
  · intro ⟨⟨hruns, ⟨salt, hsalt, hlength⟩, hm⟩, hwork, hleft⟩
    obtain ⟨kek, hkek⟩ := Option.isSome_iff_exists.mp ((hsound.argon2id_isSome
      (Crypto.utf8 passphrase.toList) kdf.params (le_trans (by decide) hlength)).mpr hruns)
    exact ⟨salt, kek, assertSpendable_ok_iff.mpr
      ⟨hruns.safe, ⟨salt, hsalt, hlength⟩, hm, hwork, hleft⟩, hsalt, hkek⟩

/-- An open returns what the first derivation to open its wrap finds there. -/
theorem openPassphraseWraps_ok_iff {key : Bytes} :
    openPassphraseWraps ciphers passphrase wraps budget = .ok key ↔
      ∃ wrap kek, Derives ciphers passphrase wraps budget wrap kek ∧
        unwrapWith ciphers kek wrap = some key := by
  induction wraps generalizing budget with
  | nil =>
    apply iff_of_false (by simp [openPassphraseWraps])
    intro h
    obtain ⟨wrap, kek, h, _⟩ := h
    cases h
  | cons first rest ih =>
    unfold openPassphraseWraps
    constructor
    · intro h
      cases hkdf : first.kdf with
      | none =>
        rw [hkdf] at h
        obtain ⟨wrap, kek, hderives, hopened⟩ := ih.mp h
        exact ⟨wrap, kek, .unkeyed hkdf hderives, hopened⟩
      | some kdf =>
        simp only [hkdf] at h
        split at h
        · cases h
        · cases h
        next left salt hspend hsalt =>
          split at h
          · cases h
          next firstKek hkek =>
            split at h
            next opened hopened =>
              cases h
              exact ⟨first, firstKek, .here hkdf hspend hsalt hkek, hopened⟩
            next hclosed =>
              obtain ⟨wrap, kek, hderives, hopened⟩ := ih.mp h
              exact ⟨wrap, kek, .next hkdf hspend hsalt hkek hclosed hderives, hopened⟩
    · intro h
      obtain ⟨wrap, kek, hderives, hopened⟩ := h
      cases hderives with
      | here hkdf hspend hsalt hkek => simp only [hkdf, hspend, hsalt, hkek, hopened]
      | unkeyed hkdf hrest => simpa only [hkdf] using ih.mpr ⟨wrap, kek, hrest, hopened⟩
      | next hkdf hspend hsalt hkek hclosed hrest =>
        simpa only [hkdf, hspend, hsalt, hkek, hclosed] using ih.mpr ⟨wrap, kek, hrest, hopened⟩

theorem totalWork_cons (kdf : Kdf) (kdfs : List Kdf) :
    totalWork (kdf :: kdfs) = kdf.params.work + totalWork kdfs := by
  simp [totalWork]

theorem totalWork_nonneg {kdfs : List Kdf} (h : ∀ k ∈ kdfs, Spendable k) : 0 ≤ totalWork kdfs := by
  induction kdfs with
  | nil => exact le_rfl
  | cons kdf kdfs ih =>
    obtain ⟨hkdf, hrest⟩ := List.forall_mem_cons.mp h
    have hpos := hkdf.runs.work_pos
    rw [totalWork_cons]
    linarith [ih hrest]

/-- What stands before a wrap that an open comes to has been paid for. -/
theorem Derives.paid (hsound : Sound ciphers) (h : Derives ciphers passphrase wraps budget wrap kek) :
    ∃ before after kdf, wraps = before ++ wrap :: after ∧ wrap.kdf = some kdf ∧
      (∀ k ∈ keyed before ++ [kdf], Spendable k) ∧
      totalWork (keyed before ++ [kdf]) ≤ budget := by
  induction h with
  | @here wrap rest budget left kdf salt kek hkdf hspend hsalt hkek =>
    obtain ⟨hspendable, hwork, -⟩ :=
      (derives_key_iff hsound _).mp ⟨salt, kek, hspend, hsalt, hkek⟩
    exact ⟨[], rest, kdf, rfl, hkdf, by simpa [keyed] using hspendable,
      by simpa [keyed, totalWork] using hwork⟩
  | @unkeyed first wrap rest budget kek hkdf hrest ih =>
    obtain ⟨before, after, kdf, rfl, hwrap, hspendable, hwork⟩ := ih
    refine ⟨first :: before, after, kdf, rfl, hwrap, ?_, ?_⟩
    · simpa [keyed, hkdf] using hspendable
    · simpa [keyed, hkdf] using hwork
  | @next first wrap rest budget left kdf salt firstKek kek hkdf hspend hsalt hkek hclosed hrest ih =>
    obtain ⟨before, after, last, rfl, hwrap, hspendable, hwork⟩ := ih
    obtain ⟨hfirst, -, rfl⟩ := (derives_key_iff hsound _).mp ⟨salt, firstKek, hspend, hsalt, hkek⟩
    refine ⟨first :: before, after, last, rfl, hwrap, ?_, ?_⟩
    · simpa [keyed, hkdf] using ⟨hfirst, by simpa [keyed] using hspendable⟩
    · have hcons : keyed (first :: before) = kdf :: keyed before := by simp [keyed, hkdf]
      rw [hcons, List.cons_append, totalWork_cons]
      linarith

/-- An open comes to some wrap that decodes, no later than the one that can be paid for. -/
theorem derives_of_paid (hsound : Sound ciphers) (passphrase : String)
    {before : List WrappedKey} (after : List WrappedKey) (hkdf : wrap.kdf = some kdf) (hdecodes : Decodes wrap)
    (hspendable : ∀ k ∈ keyed before ++ [kdf], Spendable k)
    (hwork : totalWork (keyed before ++ [kdf]) ≤ budget) : ∃ reached kek,
      Derives ciphers passphrase (before ++ wrap :: after) budget reached kek ∧ Decodes reached := by
  induction before generalizing budget with
  | nil =>
    have hwork' : kdf.params.work ≤ budget := by simpa [keyed, totalWork] using hwork
    obtain ⟨salt, kek, hspend, hsalt, hkek⟩ := (derives_key_iff hsound passphrase).mpr
      ⟨hspendable kdf (by simp), hwork', rfl⟩
    exact ⟨wrap, kek, .here hkdf hspend hsalt hkek, hdecodes⟩
  | cons first before ih =>
    cases hfirst : first.kdf with
    | none =>
      have hskip : keyed (first :: before) = keyed before := by simp [keyed, hfirst]
      rw [hskip] at hspendable hwork
      obtain ⟨reached, kek, hderives, hreached⟩ := ih hspendable hwork
      exact ⟨reached, kek, .unkeyed hfirst hderives, hreached⟩
    | some k =>
      have hcons : keyed (first :: before) = k :: keyed before := by simp [keyed, hfirst]
      rw [hcons, List.cons_append] at hspendable hwork
      obtain ⟨hk, hrest⟩ := List.forall_mem_cons.mp hspendable
      rw [totalWork_cons] at hwork
      have hnonneg := totalWork_nonneg hrest
      obtain ⟨salt, firstKek, hspend, hsalt, hkek⟩ :=
        (derives_key_iff hsound passphrase).mpr ⟨hk, by linarith, rfl⟩
      by_cases hfirstDecodes : Decodes first
      · exact ⟨first, firstKek, .here hfirst hspend hsalt hkek, hfirstDecodes⟩
      · obtain ⟨reached, kek, hderives, hreached⟩ := ih hrest (le_sub_iff_add_le'.mpr hwork)
        exact ⟨reached, kek, .next hfirst hspend hsalt hkek (unwrapWith_of_undecoded hfirstDecodes)
          hderives, hreached⟩

theorem passphraseRoute_iff (hsound : Sound ciphers) (keyset : ContentKeySet) :
    PassphraseRoute ciphers keyset ↔ Payable (candidates keyset .passphrase none) := by
  constructor
  · intro ⟨passphrase, wrap, kek, hfew, hderives, hdecodes⟩
    obtain ⟨before, after, kdf, hwraps, hkdf, hspendable, hwork⟩ := hderives.paid hsound
    exact ⟨hfew, before, wrap, after, kdf, hwraps, hkdf, hdecodes, hspendable, hwork⟩
  · intro ⟨hfew, before, wrap, after, kdf, hwraps, hkdf, hdecodes, hspendable, hwork⟩
    obtain ⟨reached, kek, hderives, hreached⟩ :=
      derives_of_paid hsound "" after hkdf hdecodes hspendable hwork
    exact ⟨"", reached, kek, hfew, hwraps ▸ hderives, hreached⟩

theorem unwrapWithDevice_of_sole {keyHex : String} {label : Option String} {key : Bytes}
    (hkek : deviceWrapKey ciphers keyHex = .ok kek)
    (hsole : candidates keyset .device label = [wrap])
    (hopened : unwrapWith ciphers kek wrap = some key) :
    unwrapWithDevice ciphers keyset keyHex label = .ok key := by
  simp only [unwrapWithDevice, hkek, hsole, List.findSome?_cons, hopened]

theorem openVault_device_ok {keyHex : String} {label : Option String} {key : Bytes}
    (hm16 : assertM16 keyset.wraps = .ok ())
    (hopened : unwrapWithDevice ciphers keyset keyHex label = .ok key) :
    openVault ciphers keyset ⟨none, some (label, keyHex)⟩ = .ok key := by
  simp only [openVault, hm16, hopened, Except.mapError]

section UnpayableWrap

/-- A passphrase wrap whose memory no open allocates. -/
def heavyWrap : WrappedKey :=
  ⟨.passphrase, "passphrase", "00", "00",
    some ⟨toHex (List.replicate 16 3), ⟨4194304, 3, 1⟩⟩⟩

def phoneKey : Bytes := List.replicate 32 6

def phoneWrap : WrappedKey :=
  ⟨.device, "phone", toHex (List.replicate 24 8),
    toHex (openCiphers.encrypt phoneKey (List.replicate 24 8) [] oldKey), none⟩

theorem heavyWrap_usable : usable heavyWrap = true := by
  have hsalt : (toHex (List.replicate 16 3)).toList.length = 32 := by
    rw [toHex, String.toList_ofList, hexDigits_length, List.length_replicate]
  have hsafe : [4194304, 3, 1].all isPositiveSafeInteger = true := by decide +kernel
  simp only [usable, heavyWrap, Option.any_some, hsalt, hsafe]
  decide

theorem phone_opens : openVault openCiphers ⟨[heavyWrap, phoneWrap]⟩
    ⟨none, some (some "phone", toHex phoneKey)⟩ = .ok oldKey := by
  refine openVault_device_ok (if_pos (List.any_eq_true.mpr
    ⟨heavyWrap, List.mem_cons_self, heavyWrap_usable⟩)) ?_
  refine unwrapWithDevice_of_sole
    (deviceWrapKey_ok_iff.mpr ⟨phoneKey, fromHex_toHex _, by decide, rfl⟩)
    (by simp [candidates, heavyWrap, phoneWrap] : _ = [phoneWrap]) ?_
  exact (unwrapWith_eq openCiphers_sound).trans (if_pos rfl)

end UnpayableWrap

end Servanda.ContentKey
