import Servanda.PassphraseSlots

namespace Servanda

open ContentKey

namespace ContentKey

variable (ciphers : Ciphers)

/-- A passphrase wrap made anew, any other carried through. -/
def rewrapped (contentKey : Bytes) (passphrase : String) (params : Argon2idParams)
    (draw : Bytes × Bytes) (wrap : WrappedKey) : Except KeyError WrappedKey :=
  if wrap.kind = .passphrase then
    wrapForPassphrase ciphers contentKey passphrase wrap.label params draw.1 draw.2
  else .ok wrap

/-- `draw` gives the salt and the nonce of the wrap in each place. -/
def rewrapWraps (contentKey : Bytes) (passphrase : String) (params : Argon2idParams) :
    (ℕ → Bytes × Bytes) → List WrappedKey → Except KeyError (List WrappedKey)
  | _, [] => .ok []
  | draw, wrap :: rest => do
    let new ← rewrapped ciphers contentKey passphrase params (draw 0) wrap
    let wraps ← rewrapWraps contentKey passphrase params (fun i ↦ draw (i + 1)) rest
    .ok (new :: wraps)

def rewrapPassphrase (keyset : ContentKeySet) (passphrase : String) (params : Argon2idParams)
    (draw : ℕ → Bytes × Bytes) : Except KeyError ContentKeySet := do
  let contentKey ← unwrapWithPassphrase ciphers keyset passphrase none
  let wraps ← rewrapWraps ciphers contentKey passphrase params draw keyset.wraps
  sealContentKey wraps

/-- The same passphrases and device keys open the two keysets, to the same content key. -/
structure SameCredentials (keyset other : ContentKeySet) : Prop where
  passphrases : ∀ passphrase key, unwrapWithPassphrase ciphers keyset passphrase none = .ok key ↔
    unwrapWithPassphrase ciphers other passphrase none = .ok key
  devices : ∀ keyHex label key, unwrapWithDevice ciphers keyset keyHex label = .ok key ↔
    unwrapWithDevice ciphers other keyHex label = .ok key

end ContentKey

def OpenVault.upgradeKdf (ciphers : Ciphers) (vault : OpenVault) (passphrase : String)
    (params : Argon2idParams) (draw : ℕ → Bytes × Bytes) : OpenVault × Except KeyError Unit :=
  match rewrapPassphrase ciphers vault.keyset passphrase params draw with
  | .error e => (vault, .error e)
  | .ok keyset => ({ vault with keyset }, .ok ())

namespace ContentKey

variable {ciphers} {contentKey : Bytes} {passphrase : String} {params : Argon2idParams}
  {draw : ℕ → Bytes × Bytes} {keyset keyset' : ContentKeySet} {wraps wraps' : List WrappedKey}

theorem rewrapWraps_cons {wrap : WrappedKey} :
    rewrapWraps ciphers contentKey passphrase params draw (wrap :: wraps) = .ok wraps' ↔
      ∃ new rest, rewrapped ciphers contentKey passphrase params (draw 0) wrap = .ok new ∧
        rewrapWraps ciphers contentKey passphrase params (fun i ↦ draw (i + 1)) wraps = .ok rest ∧
        wraps' = new :: rest := by
  rw [rewrapWraps, OpenVault.bind_ok_iff]
  simp only [OpenVault.bind_ok_iff, Except.ok.injEq, @eq_comm _ wraps', exists_and_left]

/-- What a re-wrap leaves: the device wraps as they were, and in every passphrase slot a wrap for the
one passphrase. -/
theorem rewrapWraps_ok (hsound : Sound ciphers) (hdraw : ∀ i, minSaltBytes ≤ (draw i).1.length)
    (h : rewrapWraps ciphers contentKey passphrase params draw wraps = .ok wraps') :
    wraps'.filter (·.kind = .device) = wraps.filter (·.kind = .device) ∧
      ∃ slots, List.Forall₂ (PassphraseSlot.Writes ciphers contentKey) slots (passphraseWraps wraps') ∧
        slots.length = (passphraseWraps wraps).length ∧
        ∀ slot ∈ slots, slot.passphrase = passphrase := by
  induction wraps generalizing draw wraps' with
  | nil =>
    cases h
    exact ⟨rfl, [], .nil, rfl, by simp⟩
  | cons wrap wraps ih =>
    obtain ⟨new, rest, hnew, hrest, rfl⟩ := rewrapWraps_cons.mp h
    obtain ⟨hdevices, slots, hwrites, hlength, hsame⟩ := ih (fun i ↦ hdraw (i + 1)) hrest
    by_cases hkind : wrap.kind = .passphrase
    · rw [rewrapped, if_pos hkind] at hnew
      let slot : PassphraseSlot := ⟨passphrase, wrap.label, params, (draw 0).1, (draw 0).2⟩
      have hslot : slot.Writes ciphers contentKey new := ⟨hdraw 0, hnew⟩
      have hnewKind := hslot.kind hsound
      refine ⟨by simpa [hkind, hnewKind] using hdevices, slot :: slots, ?_, ?_, ?_⟩
      · simpa [passphraseWraps, hnewKind] using ⟨hslot, hwrites⟩
      · simpa [passphraseWraps, hkind] using hlength
      · exact List.forall_mem_cons.mpr ⟨rfl, hsame⟩
    · rw [rewrapped, if_neg hkind, Except.ok.injEq] at hnew
      subst hnew
      refine ⟨?_, slots, ?_, ?_, hsame⟩
      · simp only [List.filter_cons, hdevices]
      · simpa [passphraseWraps, hkind] using hwrites
      · simpa [passphraseWraps, hkind] using hlength

theorem candidates_device (keyset : ContentKeySet) (label : Option String) :
    candidates keyset .device label = (keyset.wraps.filter (·.kind = .device)).filter
      fun w ↦ label.all fun l ↦ decide (w.label = l) := by
  rw [candidates, List.filter_filter]
  exact List.filter_congr fun w _ ↦ by rw [Bool.decide_and, Bool.decide_eq_true, Bool.and_comm]

theorem unwrapWithDevice_congr (h : wraps'.filter (·.kind = .device) = wraps.filter (·.kind = .device))
    (keyHex : String) (label : Option String) : unwrapWithDevice ciphers ⟨wraps'⟩ keyHex label =
      unwrapWithDevice ciphers ⟨wraps⟩ keyHex label := by
  simp only [unwrapWithDevice, candidates_device, h]

theorem rewrapPassphrase_ok
    (h : rewrapPassphrase ciphers keyset passphrase params draw = .ok keyset') :
    ∃ contentKey, unwrapWithPassphrase ciphers keyset passphrase none = .ok contentKey ∧
      rewrapWraps ciphers contentKey passphrase params draw keyset.wraps = .ok keyset'.wraps := by
  obtain ⟨contentKey, hopened, h⟩ := OpenVault.bind_ok_iff.mp h
  obtain ⟨wraps, hwraps, h⟩ := OpenVault.bind_ok_iff.mp h
  unfold sealContentKey at h
  split_ifs at h
  cases h
  exact ⟨contentKey, hopened, hwraps⟩

/-- An open looks at one passphrase wrap at the least, and at no more than it may. -/
theorem candidates_of_opened
    (h : unwrapWithPassphrase ciphers keyset passphrase none = .ok contentKey) :
    passphraseWraps keyset.wraps ≠ [] ∧
      (passphraseWraps keyset.wraps).length ≤ maxPassphraseCandidates := by
  rw [unwrapWithPassphrase, candidates_passphrase] at h
  split_ifs at h with hcount
  refine ⟨fun hnil ↦ ?_, not_lt.mp hcount⟩
  rw [hnil] at h
  cases h

/-- The one passphrase opens what is re-wrapped, whatever it costs to open, and no other does. -/
theorem rewrapped_opens_iff (hsound : Sound ciphers) (hdraw : ∀ i, minSaltBytes ≤ (draw i).1.length)
    (hopened : unwrapWithPassphrase ciphers keyset passphrase none = .ok contentKey)
    (hwraps : rewrapWraps ciphers contentKey passphrase params draw keyset.wraps = .ok wraps')
    (other : String) (key : Bytes) :
    unwrapWithPassphrase ciphers ⟨wraps'⟩ other none = .ok key ↔
      other = passphrase ∧ key = contentKey := by
  obtain ⟨-, slots, hwrites, hlength, hsame⟩ := rewrapWraps_ok hsound hdraw hwraps
  obtain ⟨hne, hcount⟩ := candidates_of_opened hopened
  rw [unwrapWithPassphrase_slots hsound hwrites (hlength ▸ hcount)]
  cases slots with
  | nil => exact absurd (List.length_eq_zero_iff.mp hlength.symm) hne
  | cons slot slots =>
    obtain ⟨wrap, rest, hslot, -, -⟩ := List.forall₂_cons_left_iff.mp hwrites
    have hwork := (conforming_ceilings (hslot.strong hsound).conforming).2
    have hfirst := hsame slot List.mem_cons_self
    constructor
    · rintro ⟨hkey, ⟨s, hs, rfl⟩, -⟩
      exact ⟨hsame s hs, hkey⟩
    · rintro ⟨rfl, hkey⟩
      refine ⟨hkey, ⟨slot, List.mem_cons_self, hfirst⟩, ?_⟩
      rwa [workTo, if_pos hfirst.symm, add_zero]

theorem rewrapWraps_isOk (hsound : Sound ciphers) (hdraw : ∀ i, minSaltBytes ≤ (draw i).1.length)
    (hstrong : StrongPassphrase passphrase params) (contentKey : Bytes) (wraps : List WrappedKey) :
    ∃ wraps', rewrapWraps ciphers contentKey passphrase params draw wraps = .ok wraps' := by
  induction wraps generalizing draw with
  | nil => exact ⟨[], rfl⟩
  | cons wrap wraps ih =>
    obtain ⟨rest, hrest⟩ := ih fun i ↦ hdraw (i + 1)
    have hsalt : 8 ≤ (draw 0).1.length := le_trans (by decide) (hdraw 0)
    obtain ⟨kek, hkek⟩ := Option.isSome_iff_exists.mp ((hsound.argon2id_isSome
      (Crypto.utf8 passphrase.toList) params hsalt).mpr hstrong.runs)
    obtain ⟨new, hnew⟩ : ∃ new,
        rewrapped ciphers contentKey passphrase params (draw 0) wrap = .ok new := by
      unfold rewrapped
      split_ifs
      · exact ⟨_, (wrapForPassphrase_ok_iff hsound hsalt).mpr ⟨hstrong, kek, hkek, rfl⟩⟩
      · exact ⟨wrap, rfl⟩
    exact ⟨new :: rest, rewrapWraps_cons.mpr ⟨new, rest, hnew, hrest, rfl⟩⟩

/-- A re-wrap returns where the passphrase opens the keyset and can be wrapped for at the cost. -/
theorem rewrapPassphrase_isOk (hsound : Sound ciphers)
    (hdraw : ∀ i, minSaltBytes ≤ (draw i).1.length) (hstrong : StrongPassphrase passphrase params)
    (hopened : unwrapWithPassphrase ciphers keyset passphrase none = .ok contentKey) :
    ∃ keyset', rewrapPassphrase ciphers keyset passphrase params draw = .ok keyset' := by
  obtain ⟨wraps', hwraps⟩ := rewrapWraps_isOk hsound hdraw hstrong contentKey keyset.wraps
  obtain ⟨-, slots, hwrites, hlength, -⟩ := rewrapWraps_ok hsound hdraw hwraps
  have hne : slots ≠ [] := by
    rintro rfl
    exact (candidates_of_opened hopened).1 (List.length_eq_zero_iff.mp hlength.symm)
  exact ⟨_, OpenVault.bind_ok_iff.mpr ⟨contentKey, hopened, OpenVault.bind_ok_iff.mpr
    ⟨wraps', hwraps, sealContentKey_slots hsound hwrites hne⟩⟩⟩

/-- A re-wrap changes no credential exactly when no other passphrase opened the keyset before it. -/
theorem rewrap_sameCredentials_iff (hsound : Sound ciphers)
    (hdraw : ∀ i, minSaltBytes ≤ (draw i).1.length)
    (h : rewrapPassphrase ciphers keyset passphrase params draw = .ok keyset') :
    SameCredentials ciphers keyset keyset' ↔
      ∀ other key, unwrapWithPassphrase ciphers keyset other none = .ok key → other = passphrase := by
  obtain ⟨contentKey, hopened, hwraps⟩ := rewrapPassphrase_ok h
  have hnew (other : String) (key : Bytes) :=
    rewrapped_opens_iff hsound hdraw hopened hwraps other key
  constructor
  · intro hsame other key hother
    exact ((hnew other key).mp ((hsame.passphrases other key).mp hother)).1
  · refine fun honly ↦ ⟨fun other key ↦ ⟨fun hother ↦ ?_, fun hother ↦ ?_⟩, fun keyHex label key ↦ ?_⟩
    · obtain rfl := honly other key hother
      exact (hnew other key).mpr ⟨rfl, Except.ok.inj (hother.symm.trans hopened)⟩
    · obtain ⟨rfl, rfl⟩ := (hnew other key).mp hother
      exact hopened
    · have hdevices := (rewrapWraps_ok hsound hdraw hwraps).1
      exact (congrArg (· = .ok key) (unwrapWithDevice_congr hdevices keyHex label)).to_iff.symm

theorem upgradeKdf_keyset {vault vault' : OpenVault}
    (h : vault.upgradeKdf ciphers passphrase params draw = (vault', .ok ())) :
    rewrapPassphrase ciphers vault.keyset passphrase params draw = .ok vault'.keyset ∧
      vault' = { vault with keyset := vault'.keyset } := by
  unfold OpenVault.upgradeKdf at h
  split at h
  · cases h
  next keyset hkeyset =>
    cases h
    exact ⟨hkeyset, rfl⟩

section RecoverySlot

def keysetOf (passphrases : List String) : ContentKeySet :=
  ⟨passphrases.map fun p ↦ wrapOf (slotFor Argon2idParams.constrained p)⟩

def freshDraw (_ : ℕ) : Bytes × Bytes := (List.replicate 16 7, List.replicate 24 8)

theorem theWords_strong : StrongPassphrase "the words" Argon2idParams.desktop :=
  ⟨by decide, by decide +kernel, by decide +kernel⟩

theorem keysetOf_opens {passphrases : List String}
    (h : ∀ p ∈ passphrases, StrongPassphrase p Argon2idParams.constrained)
    (hcount : passphrases.length ≤ maxPassphraseCandidates) (passphrase : String) (key : Bytes) :
    unwrapWithPassphrase openCiphers (keysetOf passphrases) passphrase none = .ok key ↔
      key = oldKey ∧ (∃ slot ∈ passphrases.map (slotFor Argon2idParams.constrained),
          slot.passphrase = passphrase) ∧
        workTo passphrase (passphrases.map (slotFor Argon2idParams.constrained)) ≤ maxUnwrapWork :=
  unwrapWithPassphrase_slots openCiphers_sound (wrapsOf_writes h) (by simpa using hcount) _ _

theorem one_slot_upgraded : ∃ keyset', rewrapPassphrase openCiphers (keysetOf ["the words"])
      "the words" Argon2idParams.desktop freshDraw = .ok keyset' ∧
    SameCredentials openCiphers (keysetOf ["the words"]) keyset' := by
  have hopens := @keysetOf_opens ["the words"] (fun p hp ↦ twoWords_strong p (by simp_all)) (by decide)
  have hdraw (i : ℕ) : minSaltBytes ≤ (freshDraw i).1.length := by simp [freshDraw, minSaltBytes]
  obtain ⟨keyset', h⟩ := rewrapPassphrase_isOk openCiphers_sound hdraw theWords_strong
    ((hopens "the words" oldKey).mpr ⟨rfl, by simp [slotFor], by decide +kernel⟩)
  refine ⟨keyset', h, (rewrap_sameCredentials_iff openCiphers_sound hdraw h).mpr ?_⟩
  intro other key hother
  obtain ⟨-, ⟨slot, hslot, rfl⟩, -⟩ := (hopens other key).mp hother
  simp only [List.map_cons, List.map_nil, List.mem_singleton] at hslot
  rw [hslot, slotFor]

/-- A raise of the cost under the words takes the recovery words' slot from them. -/
theorem recovery_words_lost : ¬∀ (ciphers : Ciphers) (keyset keyset' : ContentKeySet)
    (passphrase : String) (params : Argon2idParams) (draw : ℕ → Bytes × Bytes), Sound ciphers →
    (∀ i, minSaltBytes ≤ (draw i).1.length) →
    rewrapPassphrase ciphers keyset passphrase params draw = .ok keyset' →
    SameCredentials ciphers keyset keyset' := by
  intro h
  have hopens := @keysetOf_opens ["the words", "the recovery words"] twoWords_strong (by decide)
  have hdraw (i : ℕ) : minSaltBytes ≤ (freshDraw i).1.length := by simp [freshDraw, minSaltBytes]
  have hwords := (hopens "the words" oldKey).mpr ⟨rfl, by simp [slotFor], by decide +kernel⟩
  have hrecovery := (hopens "the recovery words" oldKey).mpr
    ⟨rfl, by simp [slotFor], by decide +kernel⟩
  obtain ⟨keyset', hrewrap⟩ :=
    rewrapPassphrase_isOk openCiphers_sound hdraw theWords_strong hwords
  have hsame := h _ _ _ _ _ _ openCiphers_sound hdraw hrewrap
  obtain ⟨contentKey, hopened, hwraps⟩ := rewrapPassphrase_ok hrewrap
  have hlost := (rewrapped_opens_iff openCiphers_sound hdraw hopened hwraps "the recovery words"
    oldKey).mp ((hsame.passphrases _ _).mp hrecovery)
  exact absurd hlost.1 (by decide)

end RecoverySlot

end ContentKey

end Servanda
