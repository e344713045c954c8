import Mathlib.Data.List.Forall2
import Servanda.Rekey

namespace Servanda.ContentKey

/-- What a passphrase wrap is made with. -/
structure PassphraseSlot where
  passphrase : String
  label : String
  params : Argon2idParams
  salt : Bytes
  nonce : Bytes

def PassphraseSlot.Writes (ciphers : Ciphers) (contentKey : Bytes) (slot : PassphraseSlot)
    (wrap : WrappedKey) : Prop :=
  minSaltBytes ≤ slot.salt.length ∧ wrapForPassphrase ciphers contentKey slot.passphrase slot.label
    slot.params slot.salt slot.nonce = .ok wrap

def passphraseWraps (wraps : List WrappedKey) : List WrappedKey :=
  wraps.filter (·.kind = .passphrase)

/-- What an open with the passphrase spends until the first slot that it opens. -/
def workTo (passphrase : String) : List PassphraseSlot → ℚ
  | [] => 0
  | slot :: rest =>
    slot.params.work + if passphrase = slot.passphrase then 0 else workTo passphrase rest

variable {ciphers : Ciphers} {contentKey : Bytes} {slot : PassphraseSlot} {wrap : WrappedKey}
  {slots : List PassphraseSlot} {wraps : List WrappedKey}

theorem Argon2idRuns.work_pos {params : Argon2idParams} (h : Argon2idRuns params) :
    0 < params.work := by
  have hm : 0 < params.m := by linarith [h.memory.1, h.lanes.1]
  exact mul_pos (mul_pos hm (by linarith [h.passes.1])) (by linarith [h.lanes.1])

theorem candidates_passphrase (keyset : ContentKeySet) :
    candidates keyset .passphrase none = passphraseWraps keyset.wraps := by
  simp [candidates, passphraseWraps]

theorem PassphraseSlot.Writes.strong (hsound : Sound ciphers) (h : slot.Writes ciphers contentKey wrap) :
    StrongPassphrase slot.passphrase slot.params :=
  ((wrapForPassphrase_ok_iff hsound (le_trans (by decide) h.1)).mp h.2).1

theorem PassphraseSlot.Writes.kind (hsound : Sound ciphers)
    (h : slot.Writes ciphers contentKey wrap) : wrap.kind = .passphrase := by
  obtain ⟨-, kek, -, rfl⟩ := (wrapForPassphrase_ok_iff hsound (le_trans (by decide) h.1)).mp h.2
  rfl

theorem PassphraseSlot.Writes.work_pos (hsound : Sound ciphers)
    (h : slot.Writes ciphers contentKey wrap) : 0 < slot.params.work :=
  (h.strong hsound).runs.work_pos

theorem workTo_nonneg (hsound : Sound ciphers) (passphrase : String)
    (h : List.Forall₂ (PassphraseSlot.Writes ciphers contentKey) slots wraps) :
    0 ≤ workTo passphrase slots := by
  induction h with
  | nil => exact le_rfl
  | cons hslot hrest ih =>
    have := hslot.work_pos hsound
    unfold workTo
    split_ifs <;> linarith

/-- The open finds the content key exactly where some slot answers to the passphrase and the budget
reaches the first that does. -/
theorem openPassphraseWraps_slots (hsound : Sound ciphers)
    (h : List.Forall₂ (PassphraseSlot.Writes ciphers contentKey) slots wraps) (passphrase : String)
    (budget : ℚ) (key : Bytes) :
    openPassphraseWraps ciphers passphrase wraps budget = .ok key ↔
      key = contentKey ∧ (∃ slot ∈ slots, slot.passphrase = passphrase) ∧
        workTo passphrase slots ≤ budget := by
  induction h generalizing budget with
  | nil => simp [openPassphraseWraps]
  | @cons slot wrap slots wraps hslot hrest ih =>
    have hnonneg := workTo_nonneg hsound passphrase hrest
    rw [openPassphraseWraps_cons hsound hslot.1 hslot.2]
    unfold workTo
    by_cases hbudget : budget < slot.params.work
    · rw [if_pos hbudget]
      apply iff_of_false (by simp)
      intro h
      obtain ⟨_, _, hwork⟩ := h
      split_ifs at hwork <;> linarith
    rw [if_neg hbudget]
    by_cases hsame : passphrase = slot.passphrase
    · rw [if_pos hsame, if_pos hsame, Except.ok.injEq, add_zero]
      exact ⟨fun hkey ↦ ⟨hkey.symm, ⟨slot, List.mem_cons_self, hsame.symm⟩, not_lt.mp hbudget⟩,
        fun hkey ↦ hkey.1.symm⟩
    · rw [if_neg hsame, if_neg hsame, ih, le_sub_iff_add_le']
      simp [Ne.symm hsame]

theorem unwrapWithPassphrase_slots (hsound : Sound ciphers)
    (h : List.Forall₂ (PassphraseSlot.Writes ciphers contentKey) slots (passphraseWraps wraps))
    (hcount : slots.length ≤ maxPassphraseCandidates) (passphrase : String) (key : Bytes) :
    unwrapWithPassphrase ciphers ⟨wraps⟩ passphrase none = .ok key ↔
      key = contentKey ∧ (∃ slot ∈ slots, slot.passphrase = passphrase) ∧
        workTo passphrase slots ≤ maxUnwrapWork := by
  rw [h.length_eq] at hcount
  rw [unwrapWithPassphrase, candidates_passphrase, if_neg (not_lt.mpr hcount)]
  exact openPassphraseWraps_slots hsound h passphrase _ key

theorem sealContentKey_slots (hsound : Sound ciphers)
    (h : List.Forall₂ (PassphraseSlot.Writes ciphers contentKey) slots (passphraseWraps wraps))
    (hne : slots ≠ []) : sealContentKey wraps = .ok ⟨wraps⟩ := by
  obtain ⟨slot, slots, rfl⟩ := List.exists_cons_of_ne_nil hne
  obtain ⟨wrap, rest, hslot, -, hwraps⟩ := List.forall₂_cons_left_iff.mp h
  have hmem : wrap ∈ passphraseWraps wraps := hwraps ▸ List.mem_cons_self
  rw [sealContentKey, if_pos]
  exact List.any_eq_true.mpr ⟨wrap, List.mem_of_mem_filter hmem,
    usable_of_wrapForPassphrase hsound hslot.1 hslot.2⟩

/-- A keyset that this code wrote opens with each of its passphrases exactly when the slots up to the
first of each passphrase cost no more together than one open may spend. -/
theorem opens_iff_affordable (hsound : Sound ciphers)
    (hwrites : List.Forall₂ (PassphraseSlot.Writes ciphers contentKey) slots
      (passphraseWraps wraps))
    (hne : slots ≠ []) (hcount : slots.length ≤ maxPassphraseCandidates) :
    ∃ keyset, sealContentKey wraps = .ok keyset ∧
      ((∀ slot ∈ slots,
          unwrapWithPassphrase ciphers keyset slot.passphrase none = .ok contentKey) ↔
        ∀ slot ∈ slots, workTo slot.passphrase slots ≤ maxUnwrapWork) := by
  refine ⟨⟨wraps⟩, sealContentKey_slots hsound hwrites hne, forall₂_congr fun slot hslot ↦ ?_⟩
  rw [unwrapWithPassphrase_slots hsound hwrites hcount]
  simp only [true_and, and_iff_right_iff_imp]
  exact fun _ ↦ ⟨slot, hslot, rfl⟩

section ThreeSlots

def slotFor (params : Argon2idParams) (passphrase : String) : PassphraseSlot :=
  ⟨passphrase, "passphrase", params, List.replicate 16 3, List.replicate 24 4⟩

def wrapOf (slot : PassphraseSlot) : WrappedKey :=
  ⟨.passphrase, slot.label, toHex slot.nonce,
    toHex (openCiphers.encrypt (Crypto.utf8 slot.passphrase.toList) slot.nonce [] oldKey),
    some ⟨toHex slot.salt, slot.params⟩⟩

theorem wrapOf_writes {params : Argon2idParams} {passphrase : String}
    (h : StrongPassphrase passphrase params) :
    (slotFor params passphrase).Writes openCiphers oldKey (wrapOf (slotFor params passphrase)) := by
  refine ⟨by simp [slotFor, minSaltBytes], ?_⟩
  exact (wrapForPassphrase_ok_iff openCiphers_sound (by simp [slotFor])).mpr
    ⟨h, _, if_pos h.runs, rfl⟩

theorem wrapsOf_writes {params : Argon2idParams} {passphrases : List String}
    (h : ∀ passphrase ∈ passphrases, StrongPassphrase passphrase params) :
    List.Forall₂ (PassphraseSlot.Writes openCiphers oldKey) (passphrases.map (slotFor params))
      (passphraseWraps (passphrases.map fun p ↦ wrapOf (slotFor params p))) := by
  have hall : passphraseWraps (passphrases.map fun p ↦ wrapOf (slotFor params p)) =
      passphrases.map fun p ↦ wrapOf (slotFor params p) := by
    apply List.filter_eq_self.mpr
    intro wrap hwrap
    obtain ⟨p, -, rfl⟩ := List.mem_map.mp hwrap
    rfl
  rw [hall, List.forall₂_map_left_iff, List.forall₂_map_right_iff, List.forall₂_same]
  exact fun p hp ↦ wrapOf_writes (h p hp)

theorem twoWords_strong : ∀ passphrase ∈ ["the words", "the recovery words"],
    StrongPassphrase passphrase Argon2idParams.constrained := by
  intro passphrase hp
  simp only [List.mem_cons, List.not_mem_nil, or_false] at hp
  rcases hp with rfl | rfl <;> exact ⟨by decide, by decide +kernel, by decide +kernel⟩

theorem two_slots_open : ∃ keyset,
    sealContentKey (["the words", "the recovery words"].map fun p ↦
      wrapOf (slotFor Argon2idParams.constrained p)) = .ok keyset ∧
    ∀ slot ∈ ["the words", "the recovery words"].map (slotFor Argon2idParams.constrained),
      unwrapWithPassphrase openCiphers keyset slot.passphrase none = .ok oldKey := by
  obtain ⟨keyset, hkeyset, hopens⟩ := opens_iff_affordable openCiphers_sound
    (wrapsOf_writes twoWords_strong) (by simp) (by decide)
  exact ⟨keyset, hkeyset, hopens.mpr (by decide +kernel)⟩

/-- Three slots at today's cost: the third passphrase never gets its turn. -/
theorem third_slot_refused : ¬∀ (ciphers : Ciphers) (contentKey : Bytes) (slots : List PassphraseSlot)
    (wraps : List WrappedKey) (keyset : ContentKeySet), Sound ciphers →
    List.Forall₂ (PassphraseSlot.Writes ciphers contentKey) slots (passphraseWraps wraps) →
    slots ≠ [] → slots.length ≤ maxPassphraseCandidates → sealContentKey wraps = .ok keyset →
    ∀ slot ∈ slots,
      unwrapWithPassphrase ciphers keyset slot.passphrase none = .ok contentKey := by
  intro h
  have hwrites : List.Forall₂ (PassphraseSlot.Writes openCiphers oldKey)
      (["first", "second", "third"].map (slotFor Argon2idParams.desktop))
      (passphraseWraps (["first", "second", "third"].map fun p ↦
        wrapOf (slotFor Argon2idParams.desktop p))) := by
    apply wrapsOf_writes
    intro passphrase hp
    simp only [List.mem_cons, List.not_mem_nil, or_false] at hp
    rcases hp with rfl | rfl | rfl <;>
      exact ⟨by decide, by decide +kernel, by decide +kernel⟩
  have hopens := h _ _ _ _ _ openCiphers_sound hwrites (by simp) (by decide)
    (sealContentKey_slots openCiphers_sound hwrites (by simp))
    (slotFor Argon2idParams.desktop "third") (by simp)
  rw [unwrapWithPassphrase_slots openCiphers_sound hwrites (by decide)] at hopens
  exact absurd hopens.2.2 (by decide +kernel)

end ThreeSlots

end Servanda.ContentKey
