import Servanda.RecordBinding

/-!
Sealing to a persona: single-shot encryption to its key of the curve, in the base mode, over the
primitives that the ciphers package brings.
-/

namespace Servanda.Hpke

open Unicode IdentityHash RecordBinding

/-- The curve, the key derivation and the cipher. A call on the curve throws on a key that it
refuses, and opening throws on what was not sealed. -/
structure Primitives where
  getPublicKey (privateKey : Bytes) : Option Bytes
  getSharedSecret (privateKey publicKey : Bytes) : Option Bytes
  extract (ikm salt : Bytes) : Bytes
  expand (prk info : Bytes) (length : ℕ) : Bytes
  encrypt (key nonce aad plaintext : Bytes) : Bytes
  decrypt (key nonce aad ciphertext : Bytes) : Option Bytes

def kemId : ℕ := 0x0020

def kdfId : ℕ := 0x0001

def aeadId : ℕ := 0x0003

def nSecret : ℕ := 32

def nk : ℕ := 32

def nn : ℕ := 12

def modeBase : UInt8 := 0x00

def hpkeV1 : Bytes := utf8 (text "HPKE-v1")

/-- A number in two octets, the higher first. -/
def i2osp2 (n : ℕ) : Bytes := [UInt8.ofNat (n / 256 % 256), UInt8.ofNat (n % 256)]

def kemSuiteId : Bytes := utf8 (text "KEM") ++ i2osp2 kemId

def hpkeSuiteId : Bytes := utf8 (text "HPKE") ++ i2osp2 kemId ++ i2osp2 kdfId ++ i2osp2 aeadId

structure Encapsulated where
  sharedSecret : Bytes
  enc : Bytes

structure Context where
  key : Bytes
  baseNonce : Bytes

section Schedule

variable (p : Primitives)

def labeledExtract (suiteId salt : Bytes) (label : Text) (ikm : Bytes) : Bytes :=
  p.extract (hpkeV1 ++ suiteId ++ utf8 label ++ ikm) salt

def labeledExpand (suiteId prk : Bytes) (label : Text) (info : Bytes) (length : ℕ) : Bytes :=
  p.expand prk (i2osp2 length ++ hpkeV1 ++ suiteId ++ utf8 label ++ info) length

def extractAndExpand (dh kemContext : Bytes) : Bytes :=
  let eaePrk := labeledExtract p kemSuiteId [] (text "eae_prk") dh
  labeledExpand p kemSuiteId eaePrk (text "shared_secret") kemContext nSecret

def encap (pkR skE : Bytes) : Option Encapsulated := do
  let enc ← p.getPublicKey skE
  let dh ← p.getSharedSecret skE pkR
  return { sharedSecret := extractAndExpand p dh (enc ++ pkR), enc }

def decap (enc skR : Bytes) : Option Bytes := do
  let dh ← p.getSharedSecret skR enc
  let pkR ← p.getPublicKey skR
  return extractAndExpand p dh (enc ++ pkR)

def keySchedule (sharedSecret info : Bytes) : Context :=
  let pskIdHash := labeledExtract p hpkeSuiteId [] (text "psk_id_hash") []
  let infoHash := labeledExtract p hpkeSuiteId [] (text "info_hash") info
  let keyScheduleContext := [modeBase] ++ pskIdHash ++ infoHash
  let secret := labeledExtract p hpkeSuiteId sharedSecret (text "secret") []
  { key := labeledExpand p hpkeSuiteId secret (text "key") keyScheduleContext nk
    baseNonce := labeledExpand p hpkeSuiteId secret (text "base_nonce") keyScheduleContext nn }

/-- The key of one use, `skE`, is fresh in every call. -/
def sealBase (pkR info aad plaintext skE : Bytes) : Option (Bytes × Bytes) := do
  let e ← encap p pkR skE
  let ctx := keySchedule p e.sharedSecret info
  return (e.enc, p.encrypt ctx.key ctx.baseNonce aad plaintext)

def openBase (enc skR info aad ciphertext : Bytes) : Option Bytes := do
  let ctx := keySchedule p (← decap p enc skR) info
  p.decrypt ctx.key ctx.baseNonce aad ciphertext

end Schedule

def infoLabel : Bytes := utf8 (text "servanda/0.1 blind-courier v2")

structure SealedForPersona where
  epk : Text
  ciphertext : Text
  deriving DecidableEq

def info (recipientPersonaId : Bytes) : Bytes := infoLabel ++ 0x00 :: recipientPersonaId

inductive SealError
  | malformedHex
  | unsealableRecipient (persona : Text)
  deriving DecidableEq

/-- The text of an error of this module. -/
def SealError.message : SealError → Option Text
  | malformedHex => none
  | unsealableRecipient persona =>
    some (text "persona " ++ persona.take 16 ++ text "… has no usable X25519 key")

section Personas

variable (p : Primitives)

def sealToPersona (recipientPersonaIdHex recipientDhKeyHex : Text) (plaintext aad skE : Bytes) :
    Except SealError SealedForPersona :=
  match unhex recipientPersonaIdHex with
  | none => .error .malformedHex
  | some recipientId =>
    match (unhex recipientDhKeyHex).bind fun pkR ↦
        sealBase p pkR (info recipientId) aad plaintext skE with
    | some (enc, ciphertext) => .ok ⟨hex enc, hex ciphertext⟩
    | none => .error (.unsealableRecipient recipientPersonaIdHex)

def openSealed (recipientDhPrivateKeyHex recipientPersonaIdHex : Text) (sent : SealedForPersona)
    (aad : Bytes) : Option Bytes := do
  let enc ← unhex sent.epk
  let skR ← unhex recipientDhPrivateKeyHex
  let recipientId ← unhex recipientPersonaIdHex
  let ciphertext ← unhex sent.ciphertext
  openBase p enc skR (info recipientId) aad ciphertext

def dhPublicKey (dhPrivateKeyHex : Text) : Option Text := do
  let sk ← unhex dhPrivateKeyHex
  let pk ← p.getPublicKey sk
  return hex pk

end Personas

/-- What is relied on of the primitives: both ends of the curve come to one secret, and the cipher
opens what it sealed, with the associated data it was sealed with. -/
structure Sound (p : Primitives) : Prop where
  agree {sk pk skE enc dh : Bytes} : p.getPublicKey sk = some pk → p.getPublicKey skE = some enc →
    p.getSharedSecret skE pk = some dh → p.getSharedSecret sk enc = some dh
  length_publicKey {sk pk : Bytes} : p.getPublicKey sk = some pk → pk.length = 32
  decrypt_encrypt (key nonce aad plaintext : Bytes) :
    p.decrypt key nonce aad (p.encrypt key nonce aad plaintext) = some plaintext
  bound {key nonce aad other plaintext opened : Bytes} :
    p.decrypt key nonce other (p.encrypt key nonce aad plaintext) = some opened → other = aad
  tagged (key nonce aad plaintext : Bytes) : p.encrypt key nonce aad plaintext ≠ []

section Opening

variable {p : Primitives} {pkR skR skE binding aad other plaintext enc ciphertext : Bytes}
  {persona dhKey dhPrivateKey : Text} {sent : SealedForPersona}

theorem sealBase_eq_some_iff : sealBase p pkR binding aad plaintext skE = some (enc, ciphertext) ↔
    ∃ e, encap p pkR skE = some e ∧ e.enc = enc ∧
      p.encrypt (keySchedule p e.sharedSecret binding).key
        (keySchedule p e.sharedSecret binding).baseNonce aad plaintext = ciphertext := by
  simp [sealBase, Option.bind_eq_some_iff]

/-- What the key's owner finds is the secret that the sender sealed under. -/
theorem decap_encap (hp : Sound p) (hkey : p.getPublicKey skR = some pkR) {e : Encapsulated}
    (h : encap p pkR skE = some e) : decap p e.enc skR = some e.sharedSecret := by
  simp only [encap, Option.bind_eq_bind, Option.bind_eq_some_iff] at h
  obtain ⟨enc, henc, dh, hdh, he⟩ := h
  cases he
  simp [decap, hp.agree hkey henc hdh, hkey]

/-- A sealed payload opens for the key it was sealed to, with the associated data it was sealed
with and with no other. -/
theorem openBase_sealBase (hp : Sound p) (hkey : p.getPublicKey skR = some pkR)
    (h : sealBase p pkR binding aad plaintext skE = some (enc, ciphertext)) :
    openBase p enc skR binding other ciphertext = if other = aad then some plaintext else none := by
  obtain ⟨e, he, rfl, rfl⟩ := sealBase_eq_some_iff.mp h
  simp only [openBase, decap_encap hp hkey he, Option.bind_eq_bind, Option.bind_some]
  by_cases hother : other = aad
  · rw [if_pos hother, hother, hp.decrypt_encrypt]
  · rw [if_neg hother, Option.eq_none_iff_forall_ne_some]
    exact fun opened hopened ↦ hother (hp.bound hopened)

theorem dhPublicKey_eq_some_iff : dhPublicKey p dhPrivateKey = some dhKey ↔
    ∃ skR pkR, unhex dhPrivateKey = some skR ∧ p.getPublicKey skR = some pkR ∧ hex pkR = dhKey := by
  rw [dhPublicKey, Option.bind_eq_bind, Option.bind_eq_some_iff]
  constructor
  · rintro ⟨skR, hskR, h⟩
    obtain ⟨pkR, hpkR, h⟩ := Option.bind_eq_some_iff.mp h
    exact ⟨skR, pkR, hskR, hpkR, Option.some.inj h⟩
  · rintro ⟨skR, pkR, hskR, hpkR, rfl⟩
    exact ⟨skR, hskR, Option.bind_eq_some_iff.mpr ⟨pkR, hpkR, rfl⟩⟩

theorem sealToPersona_eq_ok (h : sealToPersona p persona dhKey plaintext aad skE = .ok sent) :
    ∃ recipientId pkR enc ciphertext, unhex persona = some recipientId ∧ unhex dhKey = some pkR ∧
      sealBase p pkR (info recipientId) aad plaintext skE = some (enc, ciphertext) ∧
        sent = ⟨hex enc, hex ciphertext⟩ := by
  unfold sealToPersona at h
  cases hid : unhex persona with
  | none => simp [hid] at h
  | some recipientId =>
    cases hsealed : (unhex dhKey).bind fun pkR ↦
        sealBase p pkR (info recipientId) aad plaintext skE with
    | none => simp [hid, hsealed] at h
    | some pair =>
      obtain ⟨pkR, hpkR, hbase⟩ := Option.bind_eq_some_iff.mp hsealed
      simp only [hid, hsealed, Except.ok.injEq] at h
      exact ⟨recipientId, pkR, pair.1, pair.2, rfl, hpkR, hbase, h.symm⟩

theorem openSealed_sealToPersona (hp : Sound p) (hkey : dhPublicKey p dhPrivateKey = some dhKey)
    (h : sealToPersona p persona dhKey plaintext aad skE = .ok sent) :
    openSealed p dhPrivateKey persona sent other = if other = aad then some plaintext else none := by
  obtain ⟨skR, pkR, hskR, hpublic, rfl⟩ := dhPublicKey_eq_some_iff.mp hkey
  obtain ⟨recipientId, pk, enc, ciphertext, hid, hpk, hsealed, rfl⟩ := sealToPersona_eq_ok h
  rw [unhex_hex, Option.some.injEq] at hpk
  subst hpk
  simp only [openSealed, unhex_hex, hskR, hid, Option.bind_eq_bind, Option.bind_some]
  exact openBase_sealBase hp hpublic hsealed

/-- An encapsulated key has the octets of a key, and no ciphertext is empty. -/
theorem lengths_of_sealBase (hp : Sound p)
    (h : sealBase p pkR binding aad plaintext skE = some (enc, ciphertext)) :
    enc.length = 32 ∧ ciphertext ≠ [] := by
  obtain ⟨e, he, rfl, rfl⟩ := sealBase_eq_some_iff.mp h
  simp only [encap, Option.bind_eq_bind, Option.bind_eq_some_iff] at he
  obtain ⟨enc, henc, dh, -, he⟩ := he
  cases he
  exact ⟨hp.length_publicKey henc, hp.tagged _ _ _ _⟩

end Opening

end Servanda.Hpke
