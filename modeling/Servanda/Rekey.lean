import Mathlib.Logic.Function.Basic
import Servanda.ContentKey

namespace Servanda

open ContentKey

/-- A value as the JSON text it is sealed as. -/
class JsonText (Value : Type) where
  stringify : Value → Bytes
  parse : Bytes → Option Value
  parse_stringify (value : Value) : parse (stringify value) = some value

structure SealedBlob where
  nonce : String
  ciphertext : String
  deriving DecidableEq

/-- A file of type `vault_record`. The blob is missing where its members are no strings. -/
structure SealedRecord where
  kind : String
  blob : Option SealedBlob
  deriving DecidableEq

inductive VaultFile
  | notJson
  | record (r : SealedRecord)
  /-- JSON of another type, as the keyset and the descriptor are. -/
  | other
  deriving DecidableEq

/-- A path below the vault's directory, by its segments. -/
abbrev VaultPath := List String

/-- What the walk over the directory takes up: JSON files by their name, none that starts with a
dot, and nothing below `.git`. -/
def isWalked (path : VaultPath) : Bool :=
  path.getLast?.any (fun name ↦ ".json".toList.isSuffixOf name.toList &&
    !".".toList.isPrefixOf name.toList) && path.head? != some ".git"

/-- An open vault: its directory, its `keyset.json`, and the content key of the live handle. -/
structure OpenVault where
  paths : List VaultPath
  paths_nodup : paths.Nodup
  file : VaultPath → VaultFile
  keyset : ContentKeySet
  contentKey : Bytes

structure DeviceKey where
  label : String
  keyHex : String
  deriving DecidableEq

structure RekeyOptions where
  passphrase : String
  deviceKeys : List DeviceKey
  kdf : Option Argon2idParams

structure RekeyReport where
  resealed : ℕ
  deviceLabelsBefore : List String
  deviceLabelsAfter : List String
  deriving DecidableEq

inductive RekeyError
  | wrongPassphrase (cause : KeyError)
  | notReadableJson (path : VaultPath)
  | recordDidNotOpen (path : VaultPath)
  | refused (e : KeyError)
  deriving DecidableEq

structure Randomness where
  contentKey : Bytes
  recordNonce : VaultPath → Bytes
  salt : Bytes
  passphraseNonce : Bytes
  deviceNonce : ℕ → Bytes

structure OpenedRecord (Value : Type) where
  path : VaultPath
  kind : String
  value : Value
  deriving DecidableEq

/-- What authenticates a record's place and role. -/
def recordBinding (path : VaultPath) (kind : String) : Bytes :=
  Crypto.utf8 ("servanda/0.2 vault-record".toList ++ [Char.ofNat 0] ++ kind.toList ++ [Char.ofNat 0] ++
    ("/".intercalate path).toList)

namespace OpenVault

variable {Value : Type} [JsonText Value] (ciphers : Ciphers) (random : Randomness) (vault : OpenVault)

def sealRecord (contentKey nonce : Bytes) (path : VaultPath) (kind : String) (value : Value) :
    SealedRecord where
  kind := kind
  blob := some ⟨toHex nonce, toHex (ciphers.encrypt contentKey nonce (recordBinding path kind)
    (JsonText.stringify value))⟩

def openRecord (Value : Type) [JsonText Value] (contentKey : Bytes) (path : VaultPath)
    (record : SealedRecord) : Option Value := do
  let blob ← record.blob
  let nonce ← fromHex blob.nonce
  let ciphertext ← fromHex blob.ciphertext
  let plaintext ← ciphers.decrypt contentKey nonce (recordBinding path record.kind) ciphertext
  JsonText.parse plaintext

def readSealed (Value : Type) [JsonText Value] (contentKey : Bytes) (path : VaultPath) :
    Option Value :=
  match vault.file path with
  | .record r => openRecord ciphers Value contentKey path r
  | _ => none

def writeSealed (contentKey nonce : Bytes) (path : VaultPath) (kind : String) (value : Value) :
    OpenVault :=
  { vault with
    file := Function.update vault.file path
      (.record (sealRecord ciphers contentKey nonce path kind value)) }

/-- The sealed records among the paths, by what each file says that it is. -/
def recordsAmong : List VaultPath → Except RekeyError (List (VaultPath × SealedRecord))
  | [] => .ok []
  | path :: rest =>
    match vault.file path with
    | .notJson => .error (.notReadableJson path)
    | .record r => (recordsAmong rest).map ((path, r) :: ·)
    | .other => recordsAmong rest

def sealedRecordPaths : Except RekeyError (List (VaultPath × SealedRecord)) :=
  vault.recordsAmong (vault.paths.filter isWalked)

def openAll (Value : Type) [JsonText Value] :
    List (VaultPath × SealedRecord) → Except RekeyError (List (OpenedRecord Value))
  | [] => .ok []
  | (path, r) :: rest =>
    match vault.readSealed ciphers Value vault.contentKey path with
    | none => .error (.recordDidNotOpen path)
    | some value => (openAll Value rest).map (⟨path, r.kind, value⟩ :: ·)

def profileOf (keyset : ContentKeySet) : Argon2idParams :=
  (kdfProfileOf keyset).getD Argon2idParams.desktop

def deviceLabels (wraps : List WrappedKey) : List String :=
  (wraps.filter (·.kind = .device)).map (·.label)

def deviceWraps (contentKey : Bytes) (nonce : ℕ → Bytes) :
    List DeviceKey → Except KeyError (List WrappedKey)
  | [] => .ok []
  | d :: rest => do
    let wrap ← wrapForDevice ciphers contentKey d.keyHex d.label (nonce 0)
    let wraps ← deviceWraps contentKey (fun i ↦ nonce (i + 1)) rest
    .ok (wrap :: wraps)

def newWraps (opts : RekeyOptions) : Except KeyError (List WrappedKey) := do
  let wrap ← wrapForPassphrase ciphers random.contentKey opts.passphrase "passphrase"
    (opts.kdf.getD (profileOf vault.keyset)) random.salt random.passphraseNonce
  let wraps ← deviceWraps ciphers random.contentKey random.deviceNonce opts.deviceKeys
  .ok (wrap :: wraps)

def resealAll (opened : List (OpenedRecord Value)) : OpenVault :=
  opened.foldl (fun vault r ↦
    vault.writeSealed ciphers random.contentKey (random.recordNonce r.path) r.path r.kind r.value)
    vault

/-- The vault as the call leaves it, also where it throws. -/
def rekey (Value : Type) [JsonText Value] (opts : RekeyOptions) :
    OpenVault × Except RekeyError RekeyReport :=
  match unwrapWithPassphrase ciphers vault.keyset opts.passphrase none with
  | .error cause => (vault, .error (.wrongPassphrase cause))
  | .ok _ =>
    match vault.sealedRecordPaths.bind (vault.openAll ciphers Value) with
    | .error e => (vault, .error e)
    | .ok opened =>
      let resealed := vault.resealAll ciphers random opened
      match vault.newWraps ciphers random opts with
      | .error e => (resealed, .error (.refused e))
      | .ok wraps =>
        match sealContentKey wraps with
        | .error e => (resealed, .error (.refused e))
        | .ok keyset => ({ resealed with keyset, contentKey := random.contentKey },
            .ok ⟨opened.length, deviceLabels vault.keyset.wraps, deviceLabels wraps⟩)

def SealedAt (path : VaultPath) : Prop :=
  path ∈ vault.paths ∧ isWalked path = true ∧ ∃ r, vault.file path = .record r

/-- A call that throws leaves the directory and the handle as they were. One that returns keeps every
record, under a key that the passphrase and the named device keys open, and nothing else does. -/
structure AllOrNothing (Value : Type) [JsonText Value] (opts : RekeyOptions)
    (call : OpenVault × Except RekeyError RekeyReport) : Prop where
  undone : ∀ e, call.2 = .error e → call.1.keyset = vault.keyset ∧ ∀ path, vault.SealedAt path →
    call.1.file path = vault.file path ∧
      call.1.readSealed ciphers Value call.1.contentKey path =
        vault.readSealed ciphers Value vault.contentKey path
  kept : ∀ report, call.2 = .ok report → ∀ path, vault.SealedAt path → ∀ value,
    vault.readSealed ciphers Value vault.contentKey path = some value →
    call.1.SealedAt path ∧ call.1.readSealed ciphers Value call.1.contentKey path = some value
  opens : ∀ report, call.2 = .ok report →
    unwrapWithPassphrase ciphers call.1.keyset opts.passphrase none = .ok call.1.contentKey ∧
      ∀ d ∈ opts.deviceKeys, ∀ label, label = none ∨ label = some d.label →
        unwrapWithDevice ciphers call.1.keyset d.keyHex label = .ok call.1.contentKey
  revoked : ∀ report, call.2 = .ok report → ∀ label key,
    (∀ passphrase, passphrase ≠ opts.passphrase →
      unwrapWithPassphrase ciphers call.1.keyset passphrase label ≠ .ok key) ∧
    ∀ keyHex, (∀ d ∈ opts.deviceKeys, fromHex d.keyHex ≠ fromHex keyHex) →
      unwrapWithDevice ciphers call.1.keyset keyHex label ≠ .ok key

/-- The call refuses before it writes: the passphrase is not this vault's, a JSON file does not parse,
or a record does not open. -/
def RefusedFirst (Value : Type) [JsonText Value] (opts : RekeyOptions) : Prop :=
  (∃ cause, unwrapWithPassphrase ciphers vault.keyset opts.passphrase none = .error cause) ∨
    ∃ e, vault.sealedRecordPaths.bind (vault.openAll ciphers Value) = .error e

structure Wrappable (opts : RekeyOptions) : Prop where
  passphrase : StrongPassphrase opts.passphrase (opts.kdf.getD (profileOf vault.keyset))
  devices : ∀ d ∈ opts.deviceKeys, StrongDeviceKey d.keyHex

variable {ciphers random vault} {path : VaultPath} {opts : RekeyOptions} {contentKey nonce : Bytes}
  {kind : String} {value : Value}

theorem openRecord_sealRecord (hsound : Sound ciphers) :
    openRecord ciphers Value contentKey path
      (sealRecord ciphers contentKey nonce path kind value) = some value := by
  simp [openRecord, sealRecord, hsound.decrypt_encrypt, JsonText.parse_stringify]

theorem openRecord_sealRecord_of_ne (hsound : Sound ciphers) {other : Bytes}
    (hne : other ≠ contentKey) : openRecord ciphers Value other path
      (sealRecord ciphers contentKey nonce path kind value) = none := by
  have hclosed : ciphers.decrypt other nonce (recordBinding path kind) (ciphers.encrypt contentKey
      nonce (recordBinding path kind) (JsonText.stringify value)) = none := by
    by_contra hopened
    obtain ⟨opened, hopened⟩ := Option.ne_none_iff_exists'.mp hopened
    exact hne (hsound.committing hopened)
  simp [openRecord, sealRecord, hclosed]

theorem recordsAmong_ok {paths : List VaultPath} {records : List (VaultPath × SealedRecord)}
    (h : vault.recordsAmong paths = .ok records) : (records.map Prod.fst).Sublist paths ∧
      ∀ path r, (path, r) ∈ records ↔ path ∈ paths ∧ vault.file path = .record r := by
  induction paths generalizing records with
  | nil =>
    cases h
    exact ⟨.slnil, by simp⟩
  | cons first rest ih =>
    unfold recordsAmong at h
    cases hfile : vault.file first with
    | notJson => simp [hfile] at h
    | other =>
      rw [hfile] at h
      obtain ⟨hsublist, hmem⟩ := ih h
      refine ⟨hsublist.cons first, fun path r ↦ (hmem path r).trans ?_⟩
      rw [List.mem_cons, or_and_right]
      refine ⟨.inr, fun h ↦ h.resolve_left ?_⟩
      rintro ⟨rfl, hrecord⟩
      rw [hfile] at hrecord
      cases hrecord
    | record r₀ =>
      rw [hfile] at h
      cases hrest : vault.recordsAmong rest with
      | error e => simp [hrest, Except.map] at h
      | ok records' =>
        simp only [hrest, Except.map, Except.ok.injEq] at h
        subst h
        obtain ⟨hsublist, hmem⟩ := ih hrest
        refine ⟨hsublist.cons_cons first, fun path r ↦ ?_⟩
        rw [List.mem_cons, hmem, List.mem_cons, or_and_right, Prod.mk.injEq]
        refine or_congr_left (and_congr_right ?_)
        rintro rfl
        rw [hfile, VaultFile.record.injEq, eq_comm]

theorem openAll_cons {r : SealedRecord} {rest : List (VaultPath × SealedRecord)}
    {opened : List (OpenedRecord Value)}
    (hread : vault.readSealed ciphers Value vault.contentKey path = some value)
    (hrest : vault.openAll ciphers Value rest = .ok opened) :
    vault.openAll ciphers Value ((path, r) :: rest) = .ok (⟨path, r.kind, value⟩ :: opened) := by
  simp only [openAll, hread, hrest, Except.map]

theorem openAll_ok {records : List (VaultPath × SealedRecord)} {opened : List (OpenedRecord Value)}
    (h : vault.openAll ciphers Value records = .ok opened) :
    opened.map (·.path) = records.map Prod.fst ∧ ∀ o ∈ opened, ∃ r, (o.path, r) ∈ records ∧
      o.kind = r.kind ∧ vault.readSealed ciphers Value vault.contentKey o.path = some o.value := by
  induction records generalizing opened with
  | nil =>
    cases h
    exact ⟨rfl, by simp⟩
  | cons first rest ih =>
    obtain ⟨path, r⟩ := first
    unfold openAll at h
    cases hread : vault.readSealed ciphers Value vault.contentKey path with
    | none => simp [hread] at h
    | some value =>
      rw [hread] at h
      cases hrest : vault.openAll ciphers Value rest with
      | error e => simp [hrest, Except.map] at h
      | ok opened' =>
        simp only [hrest, Except.map, Except.ok.injEq] at h
        subst h
        obtain ⟨hpaths, hspec⟩ := ih hrest
        refine ⟨by simp [hpaths], fun o ho ↦ ?_⟩
        rcases List.mem_cons.mp ho with rfl | ho
        · exact ⟨r, List.mem_cons_self, rfl, hread⟩
        · obtain ⟨r, hr, hrest⟩ := hspec o ho
          exact ⟨r, List.mem_cons_of_mem _ hr, hrest⟩

/-- What is opened is what is sealed, each record once. -/
structure Opened (vault : OpenVault) (ciphers : Ciphers) (opened : List (OpenedRecord Value)) :
    Prop where
  nodup : (opened.map (·.path)).Nodup
  mem : ∀ path, path ∈ opened.map (·.path) ↔ vault.SealedAt path
  read : ∀ o ∈ opened, ∃ r, vault.file o.path = .record r ∧ o.kind = r.kind ∧
    vault.readSealed ciphers Value vault.contentKey o.path = some o.value

theorem opened_of_ok {opened : List (OpenedRecord Value)}
    (h : vault.sealedRecordPaths.bind (vault.openAll ciphers Value) = .ok opened) :
    Opened vault ciphers opened := by
  cases hrecords : vault.sealedRecordPaths with
  | error e => simp [hrecords, Except.bind] at h
  | ok records =>
    rw [hrecords] at h
    obtain ⟨hsublist, hmem⟩ := recordsAmong_ok hrecords
    obtain ⟨hpaths, hread⟩ := openAll_ok h
    refine ⟨?_, fun path ↦ ?_, fun o ho ↦ ?_⟩
    · rw [hpaths]
      exact (vault.paths_nodup.filter _).sublist hsublist
    · rw [hpaths, List.mem_map]
      constructor
      · rintro ⟨⟨path, r⟩, hr, rfl⟩
        obtain ⟨hpath, hfile⟩ := (hmem path r).mp hr
        obtain ⟨hpath, hwalked⟩ := List.mem_filter.mp hpath
        exact ⟨hpath, hwalked, r, hfile⟩
      · intro ⟨hpath, hwalked, r, hfile⟩
        exact ⟨(path, r), (hmem path r).mpr ⟨List.mem_filter.mpr ⟨hpath, hwalked⟩, hfile⟩, rfl⟩
    · obtain ⟨r, hr, hkind, hvalue⟩ := hread o ho
      exact ⟨r, ((hmem o.path r).mp hr).2, hkind, hvalue⟩

theorem resealAll_frame (opened : List (OpenedRecord Value)) :
    (vault.resealAll ciphers random opened).keyset = vault.keyset ∧
      (vault.resealAll ciphers random opened).contentKey = vault.contentKey ∧
      (vault.resealAll ciphers random opened).paths = vault.paths ∧
      ∀ path, path ∉ opened.map (·.path) →
        (vault.resealAll ciphers random opened).file path = vault.file path := by
  induction opened generalizing vault with
  | nil => exact ⟨rfl, rfl, rfl, fun _ _ ↦ rfl⟩
  | cons o rest ih =>
    obtain ⟨hkeyset, hkey, hpaths, hfile⟩ := @ih (vault.writeSealed ciphers random.contentKey
      (random.recordNonce o.path) o.path o.kind o.value)
    refine ⟨hkeyset, hkey, hpaths, fun path hpath ↦ ?_⟩
    rw [List.map_cons, List.mem_cons, not_or] at hpath
    exact (hfile path hpath.2).trans (Function.update_of_ne hpath.1 _ _)

theorem resealAll_file {opened : List (OpenedRecord Value)} (hnodup : (opened.map (·.path)).Nodup)
    {o : OpenedRecord Value} (ho : o ∈ opened) :
    (vault.resealAll ciphers random opened).file o.path = .record (sealRecord ciphers
      random.contentKey (random.recordNonce o.path) o.path o.kind o.value) := by
  induction opened generalizing vault with
  | nil => exact absurd ho List.not_mem_nil
  | cons first rest ih =>
    obtain ⟨hfirst, hrest⟩ := List.nodup_cons.mp hnodup
    rcases List.mem_cons.mp ho with rfl | ho
    · have hframe := (@resealAll_frame _ _ ciphers random (vault.writeSealed ciphers
        random.contentKey (random.recordNonce o.path) o.path o.kind o.value) rest).2.2.2 _ hfirst
      exact hframe.trans (Function.update_self ..)
    · exact ih hrest ho

theorem bind_ok_iff {ε α β : Type} {x : Except ε α} {f : α → Except ε β} {b : β} :
    (x >>= f) = .ok b ↔ ∃ a, x = .ok a ∧ f a = .ok b := by
  cases x with
  | error e => simp [bind, Except.bind]
  | ok a => simp [bind, Except.bind]

theorem deviceWraps_cons {d : DeviceKey} {rest : List DeviceKey} {nonce : ℕ → Bytes}
    {wraps : List WrappedKey} : deviceWraps ciphers contentKey nonce (d :: rest) = .ok wraps ↔
      ∃ wrap wraps', wrapForDevice ciphers contentKey d.keyHex d.label (nonce 0) = .ok wrap ∧
        deviceWraps ciphers contentKey (fun i ↦ nonce (i + 1)) rest = .ok wraps' ∧
        wraps = wrap :: wraps' := by
  rw [deviceWraps, bind_ok_iff]
  simp only [bind_ok_iff, Except.ok.injEq, @eq_comm _ wraps, exists_and_left]

theorem deviceWraps_ok {devices : List DeviceKey} {nonce : ℕ → Bytes} {wraps : List WrappedKey}
    (h : deviceWraps ciphers contentKey nonce devices = .ok wraps) :
    (∀ w ∈ wraps, ∃ d ∈ devices, ∃ n, wrapForDevice ciphers contentKey d.keyHex d.label n = .ok w) ∧
      ∀ d ∈ devices, ∃ w ∈ wraps, ∃ n,
        wrapForDevice ciphers contentKey d.keyHex d.label n = .ok w := by
  induction devices generalizing nonce wraps with
  | nil =>
    cases h
    simp
  | cons d rest ih =>
    obtain ⟨w, wraps', hwrap, hrest, rfl⟩ := deviceWraps_cons.mp h
    obtain ⟨hmade, hall⟩ := ih hrest
    constructor
    · intro w' hw'
      rcases List.mem_cons.mp hw' with rfl | hw'
      · exact ⟨d, List.mem_cons_self, nonce 0, hwrap⟩
      · obtain ⟨d', hd', hn⟩ := hmade w' hw'
        exact ⟨d', List.mem_cons_of_mem _ hd', hn⟩
    · intro d' hd'
      rcases List.mem_cons.mp hd' with rfl | hd'
      · exact ⟨w, List.mem_cons_self, nonce 0, hwrap⟩
      · obtain ⟨w', hw', hn⟩ := hall d' hd'
        exact ⟨w', List.mem_cons_of_mem _ hw', hn⟩

theorem deviceWraps_isOk_iff {devices : List DeviceKey} {nonce : ℕ → Bytes} :
    (∃ wraps, deviceWraps ciphers contentKey nonce devices = .ok wraps) ↔
      ∀ d ∈ devices, StrongDeviceKey d.keyHex := by
  induction devices generalizing nonce with
  | nil => simp [deviceWraps]
  | cons d rest ih =>
    rw [List.forall_mem_cons]
    constructor
    · intro ⟨wraps, h⟩
      obtain ⟨w, wraps', hwrap, hrest, -⟩ := deviceWraps_cons.mp h
      obtain ⟨raw, hraw, hlength, -⟩ := wrapForDevice_ok_iff.mp hwrap
      exact ⟨⟨raw, hraw, hlength⟩, ih.mp ⟨wraps', hrest⟩⟩
    · intro ⟨⟨raw, hraw, hlength⟩, hstrong⟩
      obtain ⟨wraps, hrest⟩ := (@ih fun i ↦ nonce (i + 1)).mpr hstrong
      exact ⟨_, deviceWraps_cons.mpr ⟨_, wraps, wrapForDevice_ok_iff.mpr ⟨raw, hraw, hlength, rfl⟩,
        hrest, rfl⟩⟩

theorem newWraps_ok_iff {wraps : List WrappedKey} :
    vault.newWraps ciphers random opts = .ok wraps ↔ ∃ own devices,
      wrapForPassphrase ciphers random.contentKey opts.passphrase "passphrase"
        (opts.kdf.getD (profileOf vault.keyset)) random.salt random.passphraseNonce = .ok own ∧
      deviceWraps ciphers random.contentKey random.deviceNonce opts.deviceKeys = .ok devices ∧
      wraps = own :: devices := by
  rw [newWraps, bind_ok_iff]
  simp only [bind_ok_iff, Except.ok.injEq, @eq_comm _ wraps, exists_and_left]

theorem newWraps_isOk_iff (hsound : Sound ciphers) (hsalt : minSaltBytes ≤ random.salt.length) :
    (∃ wraps, vault.newWraps ciphers random opts = .ok wraps) ↔ Wrappable vault opts := by
  have hsalt' : 8 ≤ random.salt.length := le_trans (by decide) hsalt
  constructor
  · intro ⟨wraps, h⟩
    obtain ⟨own, devices, hown, hdevices, -⟩ := newWraps_ok_iff.mp h
    exact ⟨((wrapForPassphrase_ok_iff hsound hsalt').mp hown).1,
      deviceWraps_isOk_iff.mp ⟨devices, hdevices⟩⟩
  · intro ⟨hpassphrase, hdevices⟩
    obtain ⟨devices, hdevices⟩ := (@deviceWraps_isOk_iff ciphers random.contentKey opts.deviceKeys
      random.deviceNonce).mpr hdevices
    obtain ⟨kek, hkek⟩ := Option.isSome_iff_exists.mp ((hsound.argon2id_isSome
      (Crypto.utf8 opts.passphrase.toList) _ hsalt').mpr hpassphrase.runs)
    exact ⟨_, newWraps_ok_iff.mpr ⟨_, devices, (wrapForPassphrase_ok_iff hsound hsalt').mpr
      ⟨hpassphrase, kek, hkek, rfl⟩, hdevices, rfl⟩⟩

section NewKeyset

variable {wraps : List WrappedKey}

/-- The new keyset is well formed, and opens with its own passphrase and no other. -/
theorem newWraps_passphrase (hsound : Sound ciphers) (hsalt : minSaltBytes ≤ random.salt.length)
    (h : vault.newWraps ciphers random opts = .ok wraps) :
    sealContentKey wraps = .ok ⟨wraps⟩ ∧
      unwrapWithPassphrase ciphers ⟨wraps⟩ opts.passphrase none = .ok random.contentKey ∧
      ∀ passphrase label key, passphrase ≠ opts.passphrase →
        unwrapWithPassphrase ciphers ⟨wraps⟩ passphrase label ≠ .ok key := by
  obtain ⟨own, devices, hown, hdevices, rfl⟩ := newWraps_ok_iff.mp h
  have hkind : own.kind = .passphrase := by
    obtain ⟨-, kek, -, rfl⟩ :=
      (wrapForPassphrase_ok_iff hsound (le_trans (by decide) hsalt)).mp hown
    rfl
  have hothers : ∀ w ∈ devices, w.kind = .device := by
    intro w hw
    obtain ⟨d, -, n, hn⟩ := (deviceWraps_ok hdevices).1 w hw
    obtain ⟨raw, -, -, rfl⟩ := wrapForDevice_ok_iff.mp hn
    rfl
  have hcandidates (label : Option String) : candidates ⟨own :: devices⟩ .passphrase label =
      if label.all (fun l ↦ decide (own.label = l)) = true then [own] else [] := by
    have hnone : devices.filter (fun w ↦ w.kind = .passphrase ∧
        label.all (fun l ↦ decide (w.label = l)) = true) = [] := by
      rw [List.filter_eq_nil_iff]
      intro w hw
      simp [hothers w hw]
    rw [candidates, List.filter_cons, hnone]
    simp [hkind]
  have hopen (passphrase : String) (label : Option String) :
      unwrapWithPassphrase ciphers ⟨own :: devices⟩ passphrase label =
        if label.all (fun l ↦ decide (own.label = l)) = true ∧ passphrase = opts.passphrase
          then .ok random.contentKey else .error .noWrapOpened := by
    rw [unwrapWithPassphrase, hcandidates]
    by_cases hlabel : label.all (fun l ↦ decide (own.label = l)) = true
    · simp only [hlabel, if_true, true_and]
      rw [openPassphraseWraps_single hsound hsalt hown]
      simp [maxPassphraseCandidates]
    · simp [hlabel, openPassphraseWraps, maxPassphraseCandidates]
  refine ⟨?_, by rw [hopen]; simp, fun passphrase label key hne ↦ ?_⟩
  · rw [sealContentKey, if_pos]
    simp [usable_of_wrapForPassphrase hsound hsalt hown]
  · rw [hopen]
    simp [hne]

theorem newWraps_device (hsound : Sound ciphers) (hsalt : minSaltBytes ≤ random.salt.length)
    (h : vault.newWraps ciphers random opts = .ok wraps) {keyHex : String} {label : Option String}
    {key : Bytes} : unwrapWithDevice ciphers ⟨wraps⟩ keyHex label = .ok key ↔
      key = random.contentKey ∧ ∃ d ∈ opts.deviceKeys,
        label.all (fun l ↦ decide (d.label = l)) = true ∧ fromHex d.keyHex = fromHex keyHex := by
  obtain ⟨own, devices, hown, hdevices, rfl⟩ := newWraps_ok_iff.mp h
  obtain ⟨hmade, hall⟩ := deviceWraps_ok hdevices
  have hkind : own.kind = .passphrase := by
    obtain ⟨-, kek, -, rfl⟩ :=
      (wrapForPassphrase_ok_iff hsound (le_trans (by decide) hsalt)).mp hown
    rfl
  have hmem (w : WrappedKey) : w ∈ candidates ⟨own :: devices⟩ .device label ↔
      w ∈ devices ∧ label.all (fun l ↦ decide (w.label = l)) = true := by
    rw [candidates, List.mem_filter, List.mem_cons, decide_eq_true_eq]
    constructor
    · rintro ⟨rfl | hw, hdevice, hlabel⟩
      · rw [hkind] at hdevice
        cases hdevice
      · exact ⟨hw, hlabel⟩
    · intro ⟨hw, hlabel⟩
      obtain ⟨d, -, n, hn⟩ := hmade w hw
      obtain ⟨raw, -, -, rfl⟩ := wrapForDevice_ok_iff.mp hn
      exact ⟨.inr hw, rfl, hlabel⟩
  have hunwrap {kek opened : Bytes} {w : WrappedKey} {d : DeviceKey} {n : Bytes}
      (hn : wrapForDevice ciphers random.contentKey d.keyHex d.label n = .ok w) :
      unwrapWith ciphers kek w = some opened ↔ opened = random.contentKey ∧
        ∃ raw, fromHex d.keyHex = some raw ∧ kek = ciphers.hkdf raw := by
    obtain ⟨raw, hraw, -, rfl⟩ := wrapForDevice_ok_iff.mp hn
    rw [unwrapWith_eq hsound]
    simp only [hraw, Option.some.injEq, exists_eq_left', Option.ite_none_right_eq_some]
    rw [and_comm, eq_comm]
  have hfind {kek opened : Bytes} (hfound : (candidates ⟨own :: devices⟩ .device label).findSome?
      (unwrapWith ciphers kek) = some opened) : opened = random.contentKey ∧ ∃ d ∈ opts.deviceKeys,
        label.all (fun l ↦ decide (d.label = l)) = true ∧
          ∃ raw, fromHex d.keyHex = some raw ∧ kek = ciphers.hkdf raw := by
    obtain ⟨w, hw, hopened⟩ := List.exists_of_findSome?_eq_some hfound
    obtain ⟨hw, hlabel⟩ := (hmem w).mp hw
    obtain ⟨d, hd, n, hn⟩ := hmade w hw
    obtain ⟨rfl, hkek⟩ := (hunwrap hn).mp hopened
    obtain ⟨raw, -, -, rfl⟩ := wrapForDevice_ok_iff.mp hn
    exact ⟨rfl, d, hd, hlabel, hkek⟩
  unfold unwrapWithDevice
  cases hkey : deviceWrapKey ciphers keyHex with
  | error e =>
    apply iff_of_false (by simp)
    intro ⟨_, d, hd, _, hsame⟩
    obtain ⟨w, -, n, hn⟩ := hall d hd
    obtain ⟨raw, hraw, hlength, -⟩ := wrapForDevice_ok_iff.mp hn
    rw [deviceWrapKey_ok_iff.mpr ⟨raw, hsame ▸ hraw, hlength, rfl⟩] at hkey
    cases hkey
  | ok kek =>
    obtain ⟨raw, hraw, -, rfl⟩ := deviceWrapKey_ok_iff.mp hkey
    dsimp only
    constructor
    · intro hopened
      cases hfound : (candidates ⟨own :: devices⟩ .device label).findSome?
          (unwrapWith ciphers (ciphers.hkdf raw)) with
      | none => simp [hfound] at hopened
      | some opened =>
        rw [hfound] at hopened
        obtain ⟨hown, d, hd, hlabel, raw', hraw', hkek⟩ := hfind hfound
        refine ⟨(Except.ok.inj hopened).symm.trans hown, d, hd, hlabel, ?_⟩
        rw [hraw', hraw, hsound.hkdf_inj hkek]
    · rintro ⟨rfl, d, hd, hlabel, hsame⟩
      obtain ⟨w, hw, n, hn⟩ := hall d hd
      have hopened := (@hunwrap (ciphers.hkdf raw) random.contentKey w d n hn).mpr
        ⟨rfl, raw, hsame.trans hraw, rfl⟩
      obtain ⟨raw', -, -, rfl⟩ := wrapForDevice_ok_iff.mp hn
      cases hfound : (candidates ⟨own :: devices⟩ .device label).findSome?
          (unwrapWith ciphers (ciphers.hkdf raw)) with
      | none =>
        have hclosed := List.findSome?_eq_none_iff.mp hfound _ ((hmem _).mpr ⟨hw, hlabel⟩)
        rw [hclosed] at hopened
        cases hopened
      | some opened => rw [(hfind hfound).1]

end NewKeyset

theorem allOrNothing_of_unchanged (e : RekeyError) :
    AllOrNothing ciphers vault Value opts (vault, .error e) where
  undone _ _ := ⟨rfl, fun _ _ ↦ ⟨rfl, rfl⟩⟩
  kept _ h := by cases h
  opens _ h := by cases h
  revoked _ h := by cases h

theorem allOrNothing_iff_of_refused (hsound : Sound ciphers)
    (hfresh : random.contentKey ≠ vault.contentKey) {opened : List (OpenedRecord Value)}
    (hopened : Opened vault ciphers opened) (e : RekeyError) :
    AllOrNothing ciphers vault Value opts (vault.resealAll ciphers random opened, .error e) ↔
      ∀ path, ¬vault.SealedAt path := by
  obtain ⟨hkeyset, hkey, -, -⟩ := @resealAll_frame Value _ ciphers random vault opened
  constructor
  · intro h path hsealed
    obtain ⟨o, ho, rfl⟩ := List.mem_map.mp ((hopened.mem path).mpr hsealed)
    obtain ⟨r, hfile, hkind, hread⟩ := hopened.read o ho
    obtain ⟨hsame, -⟩ := (h.undone e rfl).2 o.path hsealed
    rw [resealAll_file hopened.nodup ho, hfile, VaultFile.record.injEq] at hsame
    rw [readSealed, hfile] at hread
    dsimp only at hread
    rw [← hsame, openRecord_sealRecord_of_ne hsound hfresh.symm] at hread
    cases hread
  · intro h
    exact ⟨fun _ _ ↦ ⟨hkeyset, fun path hsealed ↦ absurd hsealed (h path)⟩, nofun, nofun, nofun⟩

theorem allOrNothing_of_returned (hsound : Sound ciphers) (hsalt : minSaltBytes ≤ random.salt.length)
    {opened : List (OpenedRecord Value)} (hopened : Opened vault ciphers opened)
    {wraps : List WrappedKey} (hwraps : vault.newWraps ciphers random opts = .ok wraps)
    (report : RekeyReport) : AllOrNothing ciphers vault Value opts
      ({ vault.resealAll ciphers random opened with
          keyset := ⟨wraps⟩, contentKey := random.contentKey }, .ok report) := by
  obtain ⟨-, hown, hothers⟩ := newWraps_passphrase hsound hsalt hwraps
  have hdevice {keyHex : String} {label : Option String} {key : Bytes} :=
    @newWraps_device ciphers random vault opts wraps hsound hsalt hwraps keyHex label key
  obtain ⟨-, -, hpaths, -⟩ := @resealAll_frame Value _ ciphers random vault opened
  refine ⟨nofun, ?_, ?_, ?_⟩
  · intro _ _ path hsealed value hread
    obtain ⟨o, ho, rfl⟩ := List.mem_map.mp ((hopened.mem path).mpr hsealed)
    obtain ⟨r, -, -, hvalue⟩ := hopened.read o ho
    obtain rfl : o.value = value := Option.some.inj (hvalue.symm.trans hread)
    have hfile := @resealAll_file Value _ ciphers random vault opened hopened.nodup o ho
    refine ⟨⟨hpaths ▸ hsealed.1, hsealed.2.1, _, hfile⟩, ?_⟩
    simp only [readSealed, hfile, openRecord_sealRecord hsound]
  · intro _ _
    refine ⟨hown, fun d hd label hlabel ↦ hdevice.mpr ⟨rfl, d, hd, ?_, rfl⟩⟩
    rcases hlabel with rfl | rfl <;> simp
  · intro _ _ label key
    refine ⟨fun passphrase hne ↦ hothers passphrase label key hne, fun keyHex hunnamed hopened ↦ ?_⟩
    obtain ⟨-, d, hd, -, hsame⟩ := hdevice.mp hopened
    exact hunnamed d hd hsame

/-- Where the wraps cannot be made, the call fails when the records are already written. -/
theorem rekey_of_unwrappable (hsound : Sound ciphers) (hsalt : minSaltBytes ≤ random.salt.length)
    {key : Bytes} {opened : List (OpenedRecord Value)}
    (hpassphrase : unwrapWithPassphrase ciphers vault.keyset opts.passphrase none = .ok key)
    (hall : vault.sealedRecordPaths.bind (vault.openAll ciphers Value) = .ok opened)
    (h : ¬Wrappable vault opts) : ∃ e, vault.rekey ciphers random Value opts =
      (vault.resealAll ciphers random opened, .error (.refused e)) := by
  rw [← newWraps_isOk_iff hsound hsalt, not_exists] at h
  cases hwraps : vault.newWraps ciphers random opts with
  | ok wraps => exact absurd hwraps (h wraps)
  | error e => exact ⟨e, by simp only [rekey, hpassphrase, hall, hwraps]⟩

theorem rekey_of_wrappable (hsound : Sound ciphers) (hsalt : minSaltBytes ≤ random.salt.length)
    {key : Bytes} {opened : List (OpenedRecord Value)}
    (hpassphrase : unwrapWithPassphrase ciphers vault.keyset opts.passphrase none = .ok key)
    (hall : vault.sealedRecordPaths.bind (vault.openAll ciphers Value) = .ok opened)
    (h : Wrappable vault opts) : ∃ wraps report,
      vault.newWraps ciphers random opts = .ok wraps ∧ vault.rekey ciphers random Value opts =
        ({ vault.resealAll ciphers random opened with
          keyset := ⟨wraps⟩, contentKey := random.contentKey }, .ok report) := by
  obtain ⟨wraps, hwraps⟩ := (newWraps_isOk_iff hsound hsalt).mpr h
  have hkeyset := (newWraps_passphrase hsound hsalt hwraps).1
  exact ⟨wraps, _, hwraps, by simp only [rekey, hpassphrase, hall, hwraps, hkeyset]; rfl⟩

end OpenVault

open OpenVault in
/-- A re-key is all or nothing exactly when it refuses before it writes, has nothing to write, or can
make the wraps of the new keyset. -/
theorem rekey_allOrNothing_iff {Value : Type} [JsonText Value] {ciphers : Ciphers}
    (hsound : Sound ciphers) {random : Randomness} (hsalt : minSaltBytes ≤ random.salt.length)
    {vault : OpenVault} (hfresh : random.contentKey ≠ vault.contentKey) (opts : RekeyOptions) :
    AllOrNothing ciphers vault Value opts (vault.rekey ciphers random Value opts) ↔
      RefusedFirst ciphers vault Value opts ∨ (∀ path, ¬vault.SealedAt path) ∨
        Wrappable vault opts := by
  cases hpassphrase : unwrapWithPassphrase ciphers vault.keyset opts.passphrase none with
  | error cause =>
    have hcall : vault.rekey ciphers random Value opts = (vault, .error (.wrongPassphrase cause)) := by
      simp only [rekey, hpassphrase]
    rw [hcall]
    exact iff_of_true (allOrNothing_of_unchanged _) (.inl (.inl ⟨cause, hpassphrase⟩))
  | ok key =>
  cases hall : vault.sealedRecordPaths.bind (vault.openAll ciphers Value) with
  | error e =>
    have hcall : vault.rekey ciphers random Value opts = (vault, .error e) := by
      simp only [rekey, hpassphrase, hall]
    rw [hcall]
    exact iff_of_true (allOrNothing_of_unchanged _) (.inl (.inr ⟨e, hall⟩))
  | ok opened =>
  have hgoes : ¬RefusedFirst ciphers vault Value opts := by
    rintro (⟨cause, h⟩ | ⟨e, h⟩)
    · rw [hpassphrase] at h
      cases h
    · rw [hall] at h
      cases h
  rw [or_iff_right hgoes]
  by_cases hwrappable : Wrappable vault opts
  · obtain ⟨wraps, report, hwraps, hcall⟩ :=
      @rekey_of_wrappable Value _ ciphers random vault opts hsound hsalt _ _ hpassphrase hall hwrappable
    rw [hcall]
    exact iff_of_true (allOrNothing_of_returned hsound hsalt (opened_of_ok hall) hwraps _)
      (.inr hwrappable)
  · obtain ⟨e, hcall⟩ :=
      @rekey_of_unwrappable Value _ ciphers random vault opts hsound hsalt _ _ hpassphrase hall
        hwrappable
    rw [hcall, or_iff_left hwrappable]
    exact allOrNothing_iff_of_refused hsound hfresh (opened_of_ok hall) _

section ShortDeviceKey

open OpenVault

instance : JsonText Bool where
  stringify value := Crypto.utf8 (toString value).toList
  parse text := if text = Crypto.utf8 "true".toList then some true
    else if text = Crypto.utf8 "false".toList then some false else none
  parse_stringify value := by cases value <;> decide +kernel

def frame (text : Bytes) : Bytes := text.flatMap (fun b ↦ [1, b]) ++ [0]

theorem frame_append_inj {text other rest rest' : Bytes}
    (h : frame text ++ rest = frame other ++ rest') : text = other := by
  induction text generalizing other with
  | nil =>
    cases other with
    | nil => rfl
    | cons b other => simp [frame] at h
  | cons a text ih =>
    cases other with
    | nil => simp [frame] at h
    | cons b other =>
      simp only [frame, List.flatMap_cons, List.cons_append, List.nil_append, List.cons.injEq,
        true_and] at h
      rw [h.1, ih h.2]

/-- Ciphers that write out what real ones hide. -/
def openCiphers : Ciphers where
  encrypt key nonce aad plaintext := frame key ++ (frame nonce ++ frame aad ++ plaintext)
  decrypt key nonce aad ciphertext :=
    if (frame key ++ (frame nonce ++ frame aad)).isPrefixOf ciphertext then
      some (ciphertext.drop (frame key ++ (frame nonce ++ frame aad)).length)
    else none
  argon2id password _ params := if Argon2idRuns params then some password else none
  hkdf ikm := ikm

theorem openCiphers_sound : Sound openCiphers where
  decrypt_encrypt key nonce aad plaintext := by
    have hassoc : frame key ++ (frame nonce ++ frame aad ++ plaintext) =
        (frame key ++ (frame nonce ++ frame aad)) ++ plaintext := by simp
    simp only [openCiphers]
    rw [hassoc, if_pos (List.isPrefixOf_iff_prefix.mpr (List.prefix_append _ _)), List.drop_left]
  committing h := by
    simp only [openCiphers, Option.ite_none_right_eq_some, List.isPrefixOf_iff_prefix] at h
    obtain ⟨⟨rest, hrest⟩, -⟩ := h
    rw [List.append_assoc] at hrest
    exact frame_append_inj hrest
  tagged key nonce aad plaintext := by simp [openCiphers, frame]
  argon2id_isSome password salt params _ := by simp [openCiphers]
  argon2id_inj h h' := by
    simp only [openCiphers, Option.ite_none_right_eq_some, Option.some.injEq] at h h'
    exact h'.2.trans h.2.symm
  hkdf_inj h := h

def storedPath : VaultPath := ["personas", "0a", "persona.json"]

def oldKey : Bytes := List.replicate 32 1

def oldRecord : SealedRecord :=
  sealRecord openCiphers oldKey (List.replicate 24 2) storedPath "persona" true

def oldWrap : WrappedKey :=
  ⟨.passphrase, "passphrase", toHex (List.replicate 24 4), toHex (openCiphers.encrypt
    (Crypto.utf8 "the old words".toList) (List.replicate 24 4) [] oldKey),
    some ⟨toHex (List.replicate 16 3), Argon2idParams.constrained⟩⟩

def smallVault : OpenVault where
  paths := [storedPath]
  paths_nodup := by decide
  file _ := .record oldRecord
  keyset := ⟨[oldWrap]⟩
  contentKey := oldKey

def drawn : Randomness where
  contentKey := List.replicate 32 5
  recordNonce _ := List.replicate 24 6
  salt := List.replicate 16 7
  passphraseNonce := List.replicate 24 8
  deviceNonce _ := List.replicate 24 9

def rekeyFor (deviceKey : Bytes) : RekeyOptions :=
  ⟨"the old words", [⟨"phone", toHex deviceKey⟩], none⟩

theorem oldWords_strong : StrongPassphrase "the old words" Argon2idParams.constrained :=
  ⟨by decide, by decide +kernel, by decide +kernel⟩

theorem smallVault_rekeyed : AllOrNothing openCiphers smallVault Bool
    (rekeyFor (List.replicate 32 0)) (smallVault.rekey openCiphers drawn Bool
      (rekeyFor (List.replicate 32 0))) := by
  refine (rekey_allOrNothing_iff openCiphers_sound (by decide) (by decide) _).mpr
    (.inr (.inr ⟨oldWords_strong, fun d hd ↦ ?_⟩))
  obtain rfl := List.mem_singleton.mp hd
  exact ⟨_, fromHex_toHex _, by decide⟩

theorem smallVault_opens (deviceKey : Bytes) : unwrapWithPassphrase openCiphers smallVault.keyset
    (rekeyFor deviceKey).passphrase none = .ok oldKey := by
  have hwrap : wrapForPassphrase openCiphers oldKey "the old words" "passphrase"
      Argon2idParams.constrained (List.replicate 16 3) (List.replicate 24 4) = .ok oldWrap :=
    (wrapForPassphrase_ok_iff openCiphers_sound (by decide)).mpr
      ⟨oldWords_strong, _, if_pos oldWords_strong.runs, rfl⟩
  have hcandidates : candidates smallVault.keyset .passphrase none = [oldWrap] := rfl
  rw [unwrapWithPassphrase, hcandidates, openPassphraseWraps_single openCiphers_sound (by decide) hwrap]
  simp [rekeyFor, maxPassphraseCandidates]

theorem smallVault_readable :
    smallVault.readSealed openCiphers Bool oldKey storedPath = some true :=
  openRecord_sealRecord openCiphers_sound

/-- A device key of sixteen octets is refused when the record is already under the new key. -/
theorem short_device_key_strands_records : ¬∀ (ciphers : Ciphers) (random : Randomness)
    (vault : OpenVault) (opts : RekeyOptions), Sound ciphers → minSaltBytes ≤ random.salt.length →
    random.contentKey ≠ vault.contentKey →
    (∀ path, vault.SealedAt path →
      (vault.readSealed ciphers Bool vault.contentKey path).isSome = true) →
    AllOrNothing ciphers vault Bool opts (vault.rekey ciphers random Bool opts) := by
  intro h
  have hread : ∀ path, smallVault.SealedAt path →
      (smallVault.readSealed openCiphers Bool smallVault.contentKey path).isSome = true := by
    intro path ⟨hpath, _, _⟩
    obtain rfl := List.mem_singleton.mp hpath
    exact Option.isSome_of_eq_some smallVault_readable
  have hkept := h openCiphers drawn smallVault (rekeyFor (List.replicate 16 0)) openCiphers_sound
    (by decide) (by decide) hread
  have hwalked : isWalked storedPath = true := by decide +kernel
  have hpaths : smallVault.sealedRecordPaths = .ok [(storedPath, oldRecord)] := by
    simp [sealedRecordPaths, smallVault, hwalked, recordsAmong, Except.map]
  have hall : smallVault.sealedRecordPaths.bind (smallVault.openAll openCiphers Bool) =
      .ok [⟨storedPath, oldRecord.kind, true⟩] := by
    rw [hpaths, Except.bind]
    exact openAll_cons smallVault_readable rfl
  have hshort : ¬Wrappable smallVault (rekeyFor (List.replicate 16 0)) := by
    intro hwrappable
    obtain ⟨raw, hraw, hlength⟩ := hwrappable.devices _ (List.mem_singleton_self _)
    rw [fromHex_toHex] at hraw
    cases hraw
    exact absurd hlength (by decide)
  obtain ⟨e, hcall⟩ := @rekey_of_unwrappable Bool _ openCiphers drawn smallVault
    (rekeyFor (List.replicate 16 0)) openCiphers_sound (by decide) _ _ (smallVault_opens _) hall hshort
  rw [hcall] at hkept
  exact (allOrNothing_iff_of_refused openCiphers_sound (by decide) (opened_of_ok hall) _).mp hkept
    storedPath ⟨List.mem_singleton_self _, hwalked, _, rfl⟩

end ShortDeviceKey

end Servanda
