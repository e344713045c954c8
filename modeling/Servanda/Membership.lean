import Servanda.Ladder
import Servanda.Register

namespace Servanda.Membership

open Transitions Serve Identity

variable (crypto : Crypto) (now : Rfc3339) (s : Subtree) (key : PublicKeyHex)

/-- The verdict on a stored attestation of a key, as a verifier puts the question. -/
def verdict (att : Attestation) : AttestationVerdict :=
  verifyAttestation crypto (.ok att)
    { now := Date.parse now
      subject := some key
      revocations := [s.revocations key] }

/-- What the vault has on a key, as evidence for the ladder. -/
def evidence (anchor : Option AnchorResolution) : LadderEvidence where
  subject := key
  attestation := (s.attestations key).map (verdict crypto now s key)
  anchor := anchor

/-- An edge that is published to the scope of an organisation, and in no other way concerns the
key: whether it is served is a matter of membership. -/
structure PublishedTo (org : PublicKeyHex) (edge : Edge) : Prop where
  stranger : isPartyOrSuccessor edge key (partyLineage crypto s) = false
  published : ∃ record ∈ s.publishRecords, record.edgeId = edge.edgeId ∧
    isParty edge record.signer = true ∧ record.scope = org
  notToKey : ∀ record ∈ s.publishRecords, record.edgeId = edge.edgeId →
    isParty edge record.signer = true → record.scope ≠ key

/-- One rule says whether an attestation of the key is valid. -/
structure OneRule (node : ServandaNode) (persona : PublicKeyHex) : Prop where
  level : ∀ anchor,
    (node.verificationLevel crypto now persona (some (.persona key)) = .two ∨
        node.verificationLevel crypto now persona (some (.persona key)) = .three) ↔
      (bindingLevel (evidence crypto now (node.vault persona) key anchor)).level = .two ∨
        (bindingLevel (evidence crypto now (node.vault persona) key anchor)).level = .three
  scope : ∀ att, (node.vault persona).attestations key = some att → ∀ edge,
    PublishedTo crypto (node.vault persona) key att.org edge →
      (mayServeEdge crypto (node.vault persona) now key edge = .scope att.org ↔
        (verdict crypto now (node.vault persona) key att).isOk = true)

/-- Is the key held to be revoked by the instant, whoever issued the revocation? -/
def Revoked : Prop :=
  ∃ r, s.revocations key = some r ∧ Date.parse r.revokedAt ≤ Date.parse now

/-- The verifier stands behind the attestation, revocations apart. -/
structure InForce (att : Attestation) : Prop where
  subject : att.subject = key
  signed : crypto.verifyObject (.attestation att) att.org = true
  issued : Date.parse att.issuedAt ≤ Date.parse now
  unexpired : Date.parse now < Date.parse att.expiresAt

/-- The validity that the node and the serving rule read off an attestation. -/
def Unlapsed (att : Attestation) : Prop :=
  Date.parse now ≤ Date.parse att.expiresAt ∧ ¬Revoked now s key

/-- The instants and issuers on which the rules agree: the attestation has lapsed; or no revocation
is in force and a verifier stands behind it; or one is, and either the verifier does not stand
behind it anyway or the revocation counts against it. -/
def Agreed (att : Attestation) : Prop :=
  Date.parse att.expiresAt < Date.parse now ∨
    (¬Revoked now s key ∧ InForce crypto now key att) ∨
    (Revoked now s key ∧ (¬InForce crypto now key att ∨
      ∃ r, s.revocations key = some r ∧ CountsAgainst crypto att r))

variable {crypto now s key} {att : Attestation} {edge : Edge}

/-- A revocation that counts is in force. -/
def RightlyRevoked (crypto : Crypto) (now : Rfc3339) (s : Subtree) (key : PublicKeyHex)
    (att : Attestation) : Prop :=
  Revoked now s key ∧ ∃ r, s.revocations key = some r ∧ CountsAgainst crypto att r

theorem verdict_isOk_iff : (verdict crypto now s key att).isOk = true ↔
    InForce crypto now key att ∧ ¬RightlyRevoked crypto now s key att := by
  have hrevoked : (∀ r, some r ∈ [s.revocations key] → CountsAgainst crypto att r →
      Date.parse now < Date.parse r.revokedAt) ↔ ¬RightlyRevoked crypto now s key att := by
    constructor
    · intro h ⟨⟨r, hr, hle⟩, r', hr', hcounts⟩
      obtain rfl : r = r' := Option.some.inj (hr.symm.trans hr')
      exact absurd (h r (by simp [hr]) hcounts) (not_lt.mpr hle)
    · intro h r hr hcounts
      have hheld : s.revocations key = some r := (List.mem_singleton.mp hr).symm
      by_contra hle
      exact h ⟨⟨r, hheld, not_lt.mp hle⟩, r, hheld, hcounts⟩
  unfold verdict
  rw [verifyAttestation_isOk_iff, hrevoked]
  constructor
  · intro ⟨hsubject, hsigned, hissued, hunexpired, h⟩
    exact ⟨⟨hsubject, hsigned, hissued, hunexpired⟩, h⟩
  · intro ⟨⟨hsubject, hsigned, hissued, hunexpired⟩, h⟩
    exact ⟨hsubject, hsigned, hissued, hunexpired, h⟩

/-- The two readings of an attestation agree exactly under the condition. -/
theorem unlapsed_iff_ok_iff_agreed :
    (Unlapsed now s key att ↔ (verdict crypto now s key att).isOk = true) ↔
      Agreed crypto now s key att := by
  have hforce : InForce crypto now key att → ¬Date.parse att.expiresAt < Date.parse now :=
    fun h ↦ not_lt.mpr h.unexpired.le
  rw [verdict_isOk_iff, Unlapsed, Agreed, RightlyRevoked, ← not_lt]
  by_cases hexpired : Date.parse att.expiresAt < Date.parse now
  · have hlapsed : ¬InForce crypto now key att := fun h ↦ hforce h hexpired
    simp [hexpired, hlapsed]
  · by_cases hrevoked : Revoked now s key
    · by_cases hin : InForce crypto now key att
      · simp [hexpired, hrevoked, hin]
      · simp [hrevoked, hin]
    · simp [hexpired, hrevoked]

theorem verificationLevel_attested_iff {node : ServandaNode} {persona : PublicKeyHex} :
    node.verificationLevel crypto now persona (some (.persona key)) = .two ∨
        node.verificationLevel crypto now persona (some (.persona key)) = .three ↔
      ∃ att, (node.vault persona).attestations key = some att ∧
        Unlapsed now (node.vault persona) key att := by
  simp only [ServandaNode.verificationLevel]
  generalize ((node.vault persona).edges.values.any _) = known
  cases hatt : (node.vault persona).attestations key with
  | none => cases known <;> simp
  | some att =>
    have hlapsed : (((node.vault persona).revocations key).any (fun r ↦
          decide (Date.parse r.revokedAt ≤ Date.parse now)) ||
        decide (Date.parse att.expiresAt < Date.parse now)) = true ↔
          ¬Unlapsed now (node.vault persona) key att := by
      rw [Bool.or_eq_true, Option.any_eq_true, decide_eq_true_eq, Unlapsed, not_and_or, not_not,
        not_le, or_comm]
      simp only [decide_eq_true_eq, Revoked]
    simp only [Option.bind_some, Option.some.injEq, exists_eq_left']
    generalize (((node.vault persona).revocations key).any _ || _) = lapsed at hlapsed ⊢
    cases lapsed with
    | true =>
      have hunlapsed := hlapsed.mp rfl
      cases known <;> simpa using hunlapsed
    | false =>
      have hunlapsed : Unlapsed now (node.vault persona) key att := by
        by_contra hnot
        exact absurd (hlapsed.mpr hnot) (by decide)
      refine iff_of_true ?_ hunlapsed
      cases (node.vault persona).domainAnchors att.org
      · exact .inl rfl
      · exact .inr rfl

theorem mayServeEdge_scope_iff (hatt : s.attestations key = some att)
    (h : PublishedTo crypto s key att.org edge) :
    mayServeEdge crypto s now key edge = .scope att.org ↔ Unlapsed now s key att := by
  have hgranted (record : Publish) (hmem : record ∈ s.publishRecords) :
      grantedByScope s now key edge record = true ↔ record.edgeId = edge.edgeId ∧
        isParty edge record.signer = true ∧ record.scope = att.org ∧ Unlapsed now s key att := by
    have hnotKey : record.edgeId = edge.edgeId → isParty edge record.signer = true →
        record.scope ≠ key := h.notToKey record hmem
    simp only [grantedByScope, hatt, Option.any_some, Bool.and_eq_true, Bool.or_eq_true, beq_iff_eq,
      decide_eq_true_eq, Option.all_eq_true, Unlapsed, Revoked]
    constructor
    · rintro ⟨⟨hid, hparty⟩, hkey | ⟨⟨horg, hrevoked⟩, hexpires⟩⟩
      · exact absurd hkey (hnotKey hid hparty)
      · refine ⟨hid, hparty, horg.symm, hexpires, ?_⟩
        intro ⟨r, hr, hle⟩
        exact absurd (hrevoked r hr) (not_lt.mpr hle)
    · intro ⟨hid, hparty, hscope, hexpires, hrevoked⟩
      refine ⟨⟨hid, hparty⟩, .inr ⟨⟨hscope.symm, fun r hr ↦ ?_⟩, hexpires⟩⟩
      by_contra hle
      exact hrevoked ⟨r, hr, not_lt.mp hle⟩
  simp only [mayServeEdge, h.stranger, Bool.false_eq_true, if_false]
  constructor
  · intro hserved
    cases hfind : s.publishRecords.find? (grantedByScope s now key edge) with
    | none => simp [hfind] at hserved
    | some record =>
      exact ((hgranted record (List.mem_of_find?_eq_some hfind)).mp
        (List.find?_some hfind)).2.2.2
  · intro hvalid
    obtain ⟨record, hmem, hid, hparty, hscope⟩ := h.published
    have hgrant := (hgranted record hmem).mpr ⟨hid, hparty, hscope, hvalid⟩
    cases hfind : s.publishRecords.find? (grantedByScope s now key edge) with
    | none => exact absurd hgrant (List.find?_eq_none.mp hfind record hmem)
    | some other =>
      have hother := (hgranted other (List.mem_of_find?_eq_some hfind)).mp (List.find?_some hfind)
      simp [hother.2.2.1]

theorem evidence_attested_iff {anchor : Option AnchorResolution} :
    (evidence crypto now s key anchor).attested.isSome = true ↔
      ∃ att, s.attestations key = some att ∧ (verdict crypto now s key att).isOk = true := by
  unfold evidence LadderEvidence.attested
  cases hatt : s.attestations key with
  | none => simp
  | some att => cases hverdict : verdict crypto now s key att <;> simp [AttestationVerdict.isOk, hverdict]

/-- The ladder, the node and the serving rule agree on a key exactly where its attestation has
lapsed, or the verifier's reading of signature, issuing and revocation is no other than theirs. -/
theorem one_rule_iff (crypto : Crypto) (now : Rfc3339) (node : ServandaNode)
    (persona key : PublicKeyHex) :
    OneRule crypto now key node persona ↔
      ∀ att, (node.vault persona).attestations key = some att →
        Agreed crypto now (node.vault persona) key att := by
  constructor
  · intro h att hatt
    have hlevel := h.level none
    rw [verificationLevel_attested_iff, bindingLevel_attested_iff, evidence_attested_iff] at hlevel
    simp only [hatt, Option.some.injEq, exists_eq_left'] at hlevel
    exact unlapsed_iff_ok_iff_agreed.mp hlevel
  · intro h
    refine ⟨fun anchor ↦ ?_, fun att hatt edge hedge ↦ ?_⟩
    · rw [verificationLevel_attested_iff, bindingLevel_attested_iff, evidence_attested_iff]
      exact exists_congr fun att ↦ and_congr_right fun hatt ↦
        unlapsed_iff_ok_iff_agreed.mpr (h att hatt)
    · rw [mayServeEdge_scope_iff hatt hedge]
      exact unlapsed_iff_ok_iff_agreed.mpr (h att hatt)

section RevokedByAnother

open Sample

def orgKey : PublicKeyHex := 0x9a681cc42e07025cb2c078d383f94998247a30d955faeaa203ff8f885559d76f

def otherOrgKey : PublicKeyHex := 0xbd9cc9fb9459aa63a18c1e04fb8e44c2a06df04d2c7990aa0fe3bff537afc366

def membership : Attestation where
  org := orgKey
  subject := ownerKey
  subjectKind := .persona
  claims := ⟨some "Owner", none⟩
  issuedAt := date 1 1 0
  expiresAt := date 12 31 0
  sig := 0xf33c355ba5b96b47644e37a4659d690d90c83f83de2f271e6043f802b5eafed26250023a590ebc6103d983c5823cd4bbd215f0b5eac55b7a800240af7444723a

def revocationByAnother : Revocation where
  org := otherOrgKey
  subject := ownerKey
  revokedAt := date 2 1 0
  sig := 0x1711ad378583a5a6bf517746b6a27f69cfa03e17fff593fd545209dc761413f5e30a8b5d25d8c99eab429d7413daca5ec3ddf2ccf8dbc79a33cd00f2d51c631b

def attestedNode : ServandaNode where
  activePersona := creditorKey
  personas := [creditorKey]
  personas_nodup := List.nodup_singleton creditorKey
  label _ := "me"
  vault _ :=
    { Subtree.empty with
      attestations := fun key ↦ if key = ownerKey then some membership else none
      revocations := fun key ↦ if key = ownerKey then some revocationByAnother else none }
  pending _ := []

/-- Another organisation revokes the key: to the node it is no member any more, to the verifier it
still is. -/
theorem revoked_by_another : ¬∀ now node persona key, OneRule Sample.crypto now key node persona := by
  intro h
  have hlevel := (h (date 3 1 0) attestedNode creditorKey ownerKey).level none
  have hgrade : (bindingLevel (evidence Sample.crypto (date 3 1 0)
      (attestedNode.vault creditorKey) ownerKey none)).level = .two := by decide +kernel
  have hnode : attestedNode.verificationLevel Sample.crypto (date 3 1 0) creditorKey
      (some (.persona ownerKey)) = .zero := by decide +kernel
  rw [hgrade, hnode] at hlevel
  exact absurd (hlevel.mpr (.inl rfl)) (by decide)

end RevokedByAnother

end Servanda.Membership
