import Servanda.Crypto

namespace Servanda.Identity

inductive AttestationRejection
  | malformed
  | signatureInvalid
  | subjectMismatch
  | orgMismatch
  | notYetIssued
  | expired
  | revoked
  deriving DecidableEq, Repr

/-- The instants are dates, in milliseconds. A revocation that does not parse is `none`. -/
structure AttestationContext where
  now : ℤ
  signedAt : Option ℤ := none
  subject : Option PublicKeyHex := none
  org : Option PublicKeyHex := none
  revocations : List (Option Revocation) := []

inductive AttestationVerdict
  | ok (attestation : Attestation) (revokedAt : Option Rfc3339)
  | rejected (reason : AttestationRejection) (detail : Option String)
      (attestation : Option Attestation)
  deriving DecidableEq

def AttestationVerdict.isOk : AttestationVerdict → Bool
  | ok _ _ => true
  | rejected _ _ _ => false

variable (crypto : Crypto)

def verifyRevocation : Option Revocation → Option Revocation
  | none => none
  | some r => if crypto.verifyObject (.revocation r) r.org then some r else none

def earlierOf (org subject : PublicKeyHex) (best : Option Revocation)
    (raw : Option Revocation) : Option Revocation :=
  match verifyRevocation crypto raw with
  | none => best
  | some rev =>
    if rev.org ≠ org ∨ rev.subject ≠ subject then best
    else match best with
      | none => some rev
      | some earlier =>
        if Date.parse rev.revokedAt < Date.parse earlier.revokedAt then some rev else best

/-- The earliest revocation by the organisation for the subject, of those that verify. -/
def earliestRevocation (revocations : List (Option Revocation)) (org subject : PublicKeyHex) :
    Option Revocation :=
  revocations.foldl (earlierOf crypto org subject) none

def hexString {w : ℕ} (b : BitVec w) : String := String.ofList (hexText b)

/-- Why an instant is outside the window of the attestation, if it is. -/
def windowFault (att : Attestation) (t : ℤ) (label : String) : Option AttestationVerdict :=
  if t < Date.parse att.issuedAt then
    some (.rejected .notYetIssued (some ("issued_at is after " ++ label)) (some att))
  else if Date.parse att.expiresAt ≤ t then
    some (.rejected .expired (some ("expires_at is at or before " ++ label)) (some att))
  else none

/-- An input that does not parse comes with the parser's first message. -/
def verifyAttestation (input : Except (Option String) Attestation) (ctx : AttestationContext) :
    AttestationVerdict :=
  match input with
  | .error message => .rejected .malformed message none
  | .ok att =>
    if ctx.subject.any (· ≠ att.subject) then
      .rejected .subjectMismatch (some ("attests " ++ hexString att.subject)) (some att)
    else if ctx.org.any (· ≠ att.org) then
      .rejected .orgMismatch (some ("signed by org " ++ hexString att.org)) (some att)
    else if !crypto.verifyObject (.attestation att) att.org then
      .rejected .signatureInvalid (some ("does not verify against org " ++ hexString att.org))
        (some att)
    else
      let at' := ctx.signedAt.getD ctx.now
      match (windowFault att ctx.now "now").orElse fun _ ↦ windowFault att at' "signing time" with
      | some verdict => verdict
      | none =>
        match earliestRevocation crypto ctx.revocations att.org att.subject with
        | none => .ok att none
        | some rev =>
          if Date.parse rev.revokedAt ≤ at' then
            .rejected .revoked
              (some ("revoked_at " ++ String.ofList rev.revokedAt.text)) (some att)
          else .ok att (some rev.revokedAt)

/-- What makes a revocation count against an attestation: it verifies, is by the same organisation
and for the same subject. -/
def CountsAgainst (att : Attestation) (rev : Revocation) : Prop :=
  crypto.verifyObject (.revocation rev) rev.org = true ∧ rev.org = att.org ∧
    rev.subject = att.subject

variable {crypto} {att : Attestation} {t : ℤ} {label : String}

def RevokedBy (t : ℤ) (rev : Option Revocation) : Prop :=
  ∃ r, rev = some r ∧ Date.parse r.revokedAt ≤ t

@[simp] theorem revokedBy_none : ¬RevokedBy t none := by simp [RevokedBy]

@[simp] theorem revokedBy_some {rev : Revocation} :
    RevokedBy t (some rev) ↔ Date.parse rev.revokedAt ≤ t := by simp [RevokedBy]

theorem earlierOf_none (best : Option Revocation) (org subject : PublicKeyHex) :
    earlierOf crypto org subject best none = best := rfl

theorem earlierOf_counts {rev : Revocation} (h : CountsAgainst crypto att rev)
    (best : Option Revocation) : earlierOf crypto att.org att.subject best (some rev) =
      match best with
      | none => some rev
      | some earlier =>
        if Date.parse rev.revokedAt < Date.parse earlier.revokedAt then some rev else best := by
  obtain ⟨hverified, horg, hsubject⟩ := h
  have hsame : ¬(rev.org ≠ att.org ∨ rev.subject ≠ att.subject) := by tauto
  simp only [earlierOf, verifyRevocation, if_pos hverified, if_neg hsame]

theorem earlierOf_uncounted {rev : Revocation} (h : ¬CountsAgainst crypto att rev)
    (best : Option Revocation) : earlierOf crypto att.org att.subject best (some rev) = best := by
  unfold earlierOf verifyRevocation
  by_cases hverified : crypto.verifyObject (.revocation rev) rev.org = true
  · have hother : rev.org ≠ att.org ∨ rev.subject ≠ att.subject := by
      by_contra hsame
      exact h ⟨hverified, by tauto, by tauto⟩
    simp only [if_pos hverified, if_pos hother]
  · simp only [if_neg hverified]

theorem revokedBy_earlierOf_iff {best raw : Option Revocation} :
    RevokedBy t (earlierOf crypto att.org att.subject best raw) ↔
      RevokedBy t best ∨ ∃ r, raw = some r ∧ CountsAgainst crypto att r ∧
        Date.parse r.revokedAt ≤ t := by
  cases raw with
  | none => simp [earlierOf_none]
  | some rev =>
    by_cases hcounts : CountsAgainst crypto att rev
    · rw [earlierOf_counts hcounts]
      cases best with
      | none => simp [hcounts]
      | some earlier =>
        dsimp only
        split_ifs with hlt
        · simp only [revokedBy_some, Option.some.injEq, exists_eq_left', hcounts, true_and]
          omega
        · simp only [revokedBy_some, Option.some.injEq, exists_eq_left', hcounts, true_and]
          omega
    · rw [earlierOf_uncounted hcounts]
      simp [hcounts]

/-- The earliest revocation has come into force exactly when one that counts has. -/
theorem revokedBy_earliest_iff {revocations : List (Option Revocation)} :
    RevokedBy t (earliestRevocation crypto revocations att.org att.subject) ↔
      ∃ r, some r ∈ revocations ∧ CountsAgainst crypto att r ∧ Date.parse r.revokedAt ≤ t := by
  have hfold : ∀ best : Option Revocation,
      RevokedBy t (revocations.foldl (earlierOf crypto att.org att.subject) best) ↔
        RevokedBy t best ∨ ∃ r, some r ∈ revocations ∧ CountsAgainst crypto att r ∧
          Date.parse r.revokedAt ≤ t := by
    induction revocations with
    | nil => simp
    | cons raw revocations ih =>
      intro best
      rw [List.foldl_cons, ih, revokedBy_earlierOf_iff, or_assoc]
      refine or_congr_right ⟨?_, ?_⟩
      · rintro (⟨r, rfl, hr⟩ | ⟨r, hmem, hr⟩)
        · exact ⟨r, List.mem_cons_self, hr⟩
        · exact ⟨r, List.mem_cons_of_mem _ hmem, hr⟩
      · intro ⟨r, hmem, hr⟩
        rcases List.mem_cons.mp hmem with hraw | hmem
        · exact .inl ⟨r, hraw.symm, hr⟩
        · exact .inr ⟨r, hmem, hr⟩
  rw [earliestRevocation, hfold]
  simp [RevokedBy]

theorem windowFault_eq_none_iff :
    windowFault att t label = none ↔ Date.parse att.issuedAt ≤ t ∧ t < Date.parse att.expiresAt := by
  unfold windowFault
  split_ifs with hissued hexpired
  · simp [hissued]
  · simp [hexpired]
  · simpa using ⟨by omega, by omega⟩

theorem windowFault_rejected {verdict : AttestationVerdict}
    (h : windowFault att t label = some verdict) : verdict.isOk = false := by
  unfold windowFault at h
  split_ifs at h <;> cases h <;> rfl

/-- When an attestation is one a verifier may stand behind: the context admits whom it is about and
who signed it, it is signed, in its window now and at the signing time, and not revoked by then. -/
structure Stands (crypto : Crypto) (ctx : AttestationContext) (att : Attestation) : Prop where
  subject : ∀ subject, ctx.subject = some subject → subject = att.subject
  org : ∀ org, ctx.org = some org → org = att.org
  signed : crypto.verifyObject (.attestation att) att.org = true
  now : Date.parse att.issuedAt ≤ ctx.now ∧ ctx.now < Date.parse att.expiresAt
  signing : Date.parse att.issuedAt ≤ ctx.signedAt.getD ctx.now ∧
    ctx.signedAt.getD ctx.now < Date.parse att.expiresAt
  unrevoked : ∀ r, some r ∈ ctx.revocations → CountsAgainst crypto att r →
    ctx.signedAt.getD ctx.now < Date.parse r.revokedAt

theorem any_ne_iff {expected : Option PublicKeyHex} {key : PublicKeyHex} :
    (expected.any (· ≠ key)) = true ↔ ¬∀ k, expected = some k → k = key := by
  cases expected with
  | none => simp
  | some k => simp

theorem windows_eq_none_iff {ctx : AttestationContext} :
    ((windowFault att ctx.now "now").orElse fun _ ↦
        windowFault att (ctx.signedAt.getD ctx.now) "signing time") = none ↔
      (Date.parse att.issuedAt ≤ ctx.now ∧ ctx.now < Date.parse att.expiresAt) ∧
        Date.parse att.issuedAt ≤ ctx.signedAt.getD ctx.now ∧
          ctx.signedAt.getD ctx.now < Date.parse att.expiresAt := by
  cases hfault : windowFault att ctx.now "now" with
  | some verdict =>
    have houtside := mt windowFault_eq_none_iff.2 (ne_of_eq_of_ne hfault nofun)
    simp only [Option.orElse_some, reduceCtorEq, false_iff]
    tauto
  | none =>
    have hinside := windowFault_eq_none_iff.1 hfault
    rw [Option.orElse_none, windowFault_eq_none_iff]
    tauto

theorem windows_rejected {ctx : AttestationContext} {verdict : AttestationVerdict}
    (h : ((windowFault att ctx.now "now").orElse fun _ ↦
      windowFault att (ctx.signedAt.getD ctx.now) "signing time") = some verdict) :
    verdict.isOk = false := by
  cases hfault : windowFault att ctx.now "now" with
  | some fault =>
    rw [hfault] at h
    obtain rfl := Option.some.inj h
    exact windowFault_rejected hfault
  | none =>
    rw [hfault] at h
    exact windowFault_rejected h

theorem unrevoked_iff {ctx : AttestationContext} :
    (∀ r, some r ∈ ctx.revocations → CountsAgainst crypto att r →
        ctx.signedAt.getD ctx.now < Date.parse r.revokedAt) ↔
      ¬RevokedBy (ctx.signedAt.getD ctx.now)
        (earliestRevocation crypto ctx.revocations att.org att.subject) := by
  rw [revokedBy_earliest_iff]
  push Not
  rfl

/-- The verifier accepts what stands, and nothing else. -/
theorem verifyAttestation_isOk_iff_stands {ctx : AttestationContext} :
    (verifyAttestation crypto (.ok att) ctx).isOk = true ↔ Stands crypto ctx att := by
  unfold verifyAttestation
  dsimp only
  split_ifs with hsubject horg hsig
  · refine iff_of_false Bool.false_ne_true fun h ↦ any_ne_iff.1 hsubject h.subject
  · refine iff_of_false Bool.false_ne_true fun h ↦ any_ne_iff.1 horg h.org
  · refine iff_of_false Bool.false_ne_true fun h ↦ ?_
    rw [h.signed] at hsig
    cases hsig
  · have hsubject' := not_not.1 (mt any_ne_iff.2 hsubject)
    have horg' := not_not.1 (mt any_ne_iff.2 horg)
    have hsig' : crypto.verifyObject (.attestation att) att.org = true := by simpa using hsig
    split
    · next verdict hfault =>
      refine iff_of_false (ne_true_of_eq_false (windows_rejected hfault)) fun h ↦ ?_
      rw [windows_eq_none_iff.2 ⟨h.now, h.signing⟩] at hfault
      cases hfault
    · next hfault =>
      obtain ⟨hnow, hsigning⟩ := windows_eq_none_iff.1 hfault
      have hstands : Stands crypto ctx att ↔ ¬RevokedBy (ctx.signedAt.getD ctx.now)
          (earliestRevocation crypto ctx.revocations att.org att.subject) := by
        rw [← unrevoked_iff]
        exact ⟨fun h ↦ h.unrevoked, fun h ↦ ⟨hsubject', horg', hsig', hnow, hsigning, h⟩⟩
      rw [hstands]
      cases hearliest : earliestRevocation crypto ctx.revocations att.org att.subject with
      | none => exact iff_of_true rfl revokedBy_none
      | some rev =>
        rw [revokedBy_some]
        dsimp only
        split_ifs with hle
        · exact iff_of_false Bool.false_ne_true (not_not.2 hle)
        · exact iff_of_true rfl hle

/-- An accepted attestation is the one that was put in. -/
theorem eq_of_verifyAttestation_ok {input : Except (Option String) Attestation}
    {ctx : AttestationContext} {revokedAt : Option Rfc3339}
    (h : verifyAttestation crypto input ctx = .ok att revokedAt) : input = .ok att := by
  cases input with
  | error message => cases h
  | ok att' =>
    unfold verifyAttestation at h
    dsimp only at h
    split_ifs at h
    split at h
    · next verdict hfault =>
      have hrejected := windows_rejected hfault
      rw [h] at hrejected
      cases hrejected
    · split at h
      · cases h
        rfl
      · split_ifs at h
        cases h
        rfl

/-- When an attestation is one a verifier may stand behind, for a subject and as of now. -/
theorem verifyAttestation_isOk_iff {now : ℤ} {subject : PublicKeyHex}
    {revocations : List (Option Revocation)} :
    (verifyAttestation crypto (.ok att)
        { now, subject := some subject, revocations }).isOk = true ↔
      att.subject = subject ∧ crypto.verifyObject (.attestation att) att.org = true ∧
        Date.parse att.issuedAt ≤ now ∧ now < Date.parse att.expiresAt ∧
        ∀ r, some r ∈ revocations → CountsAgainst crypto att r → now < Date.parse r.revokedAt := by
  rw [verifyAttestation_isOk_iff_stands]
  constructor
  · rintro ⟨hsubject, -, hsigned, hnow, -, hunrevoked⟩
    exact ⟨(hsubject subject rfl).symm, hsigned, hnow.1, hnow.2, hunrevoked⟩
  · rintro ⟨rfl, hsigned, hissued, hexpires, hunrevoked⟩
    exact ⟨fun _ h ↦ (Option.some.inj h).symm, nofun, hsigned, ⟨hissued, hexpires⟩,
      ⟨hissued, hexpires⟩, hunrevoked⟩

end Servanda.Identity
