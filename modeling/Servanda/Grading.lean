import Servanda.Ladder
import Servanda.Chains

/-!
Evidence as the verifiers of this package return it, and whom a grade of it is about.
-/

namespace Servanda.Identity

/-- The parts of a URL. -/
structure Url where
  protocol : String
  userinfo : String
  hostname : String
  port : String
  pathname : String
  search : String
  hash : String
  deriving DecidableEq

/-- How the platform reads and writes a URL and folds case, and whether the `sig` of a binding proof
verifies under a key. -/
structure Channels where
  parseUrl : String → Option Url
  urlText : Url → String
  toLowerCase : String → String
  verifyObject : BindingProof → PublicKeyHex → Bool

structure BindingProofContext where
  observedChannelUrl : String
  persona : Option PublicKeyHex := none

/-- Evidence about a key, with what each verifier was given. -/
structure Gathered where
  subject : PublicKeyHex
  priorConfirmedEdges : ℕ := 0
  attestation : Option (Except (Option String) Attestation × AttestationContext) := none
  anchor : Option AnchorResolution := none
  bindingProof : Option (Except (Option String) BindingProof × BindingProofContext) := none

section Verifiers

variable (crypto : Crypto) (channels : Channels)

def normalizeChannelUrl (url : String) : Option String :=
  match channels.parseUrl url with
  | none => none
  | some u =>
    if u.protocol ≠ "https:" then none
    else some <| channels.urlText
      { u with
        hash := ""
        hostname := channels.toLowerCase u.hostname
        port := if u.port = "443" then "" else u.port
        pathname := if 1 < u.pathname.length ∧ u.pathname.endsWith "/" then
            (u.pathname.dropEnd 1).toString
          else u.pathname }

/-- The channel a proof names is the one it was found on. -/
def onItsChannel (proof : BindingProof) (observed : String) : Bool :=
  match normalizeChannelUrl channels proof.channelUrl, normalizeChannelUrl channels observed with
  | some claimed, some found => claimed == found
  | _, _ => false

def verifyBindingProof (input : Except (Option String) BindingProof) (ctx : BindingProofContext) :
    BindingProofVerdict :=
  match input with
  | .error message => .rejected .malformed message
  | .ok proof =>
    if ctx.persona.any (· ≠ proof.persona) then
      .rejected .personaMismatch (some ("binds " ++ hexString proof.persona))
    else if !onItsChannel channels proof ctx.observedChannelUrl then
      .rejected .notObservedOnItsChannel
        (some ("claims " ++ proof.channelUrl ++ ", observed at " ++ ctx.observedChannelUrl))
    else if !channels.verifyObject proof proof.persona then
      .rejected .signatureInvalid (some ("does not verify against " ++ hexString proof.persona))
    else .ok proof

def Gathered.evidence (gathered : Gathered) : LadderEvidence where
  subject := gathered.subject
  priorConfirmedEdges := gathered.priorConfirmedEdges
  attestation := gathered.attestation.map fun call ↦ verifyAttestation crypto call.1 call.2
  anchor := gathered.anchor
  bindingProof := gathered.bindingProof.map fun call ↦ verifyBindingProof channels call.1 call.2

/-- When a binding proof is accepted: the context admits whom it binds, it was found on the channel
it names, and it is signed by the persona. -/
structure Proves (ctx : BindingProofContext) (proof : BindingProof) : Prop where
  persona : ∀ persona, ctx.persona = some persona → persona = proof.persona
  observed : onItsChannel channels proof ctx.observedChannelUrl = true
  signed : channels.verifyObject proof proof.persona = true

end Verifiers

/-- More evidence than before: nothing that stands is taken away. -/
structure LadderEvidence.Grows (evidence evidence' : LadderEvidence) : Prop where
  priorConfirmedEdges : evidence.priorConfirmedEdges ≤ evidence'.priorConfirmedEdges
  attestation : ∀ att, evidence.attested = some att → evidence'.attested = some att
  anchor : ∀ anchor, evidence.anchor = some anchor → anchor.ok = true →
    evidence'.anchor = some anchor
  bindingProof : ∀ proof, evidence.bindingProof = some (.ok proof) →
    evidence'.bindingProof = some (.ok proof)

/-- A grade that is about the key it grades, and that more evidence does not lower. -/
structure AboutSubject (evidence : LadderEvidence) : Prop where
  attested : (bindingLevel evidence).level = .two ∨ (bindingLevel evidence).level = .three ∨
    (bindingLevel evidence).displayName.isSome = true ∨
    (bindingLevel evidence).handle.isSome = true ∨
    (bindingLevel evidence).attestedBy.isSome = true →
      ∃ att, evidence.attested = some att ∧ att.subject = evidence.subject
  proven : .ext ∈ (bindingLevel evidence).achieved ∨
    (bindingLevel evidence).externalChannel.isSome = true →
      ∃ proof, evidence.bindingProof = some (.ok proof) ∧ proof.persona = evidence.subject
  anchored : (bindingLevel evidence).level = .three → ∃ att anchor,
    evidence.attested = some att ∧ evidence.anchor = some anchor ∧ anchor.ok = true ∧
      anchor.orgRoot = some att.org
  monotone : ∀ evidence', evidence.Grows evidence' →
    levelRank (bindingLevel evidence).level ≤ levelRank (bindingLevel evidence').level

/-- Nothing that would be accepted is about another key. -/
structure Gathered.Vetted (crypto : Crypto) (channels : Channels) (gathered : Gathered) : Prop where
  attestation : ∀ att ctx, gathered.attestation = some (.ok att, ctx) → Stands crypto ctx att →
    att.subject = gathered.subject
  bindingProof : ∀ proof ctx, gathered.bindingProof = some (.ok proof, ctx) →
    Proves channels ctx proof → proof.persona = gathered.subject

section Levels

theorem levelRank_highest_le {achieved : List VerificationLevel} {n : ℕ} :
    levelRank (highest achieved) ≤ n ↔ ∀ level ∈ achieved, levelRank level ≤ n := by
  have hfold : ∀ best, levelRank (achieved.foldl
      (fun best l ↦ if levelRank best < levelRank l then l else best) best) ≤ n ↔
        levelRank best ≤ n ∧ ∀ level ∈ achieved, levelRank level ≤ n := by
    induction achieved with
    | nil => simp
    | cons level achieved ih =>
      intro best
      rw [List.foldl_cons, ih, List.forall_mem_cons, ← and_assoc]
      refine and_congr_left fun _ ↦ ?_
      split_ifs with hlt
      · exact ⟨fun h ↦ ⟨hlt.le.trans h, h⟩, And.right⟩
      · exact ⟨fun h ↦ ⟨h, (not_lt.1 hlt).trans h⟩, And.left⟩
  rw [highest, hfold]
  exact and_iff_right (Nat.zero_le n)

theorem levelRank_injective : Function.Injective levelRank := by
  intro level level' h
  cases level <;> cases level' <;> first | rfl | cases h

variable {evidence evidence' : LadderEvidence}

theorem LadderEvidence.mem_achieved {level : VerificationLevel} : level ∈ evidence.achieved ↔
    level = .zero ∨ level = .one ∧ 1 ≤ evidence.priorConfirmedEdges ∨
      level = .two ∧ evidence.attested.isSome = true ∨
      level = .three ∧ evidence.anchored.1.isSome = true ∨
      level = .ext ∧ evidence.provenChannel.isSome = true := by
  have hif : ∀ (p : Prop) [Decidable p] (l : VerificationLevel),
      level ∈ (if p then [l] else []) ↔ level = l ∧ p := by
    intro p _ l
    split_ifs with hp
    · simp [hp]
    · simp [hp]
  simp only [achieved, List.mem_append, List.mem_singleton, hif]
  tauto

theorem LadderEvidence.anchored_isSome_iff : evidence.anchored.1.isSome = true ↔ ∃ att anchor,
    evidence.attested = some att ∧ evidence.anchor = some anchor ∧ anchor.ok = true ∧
      anchor.orgRoot = some att.org := by
  unfold anchored
  cases hattested : evidence.attested with
  | none =>
    cases hanchor : evidence.anchor with
    | none => simp
    | some anchor =>
      dsimp only
      split_ifs
      all_goals simp
  | some att =>
    cases hanchor : evidence.anchor with
    | none => simp
    | some anchor =>
      simp only [anchorsOrgRoot, Option.some.injEq, exists_and_left, exists_eq_left']
      by_cases hok : anchor.ok = true
      · by_cases hroot : anchor.orgRoot = some att.org
        · simp [hok, hroot]
        · simp [hok, hroot]
      · simp [hok]

theorem LadderEvidence.provenChannel_isSome_iff : evidence.provenChannel.isSome = true ↔
    ∃ proof, evidence.bindingProof = some (.ok proof) := by
  unfold provenChannel
  split
  · next proof h => exact iff_of_true rfl ⟨proof, h⟩
  · next h => exact iff_of_false Bool.false_ne_true fun ⟨proof, hproof⟩ ↦ h proof hproof

theorem LadderEvidence.Grows.achieved (h : evidence.Grows evidence') {level : VerificationLevel}
    (hlevel : level ∈ evidence.achieved) : level ∈ evidence'.achieved := by
  rw [mem_achieved] at hlevel ⊢
  obtain rfl | ⟨rfl, hpriors⟩ | ⟨rfl, hattested⟩ | ⟨rfl, hanchored⟩ | ⟨rfl, hproven⟩ := hlevel
  · exact .inl rfl
  · exact .inr (.inl ⟨rfl, hpriors.trans h.priorConfirmedEdges⟩)
  · obtain ⟨att, hatt⟩ := Option.isSome_iff_exists.1 hattested
    exact .inr (.inr (.inl ⟨rfl, Option.isSome_iff_exists.2 ⟨att, h.attestation att hatt⟩⟩))
  · obtain ⟨att, anchor, hatt, hanchor, hok, hroot⟩ := anchored_isSome_iff.1 hanchored
    refine .inr (.inr (.inr (.inl ⟨rfl, anchored_isSome_iff.2 ⟨att, anchor, ?_, ?_, hok, hroot⟩⟩)))
    · exact h.attestation att hatt
    · exact h.anchor anchor hanchor hok
  · obtain ⟨proof, hproof⟩ := provenChannel_isSome_iff.1 hproven
    refine .inr (.inr (.inr (.inr ⟨rfl, provenChannel_isSome_iff.2 ⟨proof, ?_⟩⟩)))
    exact h.bindingProof proof hproof

theorem levelRank_mono (h : evidence.Grows evidence') :
    levelRank (bindingLevel evidence).level ≤ levelRank (bindingLevel evidence').level :=
  levelRank_highest_le.2 fun _ hlevel ↦ levelRank_highest_le.1 le_rfl _ (h.achieved hlevel)

/-- The highest level is one of those achieved. -/
theorem level_mem_achieved : (bindingLevel evidence).level ∈ evidence.achieved := by
  have hmem : ∀ (achieved : List VerificationLevel) (best : VerificationLevel), achieved.foldl
      (fun best l ↦ if levelRank best < levelRank l then l else best) best ∈ best :: achieved := by
    intro achieved
    induction achieved with
    | nil => exact fun best ↦ List.mem_singleton_self best
    | cons level achieved ih =>
      intro best
      have hnext := ih (if levelRank best < levelRank level then level else best)
      rw [List.foldl_cons]
      split_ifs at hnext ⊢
      · exact List.mem_cons_of_mem best hnext
      · obtain heq | hrest := List.mem_cons.1 hnext
        · exact List.mem_cons.2 (.inl heq)
        · exact List.mem_cons_of_mem best (List.mem_cons_of_mem level hrest)
  obtain heq | h := List.mem_cons.1 (hmem evidence.achieved .zero)
  · have hzero : (bindingLevel evidence).level = .zero := heq
    rw [hzero]
    exact LadderEvidence.mem_achieved.2 (.inl rfl)
  · exact h

theorem anchored_of_three (h : (bindingLevel evidence).level = .three) : ∃ att anchor,
    evidence.attested = some att ∧ evidence.anchor = some anchor ∧ anchor.ok = true ∧
      anchor.orgRoot = some att.org := by
  have hthree := @level_mem_achieved evidence
  rw [h, LadderEvidence.mem_achieved] at hthree
  obtain h | ⟨h, -⟩ | ⟨h, -⟩ | ⟨-, hanchored⟩ | ⟨h, -⟩ := hthree
  · cases h
  · cases h
  · cases h
  · exact LadderEvidence.anchored_isSome_iff.1 hanchored
  · cases h

/-- What a name or a level from an attestation up takes. -/
theorem attested_of_named (h : (bindingLevel evidence).level = .two ∨
    (bindingLevel evidence).level = .three ∨ (bindingLevel evidence).displayName.isSome = true ∨
    (bindingLevel evidence).handle.isSome = true ∨
    (bindingLevel evidence).attestedBy.isSome = true) : evidence.attested.isSome = true := by
  have hbearing : ∀ f : Attestation → Option String,
      (evidence.nameBearing.bind f).isSome = true → evidence.attested.isSome = true := by
    intro f hf
    unfold LadderEvidence.nameBearing at hf
    split_ifs at hf
    · cases hattested : evidence.attested with
      | some att => rfl
      | none =>
        rw [hattested] at hf
        cases hf
    · cases hf
  obtain h | h | h | h | h := h
  · exact bindingLevel_attested_iff.1 (.inl h)
  · exact bindingLevel_attested_iff.1 (.inr h)
  · exact hbearing _ h
  · exact hbearing _ h
  · exact Option.isSome_map.symm.trans h

end Levels

section Calls

variable {crypto : Crypto} {channels : Channels} {gathered : Gathered}

theorem any_ne_persona_iff {ctx : BindingProofContext} {proof : BindingProof} :
    ctx.persona.any (· ≠ proof.persona) = true ↔
      ¬∀ persona, ctx.persona = some persona → persona = proof.persona := any_ne_iff

/-- The verifier of binding proofs accepts what proves its channel, and nothing else. -/
theorem verifyBindingProof_ok_iff {input : Except (Option String) BindingProof}
    {ctx : BindingProofContext} {proof : BindingProof} :
    verifyBindingProof channels input ctx = .ok proof ↔
      input = .ok proof ∧ Proves channels ctx proof := by
  cases input with
  | error message => exact iff_of_false nofun fun h ↦ nomatch h.1
  | ok proof' =>
    have hproves : Proves channels ctx proof' ↔
        ¬(ctx.persona.any (· ≠ proof'.persona) = true) ∧
          onItsChannel channels proof' ctx.observedChannelUrl = true ∧
            channels.verifyObject proof' proof'.persona = true := by
      rw [any_ne_persona_iff, not_not]
      exact ⟨fun h ↦ ⟨h.persona, h.observed, h.signed⟩, fun ⟨h, h', h''⟩ ↦ ⟨h, h', h''⟩⟩
    unfold verifyBindingProof
    dsimp only
    rw [Except.ok.injEq]
    split_ifs with hpersona hchannel hsigned
    · refine iff_of_false nofun ?_
      rintro ⟨rfl, h⟩
      exact (hproves.1 h).1 hpersona
    · refine iff_of_false nofun ?_
      rintro ⟨rfl, h⟩
      rw [h.observed] at hchannel
      cases hchannel
    · refine iff_of_false nofun ?_
      rintro ⟨rfl, h⟩
      rw [h.signed] at hsigned
      cases hsigned
    · rw [BindingProofVerdict.ok.injEq]
      refine ⟨?_, And.left⟩
      rintro rfl
      exact ⟨rfl, hproves.2 ⟨hpersona, by simpa using hchannel, by simpa using hsigned⟩⟩

theorem attested_iff {evidence : LadderEvidence} {att : Attestation} :
    evidence.attested = some att ↔
      ∃ revokedAt, evidence.attestation = some (.ok att revokedAt) := by
  unfold LadderEvidence.attested
  split
  · next att' revokedAt h => simp [h]
  · next h => exact iff_of_false nofun fun ⟨revokedAt, hok⟩ ↦ h att revokedAt hok

/-- What a grade takes for attested is what was put in, where it stands. -/
theorem attested_evidence_iff {att : Attestation} :
    (gathered.evidence crypto channels).attested = some att ↔
      ∃ ctx, gathered.attestation = some (.ok att, ctx) ∧ Stands crypto ctx att := by
  rw [attested_iff]
  constructor
  · rintro ⟨revokedAt, h⟩
    obtain ⟨⟨input, ctx⟩, hcall, hverdict⟩ := Option.map_eq_some_iff.1 h
    obtain rfl := eq_of_verifyAttestation_ok hverdict
    refine ⟨ctx, hcall, verifyAttestation_isOk_iff_stands.1 ?_⟩
    exact congrArg AttestationVerdict.isOk hverdict
  · rintro ⟨ctx, hcall, hstands⟩
    have hok := verifyAttestation_isOk_iff_stands.2 hstands
    cases hverdict : verifyAttestation crypto (.ok att) ctx with
    | rejected reason detail attestation =>
      rw [hverdict] at hok
      cases hok
    | ok att' revokedAt =>
      obtain rfl := Except.ok.inj (eq_of_verifyAttestation_ok hverdict)
      refine ⟨revokedAt, ?_⟩
      rw [Gathered.evidence, hcall, Option.map_some, hverdict]

theorem bindingProof_evidence_iff {proof : BindingProof} :
    (gathered.evidence crypto channels).bindingProof = some (.ok proof) ↔
      ∃ ctx, gathered.bindingProof = some (.ok proof, ctx) ∧ Proves channels ctx proof := by
  constructor
  · intro h
    obtain ⟨⟨input, ctx⟩, hcall, hverdict⟩ := Option.map_eq_some_iff.1 h
    obtain ⟨rfl, hproves⟩ := verifyBindingProof_ok_iff.1 hverdict
    exact ⟨ctx, hcall, hproves⟩
  · rintro ⟨ctx, hcall, hproves⟩
    rw [Gathered.evidence, hcall, Option.map_some, verifyBindingProof_ok_iff.2 ⟨rfl, hproves⟩]

theorem attestedBy_of_attested {evidence : LadderEvidence} {att : Attestation}
    (h : evidence.attested = some att) : (bindingLevel evidence).attestedBy.isSome = true := by
  have hby : (bindingLevel evidence).attestedBy = evidence.attested.map (·.org) := rfl
  rw [hby, h]
  rfl

theorem externalChannel_isSome_iff {evidence : LadderEvidence} :
    (bindingLevel evidence).externalChannel.isSome = true ↔
      ∃ proof, evidence.bindingProof = some (.ok proof) :=
  LadderEvidence.provenChannel_isSome_iff

theorem proven_of_ext {evidence : LadderEvidence} (h : .ext ∈ (bindingLevel evidence).achieved) :
    ∃ proof, evidence.bindingProof = some (.ok proof) := by
  obtain h | ⟨h, -⟩ | ⟨h, -⟩ | ⟨h, -⟩ | ⟨-, hproven⟩ := LadderEvidence.mem_achieved.1 h
  · cases h
  · cases h
  · cases h
  · cases h
  · exact LadderEvidence.provenChannel_isSome_iff.1 hproven

theorem aboutSubject_of_vetted (h : gathered.Vetted crypto channels) :
    AboutSubject (gathered.evidence crypto channels) where
  attested hnamed := by
    obtain ⟨att, hatt⟩ := Option.isSome_iff_exists.1 (attested_of_named hnamed)
    obtain ⟨ctx, hcall, hstands⟩ := attested_evidence_iff.1 hatt
    exact ⟨att, hatt, h.attestation att ctx hcall hstands⟩
  proven hproven := by
    obtain ⟨proof, hproof⟩ := hproven.elim proven_of_ext externalChannel_isSome_iff.1
    obtain ⟨ctx, hcall, hproves⟩ := bindingProof_evidence_iff.1 hproof
    exact ⟨proof, hproof, h.bindingProof proof ctx hcall hproves⟩
  anchored := anchored_of_three
  monotone _ := levelRank_mono

/-- A grade is about its subject exactly where every verifier was asked about it, or was shown
nothing acceptable about another key. -/
theorem aboutSubject_iff (crypto : Crypto) (channels : Channels) (gathered : Gathered) :
    AboutSubject (gathered.evidence crypto channels) ↔ gathered.Vetted crypto channels := by
  refine ⟨fun h ↦ ⟨fun att ctx hcall hstands ↦ ?_, fun proof ctx hcall hproves ↦ ?_⟩,
    aboutSubject_of_vetted⟩
  · have hatt := (@attested_evidence_iff crypto channels gathered att).2 ⟨ctx, hcall, hstands⟩
    obtain ⟨att', hatt', hsubject⟩ :=
      h.attested (.inr (.inr (.inr (.inr (attestedBy_of_attested hatt)))))
    rw [hatt] at hatt'
    obtain rfl := Option.some.inj hatt'
    exact hsubject
  · have hproof := (@bindingProof_evidence_iff crypto channels gathered proof).2
      ⟨ctx, hcall, hproves⟩
    obtain ⟨proof', hproof', hpersona⟩ :=
      h.proven (.inr (externalChannel_isSome_iff.2 ⟨proof, hproof⟩))
    rw [hproof] at hproof'
    cases hproof'
    exact hpersona

/-- The grade is asked for one key, and the attestation verified is another's: its name and level
come with it. -/
theorem attested_for_another : ¬∀ crypto channels (gathered : Gathered),
    AboutSubject (gathered.evidence crypto channels) := by
  intro h
  let membership : Attestation := ⟨Sample.creditorKey, Sample.creditorKey, .persona,
    ⟨some "Owner", none⟩, Sample.date 1 1 0, Sample.date 12 31 0, 0⟩
  let gathered : Gathered :=
    { subject := Sample.ownerKey
      attestation := some (.ok membership, { now := Date.parse (Sample.date 3 1 0) }) }
  have hstands : Stands Sample.crypto { now := Date.parse (Sample.date 3 1 0) } membership := by
    refine ⟨fun _ h ↦ absurd h.symm (Option.some_ne_none _),
      fun _ h ↦ absurd h.symm (Option.some_ne_none _), rfl, ?_, ?_,
      fun _ h ↦ absurd h List.not_mem_nil⟩
    · decide +kernel
    · decide +kernel
  have hatt := (@attested_evidence_iff Sample.crypto ⟨fun _ ↦ none, fun _ ↦ "", id, fun _ _ ↦ true⟩
    gathered membership).2 ⟨_, rfl, hstands⟩
  obtain ⟨att, hatt', hsubject⟩ := (h Sample.crypto _ gathered).attested
    (.inr (.inr (.inr (.inr (attestedBy_of_attested hatt)))))
  rw [hatt] at hatt'
  obtain rfl := Option.some.inj hatt'
  exact absurd hsubject (by decide)

end Calls

namespace IdentityVerifier

structure VerifyIdentityInput where
  subject : PublicKeyHex
  priorConfirmedEdges : ℕ := 0
  attestations : List (Except (Option String) Attestation) := []
  revocations : List (Option Revocation) := []
  signedAt : Option ℤ := none
  orgDomain : Option String := none
  /-- A proof, and where it was observed. -/
  bindingProof : Option (Except (Option String) BindingProof × String) := none

variable (crypto : Crypto) (channels : Channels) (resolve : String → AnchorResolution) (now : ℤ)
  (input : VerifyIdentityInput)

/-- The first verdict that is no rejection, or the first of all. -/
def firstVerdict (ctx : AttestationContext) : Option AttestationVerdict →
    List (Except (Option String) Attestation) → Option AttestationVerdict
  | kept, [] => kept
  | kept, candidate :: candidates =>
    let verdict := verifyAttestation crypto candidate ctx
    if verdict.isOk then some verdict else firstVerdict ctx (kept.or (some verdict)) candidates

def VerifyIdentityInput.context : AttestationContext where
  now
  signedAt := input.signedAt
  subject := some input.subject
  revocations := input.revocations

def VerifyIdentityInput.evidence : LadderEvidence where
  subject := input.subject
  priorConfirmedEdges := input.priorConfirmedEdges
  attestation := firstVerdict crypto (input.context now) none input.attestations
  anchor := match input.orgDomain with
    | none => none
    | some domain => if domain = "" then none else some (resolve domain)
  bindingProof := input.bindingProof.map fun call ↦
    verifyBindingProof channels call.1 ⟨call.2, some input.subject⟩

/-- Raw evidence in, a graded identity out. -/
def verify : VerifiedIdentity := bindingLevel (input.evidence crypto channels resolve now)

variable {crypto now} in
theorem firstVerdict_from {ctx : AttestationContext} {kept : Option AttestationVerdict}
    {candidates : List (Except (Option String) Attestation)} {verdict : AttestationVerdict}
    (h : firstVerdict crypto ctx kept candidates = some verdict) :
    kept = some verdict ∨ ∃ candidate, verifyAttestation crypto candidate ctx = verdict := by
  induction candidates generalizing kept with
  | nil => exact .inl h
  | cons candidate candidates ih =>
    rw [firstVerdict] at h
    split_ifs at h
    · exact .inr ⟨candidate, Option.some.inj h⟩
    · obtain hkept | hlater := ih h
      · cases kept with
        | none => exact .inr ⟨candidate, Option.some.inj hkept⟩
        | some kept => exact .inl hkept
      · exact .inr hlater

/-- The one call a client makes asks every verifier about the key it grades. -/
theorem verify_aboutSubject : AboutSubject (input.evidence crypto channels resolve now) := by
  obtain ⟨call, hcall, hctx⟩ : ∃ call : Option (Except (Option String) Attestation ×
      AttestationContext), (call.map fun call ↦ verifyAttestation crypto call.1 call.2) =
        firstVerdict crypto (input.context now) none input.attestations ∧
      ∀ att ctx, call = some (.ok att, ctx) → ctx = input.context now := by
    cases hverdict : firstVerdict crypto (input.context now) none input.attestations with
    | none => exact ⟨none, rfl, fun _ _ h ↦ absurd h.symm (Option.some_ne_none _)⟩
    | some verdict =>
      obtain h | ⟨candidate, hcandidate⟩ := firstVerdict_from hverdict
      · cases h
      · refine ⟨some (candidate, input.context now), congrArg some hcandidate, fun att ctx h ↦ ?_⟩
        exact (congrArg Prod.snd (Option.some.inj h)).symm
  let gathered : Gathered :=
    { subject := input.subject
      priorConfirmedEdges := input.priorConfirmedEdges
      attestation := call
      anchor := (input.evidence crypto channels resolve now).anchor
      bindingProof := input.bindingProof.map fun call ↦ (call.1, ⟨call.2, some input.subject⟩) }
  have hevidence : gathered.evidence crypto channels =
      input.evidence crypto channels resolve now := by
    unfold Gathered.evidence VerifyIdentityInput.evidence
    simp only [gathered, hcall, Option.map_map]
    rfl
  rw [← hevidence]
  refine aboutSubject_of_vetted ⟨fun att ctx hgathered hstands ↦ ?_,
    fun proof ctx hgathered hproves ↦ ?_⟩
  · obtain rfl := hctx att ctx hgathered
    exact (hstands.subject input.subject rfl).symm
  · obtain ⟨given, -, hgiven⟩ := Option.map_eq_some_iff.1 hgathered
    have hctx : ctx = ⟨given.2, some input.subject⟩ := (congrArg Prod.snd hgiven).symm
    exact (hproves.persona input.subject (congrArg BindingProofContext.persona hctx)).symm

end IdentityVerifier

end Servanda.Identity
