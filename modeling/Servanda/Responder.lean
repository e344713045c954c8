import Mathlib.Data.Finset.Insert
import Std.Data.String.ToNat
import Servanda.Serve

namespace Servanda.Recovery

open Transitions Serve

inductive RecoveryRefusal
  | noSignedChallenge
  | malformedRotation
  | rotationNamesAnotherSuccessor
  | rotationNotSingleSig
  | rotationNotSignedByOldKey
  | predecessorNotAPartyHere
  | challengeNotIssuedOrSpent
  | challengeNotSignedByPersona
  | challengeSignatureDoesNotVerify
  deriving DecidableEq, Repr

inductive RecoveryVerdict
  | verified (persona : PublicKeyHex) (predecessor : Option PublicKeyHex)
  | refused (reason : RecoveryRefusal)
  deriving DecidableEq

def RecoveryVerdict.isVerified : RecoveryVerdict → Bool
  | verified _ _ => true
  | refused _ => false

structure RecoveryResponder where
  issued : Finset String
  counter : ℕ

namespace RecoveryResponder

def new : RecoveryResponder := ⟨∅, 0⟩

/-- The instant is the clock's, in milliseconds. -/
def challengeText (counter : ℕ) (time : ℤ) : String :=
  "recover-" ++ (counter.repr ++ ("-" ++ time.repr))

def issueChallenge (responder : RecoveryResponder) (time : ℤ) : RecoveryResponder × String :=
  let value := challengeText (responder.counter + 1) time
  (⟨insert value responder.issued, responder.counter + 1⟩, value)

def spend (responder : RecoveryResponder) (challenge : String) : RecoveryResponder :=
  { responder with issued := responder.issued.erase challenge }

end RecoveryResponder

variable (crypto : Crypto)

def knowsParty (s : Subtree) (key : PublicKeyHex) : Bool :=
  s.listEdgeIds.any fun id ↦ (s.getEdge id).any fun edge ↦ isParty edge key

def verifyRequest (s : Subtree) (responder : RecoveryResponder) (request : RecoverRequest) :
    RecoveryResponder × RecoveryVerdict :=
  match request.challenge, request.sig with
  | some challenge, some sig =>
    match request.rotation with
    | some none => (responder, .refused .malformedRotation)
    | some (some rotation) =>
      if rotation.new ≠ request.persona then (responder, .refused .rotationNamesAnotherSuccessor)
      else if rotation.sig = none then (responder, .refused .rotationNotSingleSig)
      else if !crypto.verifyObject (.rotation rotation) rotation.old then
        (responder, .refused .rotationNotSignedByOldKey)
      else if !knowsParty s rotation.old then (responder, .refused .predecessorNotAPartyHere)
      else if challenge ∉ responder.issued then
        (responder, .refused .challengeNotIssuedOrSpent)
      else if !crypto.verifyObject (.challenge challenge sig) request.persona then
        (responder, .refused .challengeNotSignedByPersona)
      else (responder.spend challenge, .verified rotation.new (some rotation.old))
    | none =>
      if challenge ∉ responder.issued then
        (responder, .refused .challengeNotIssuedOrSpent)
      else if !crypto.verifyObject (.challenge challenge sig) request.persona then
        (responder, .refused .challengeSignatureDoesNotVerify)
      else (responder.spend challenge, .verified request.persona none)
  | _, _ => (responder, .refused .noSignedChallenge)

def served (s : Subtree) (now : Rfc3339) (identities : List PublicKeyHex) : List RecoverEntry :=
  s.listEdgeIds.filterMap fun id ↦
    match s.getEdge id with
    | none => none
    | some edge =>
      if !identities.any (isParty edge) then none
      else if !identities.any fun who ↦ mayServeEdge crypto s now who edge ≠ .refused then none
      else some ⟨edge, s.getAssertions id⟩

def answer (s : Subtree) (now : Rfc3339) (responder : RecoveryResponder)
    (request : RecoverRequest) : RecoveryResponder × RecoveryVerdict × RecoverResponse :=
  match verifyRequest crypto s responder request with
  | (responder, .refused reason) => (responder, .refused reason, ⟨[]⟩)
  | (responder, .verified persona predecessor) =>
    (responder, .verified persona predecessor,
      ⟨served crypto s now (persona :: predecessor.toList)⟩)

/-- A call on a responder. An answer reads the vault as it stands when the call is made. -/
inductive Call
  | issueChallenge (time : ℤ)
  | answer (s : Subtree) (now : Rfc3339) (request : RecoverRequest)

inductive Reply
  | issued (challenge : String)
  | answered (request : RecoverRequest) (verdict : RecoveryVerdict) (response : RecoverResponse)

def perform (responder : RecoveryResponder) : Call → RecoveryResponder × Reply
  | .issueChallenge time =>
    ((responder.issueChallenge time).1, .issued (responder.issueChallenge time).2)
  | .answer s now request =>
    let (after, verdict, response) := answer crypto s now responder request
    (after, .answered request verdict response)

/-- The responder a sequence of calls leaves, and its replies in order. -/
def run (calls : List Call) : RecoveryResponder × List Reply :=
  calls.foldl (fun acc call ↦
    ((perform crypto acc.1 call).1, acc.2 ++ [(perform crypto acc.1 call).2])) (.new, [])

def issuedIn (replies : List Reply) : List String :=
  replies.filterMap fun
    | .issued challenge => some challenge
    | .answered _ _ _ => none

/-- The challenges of the requests that were answered. -/
def answeredIn (replies : List Reply) : List String :=
  replies.filterMap fun
    | .issued _ => none
    | .answered request verdict _ => if verdict.isVerified then request.challenge else none

/-- The persona of a request, or a key whose rotation to it the request carries, signed. -/
def Identity (request : RecoverRequest) (who : PublicKeyHex) : Prop :=
  who = request.persona ∨ ∃ rotation, request.rotation = some (some rotation) ∧
    rotation.new = request.persona ∧ rotation.old = who ∧
    crypto.verifyObject (.rotation rotation) who = true

/-- The proof of the request carries an open challenge signed by the persona. -/
def Proven (replies : List Reply) (request : RecoverRequest) : Prop :=
  ∃ challenge sig, request.challenge = some challenge ∧ request.sig = some sig ∧
    challenge ∈ issuedIn replies ∧ challenge ∉ answeredIn replies ∧
    crypto.verifyObject (.challenge challenge sig) request.persona = true

variable {crypto} {s : Subtree} {responder after : RecoveryResponder} {request : RecoverRequest}
  {verdict : RecoveryVerdict} {response : RecoverResponse} {now : Rfc3339}

/-- What a verdict leaves of the responder, and what a verified one has seen. -/
theorem verifyRequest_cases (h : verifyRequest crypto s responder request = (after, verdict)) :
    (∃ reason, verdict = .refused reason ∧ after = responder) ∨
      ∃ challenge sig predecessor, request.challenge = some challenge ∧ request.sig = some sig ∧
        challenge ∈ responder.issued ∧
        crypto.verifyObject (.challenge challenge sig) request.persona = true ∧
        (∀ who ∈ request.persona :: predecessor.toList, Identity crypto request who) ∧
        verdict = .verified request.persona predecessor ∧ after = responder.spend challenge := by
  unfold verifyRequest at h
  cases hc : request.challenge with
  | none =>
    simp only [hc, Prod.mk.injEq] at h
    exact .inl ⟨_, h.2.symm, h.1.symm⟩
  | some challenge =>
  cases hs : request.sig with
  | none =>
    simp only [hc, hs, Prod.mk.injEq] at h
    exact .inl ⟨_, h.2.symm, h.1.symm⟩
  | some sig =>
  simp only [hc, hs] at h
  split at h
  next =>
    cases h
    exact .inl ⟨_, rfl, rfl⟩
  next rotation hrotation =>
    split_ifs at h with hnew hsig hold hknown hissued hproof
    all_goals cases h
    case neg =>
      refine .inr ⟨challenge, sig, some rotation.old, rfl, rfl, hissued,
        by simpa using hproof, fun who hwho ↦ ?_, by rw [not_not.mp hnew], rfl⟩
      rcases List.mem_cons.mp hwho with rfl | hwho
      · exact .inl rfl
      · obtain rfl : who = rotation.old := by simpa using hwho
        exact .inr ⟨rotation, hrotation, not_not.mp hnew, rfl, by simpa using hold⟩
    all_goals exact .inl ⟨_, rfl, rfl⟩
  next =>
    split_ifs at h with hissued hproof
    all_goals cases h
    case neg =>
      refine .inr ⟨challenge, sig, none, rfl, rfl, hissued, by simpa using hproof,
        fun who hwho ↦ .inl ?_, rfl, rfl⟩
      simpa using hwho
    all_goals exact .inl ⟨_, rfl, rfl⟩

theorem mem_served {identities : List PublicKeyHex} {entry : RecoverEntry}
    (h : entry ∈ served crypto s now identities) :
    ∃ who ∈ identities, isParty entry.edge who = true := by
  obtain ⟨id, -, hid⟩ := List.mem_filterMap.mp h
  split at hid
  next => cases hid
  next edge =>
    split_ifs at hid with hparty
    cases hid
    simpa using hparty

theorem answer_cases (h : answer crypto s now responder request = (after, verdict, response)) :
    (∃ reason, verdict = .refused reason ∧ after = responder ∧ response.edges = []) ∨
      ∃ challenge sig predecessor, request.challenge = some challenge ∧ request.sig = some sig ∧
        challenge ∈ responder.issued ∧
        crypto.verifyObject (.challenge challenge sig) request.persona = true ∧
        (∀ entry ∈ response.edges, ∃ who, Identity crypto request who ∧
          isParty entry.edge who = true) ∧
        verdict = .verified request.persona predecessor ∧ after = responder.spend challenge := by
  unfold answer at h
  cases hv : verifyRequest crypto s responder request with
  | mk after' verdict' =>
  obtain ⟨reason, rfl, rfl⟩ | ⟨challenge, sig, predecessor, hc, hs, hissued, hproof, hident, rfl,
    rfl⟩ := verifyRequest_cases hv
  · simp only [hv, Prod.mk.injEq] at h
    obtain ⟨rfl, rfl, rfl⟩ := h
    exact .inl ⟨reason, rfl, rfl, rfl⟩
  · simp only [hv, Prod.mk.injEq] at h
    obtain ⟨rfl, rfl, rfl⟩ := h
    refine .inr ⟨challenge, sig, predecessor, hc, hs, hissued, hproof, fun entry hentry ↦ ?_, rfl,
      rfl⟩
    obtain ⟨who, hwho, hparty⟩ := mem_served hentry
    exact ⟨who, hident who hwho, hparty⟩

theorem challengeText_inj {n m : ℕ} {t u : ℤ}
    (h : RecoveryResponder.challengeText n t = RecoveryResponder.challengeText m u) : n = m := by
  have hdigits (k : ℕ) (rest : List Char) :
      (Nat.toDigits 10 k ++ '-' :: rest).takeWhile (· ≠ '-') = Nat.toDigits 10 k := by
    rw [List.takeWhile_append_of_pos, List.takeWhile_cons_of_neg (by simp), List.append_nil]
    intro c hc
    have hdigit := Nat.isDigit_of_mem_toDigits (by decide) (by decide) hc
    have hdash : c ≠ '-' := by
      rintro rfl
      exact absurd hdigit (by decide)
    simpa using hdash
  have hlist := congrArg String.toList h
  simp only [RecoveryResponder.challengeText, String.toList_append, Nat.toList_repr] at hlist
  have hrest := List.append_cancel_left hlist
  have htake := congrArg (List.takeWhile (· ≠ '-')) hrest
  rw [show "-".toList = ['-'] from rfl, List.singleton_append, List.singleton_append, hdigits,
    hdigits] at htake
  exact Nat.repr_injective (String.toList_inj.mp (by simpa using htake))

/-- The set of a responder holds what it issued and has not answered. -/
structure Ledger (responder : RecoveryResponder) (replies : List Reply) : Prop where
  numbered : ∀ c ∈ issuedIn replies, ∃ n time, n ≤ responder.counter ∧
    c = RecoveryResponder.challengeText n time
  issuedOnce : (issuedIn replies).Nodup
  answered : answeredIn replies ⊆ issuedIn replies
  answeredOnce : (answeredIn replies).Nodup
  unspent : ∀ c, c ∈ responder.issued ↔ c ∈ issuedIn replies ∧ c ∉ answeredIn replies

theorem issuedIn_snoc_issued (replies : List Reply) (challenge : String) :
    issuedIn (replies ++ [.issued challenge]) = issuedIn replies ++ [challenge] := by
  simp [issuedIn]

theorem issuedIn_snoc_answered (replies : List Reply) (request : RecoverRequest)
    (verdict : RecoveryVerdict) (response : RecoverResponse) :
    issuedIn (replies ++ [.answered request verdict response]) = issuedIn replies := by
  simp [issuedIn]

theorem answeredIn_snoc_issued (replies : List Reply) (challenge : String) :
    answeredIn (replies ++ [.issued challenge]) = answeredIn replies := by
  simp [answeredIn]

theorem answeredIn_snoc_refused (replies : List Reply) (request : RecoverRequest)
    (reason : RecoveryRefusal) (response : RecoverResponse) :
    answeredIn (replies ++ [.answered request (.refused reason) response]) =
      answeredIn replies := by
  simp [answeredIn, RecoveryVerdict.isVerified]

theorem answeredIn_snoc_verified {challenge : String} (hc : request.challenge = some challenge)
    (replies : List Reply) (persona : PublicKeyHex) (predecessor : Option PublicKeyHex)
    (response : RecoverResponse) :
    answeredIn (replies ++ [.answered request (.verified persona predecessor) response]) =
      answeredIn replies ++ [challenge] := by
  simp [answeredIn, RecoveryVerdict.isVerified, hc]

theorem Ledger.issue {replies : List Reply} (h : Ledger responder replies) (time : ℤ) :
    Ledger (responder.issueChallenge time).1
      (replies ++ [.issued (responder.issueChallenge time).2]) := by
  have hfresh : (responder.issueChallenge time).2 ∉ issuedIn replies := by
    intro hmem
    obtain ⟨n, u, hn, heq⟩ := h.numbered _ hmem
    have hsame := challengeText_inj heq
    omega
  refine ⟨fun c hc ↦ ?_, ?_, ?_, ?_, fun c ↦ ?_⟩
  · rw [issuedIn_snoc_issued] at hc
    rcases List.mem_append.mp hc with hc | hc
    · obtain ⟨n, u, hn, rfl⟩ := h.numbered c hc
      exact ⟨n, u, Nat.le_succ_of_le hn, rfl⟩
    · exact ⟨_, time, le_rfl, List.mem_singleton.mp hc⟩
  · rw [issuedIn_snoc_issued]
    exact List.concat_eq_append ▸ h.issuedOnce.concat hfresh
  · rw [issuedIn_snoc_issued, answeredIn_snoc_issued]
    exact fun c hc ↦ List.mem_append_left _ (h.answered hc)
  · rw [answeredIn_snoc_issued]
    exact h.answeredOnce
  · rw [issuedIn_snoc_issued, answeredIn_snoc_issued, List.mem_append, List.mem_singleton]
    refine Finset.mem_insert.trans ⟨?_, ?_⟩
    · rintro (rfl | hc)
      · exact ⟨.inr rfl, fun hmem ↦ hfresh (h.answered hmem)⟩
      · exact ⟨.inl ((h.unspent c).mp hc).1, ((h.unspent c).mp hc).2⟩
    · rintro ⟨hc | rfl, hopen⟩
      · exact .inr ((h.unspent c).mpr ⟨hc, hopen⟩)
      · exact .inl rfl

theorem Ledger.answer {replies : List Reply} (h : Ledger responder replies)
    (ha : answer crypto s now responder request = (after, verdict, response)) :
    Ledger after (replies ++ [.answered request verdict response]) := by
  obtain ⟨reason, rfl, rfl, -⟩ | ⟨challenge, sig, predecessor, hc, -, hissued, -, -, rfl, rfl⟩ :=
    answer_cases ha
  · constructor
    all_goals simp only [issuedIn_snoc_answered, answeredIn_snoc_refused]
    · exact h.numbered
    · exact h.issuedOnce
    · exact h.answered
    · exact h.answeredOnce
    · exact h.unspent
  · obtain ⟨hmem, hopen⟩ := (h.unspent challenge).mp hissued
    constructor
    all_goals simp only [issuedIn_snoc_answered, answeredIn_snoc_verified hc]
    · exact h.numbered
    · exact h.issuedOnce
    · exact List.append_subset.mpr ⟨h.answered, by simpa using hmem⟩
    · exact List.concat_eq_append ▸ h.answeredOnce.concat hopen
    · intro c
      rw [RecoveryResponder.spend, Finset.mem_erase, h.unspent, List.mem_append,
        List.mem_singleton]
      tauto

theorem Ledger.run (crypto : Crypto) (calls : List Call) :
    Ledger (run crypto calls).1 (run crypto calls).2 := by
  induction calls using List.reverseRecOn with
  | nil => exact ⟨by simp [Recovery.run, issuedIn], by simp [Recovery.run, issuedIn],
      by simp [Recovery.run, answeredIn], by simp [Recovery.run, answeredIn],
      by simp [Recovery.run, RecoveryResponder.new, issuedIn]⟩
  | append_singleton calls call ih =>
    unfold Recovery.run
    rw [List.foldl_append]
    cases call with
    | issueChallenge time => exact ih.issue time
    | answer s now request => exact ih.answer rfl

/-- What a responder gives away after a sequence of calls, and to whom. -/
structure Disclosure (crypto : Crypto) (calls : List Call) : Prop where
  proven : ∀ s now request, (answer crypto s now (run crypto calls).1 request).2.2.edges ≠ [] →
    Proven crypto (run crypto calls).2 request
  verified : ∀ s now request,
    (answer crypto s now (run crypto calls).1 request).2.1.isVerified = true →
      Proven crypto (run crypto calls).2 request
  issuedOnce : (issuedIn (run crypto calls).2).Nodup
  answeredOnce : (answeredIn (run crypto calls).2).Nodup
  /-- A failed request leaves the responder as it was. -/
  refused : ∀ s now request,
    (answer crypto s now (run crypto calls).1 request).2.1.isVerified = false →
      (answer crypto s now (run crypto calls).1 request).1 = (run crypto calls).1
  unspent : ∀ c ∈ issuedIn (run crypto calls).2, c ∉ answeredIn (run crypto calls).2 →
    c ∈ (run crypto calls).1.issued
  own : ∀ s now request, ∀ entry ∈ (answer crypto s now (run crypto calls).1 request).2.2.edges,
    ∃ who, Identity crypto request who ∧ isParty entry.edge who = true

theorem answer_proven (crypto : Crypto) (calls : List Call) (s : Subtree) (now : Rfc3339)
    (request : RecoverRequest) :
    (∃ reason, (answer crypto s now (run crypto calls).1 request).2.1 = .refused reason ∧
        (answer crypto s now (run crypto calls).1 request).1 = (run crypto calls).1 ∧
        (answer crypto s now (run crypto calls).1 request).2.2.edges = []) ∨
      (answer crypto s now (run crypto calls).1 request).2.1.isVerified = true ∧
        Proven crypto (run crypto calls).2 request ∧
        ∀ entry ∈ (answer crypto s now (run crypto calls).1 request).2.2.edges,
          ∃ who, Identity crypto request who ∧ isParty entry.edge who = true := by
  rcases ha : answer crypto s now (run crypto calls).1 request with ⟨after, verdict, response⟩
  refine (answer_cases ha).imp_right ?_
  rintro ⟨challenge, sig, predecessor, hc, hs, hissued, hproof, hown, rfl, -⟩
  obtain ⟨hmem, hopen⟩ := ((Ledger.run crypto calls).unspent challenge).mp hissued
  exact ⟨rfl, ⟨challenge, sig, hc, hs, hmem, hopen, hproof⟩, hown⟩

/-- Recovery discloses to a requester with a fresh proof of possession, and nothing beyond the
edges of the keys that requester stands for. -/
theorem discloses_to_proven (crypto : Crypto) (calls : List Call) : Disclosure crypto calls := by
  have hledger := Ledger.run crypto calls
  refine ⟨fun s now request hne ↦ ?_, fun s now request hv ↦ ?_, hledger.issuedOnce,
    hledger.answeredOnce, fun s now request hr ↦ ?_,
    fun c hc hopen ↦ (hledger.unspent c).mpr ⟨hc, hopen⟩, fun s now request entry hentry ↦ ?_⟩
  · obtain ⟨reason, -, -, hempty⟩ | ⟨-, hproven, -⟩ := answer_proven crypto calls s now request
    · exact absurd hempty hne
    · exact hproven
  · obtain ⟨reason, hreason, -⟩ | ⟨-, hproven, -⟩ := answer_proven crypto calls s now request
    · rw [hreason] at hv
      exact absurd hv (by simp [RecoveryVerdict.isVerified])
    · exact hproven
  · obtain ⟨reason, -, hafter, -⟩ | ⟨hv, -⟩ := answer_proven crypto calls s now request
    · exact hafter
    · exact absurd (hv.symm.trans hr) (by decide)
  · obtain ⟨reason, -, -, hempty⟩ | ⟨-, -, hown⟩ := answer_proven crypto calls s now request
    · rw [hempty] at hentry
      exact absurd hentry List.not_mem_nil
    · exact hown entry hentry

end Servanda.Recovery
