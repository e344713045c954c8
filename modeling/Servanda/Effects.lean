import Servanda.Chains
import Servanda.Inbox
import Servanda.Node

namespace Servanda

open Transitions Serve Recon

variable {crypto : Crypto} {now : Rfc3339}

structure SameOwn (s s' : Subtree) : Prop where
  commitments : s'.commitments = s.commitments
  expectations : s'.expectations = s.expectations
  edgeMeta : s'.edgeMeta = s.edgeMeta

namespace SameOwn

variable {s s' s'' : Subtree}

theorem refl (s : Subtree) : SameOwn s s := ⟨rfl, rfl, rfl⟩

theorem trans (h : SameOwn s s') (h' : SameOwn s' s'') : SameOwn s s'' :=
  ⟨h'.1.trans h.1, h'.2.trans h.2, h'.3.trans h.3⟩

theorem putEdge {edge : Edge} (h : s.putEdge crypto edge = some s') : SameOwn s s' := by
  obtain ⟨-, ⟨held, -, -, rfl⟩ | ⟨-, rfl⟩⟩ := Subtree.putEdge_cases h
  · exact .refl _
  · exact ⟨rfl, rfl, rfl⟩

theorem appendAssertion (s : Subtree) (a : Assertion) : SameOwn s (s.appendAssertion a) :=
  ⟨rfl, rfl, rfl⟩

theorem appendAll (s : Subtree) (l : List Assertion) : SameOwn s (appendAll s l) := by
  induction l generalizing s with
  | nil => exact .refl s
  | cons a l ih => exact (appendAssertion s a).trans (ih _)

end SameOwn

/-- What one entry of a recon response does to the vault. -/
inductive Reconciled (crypto : Crypto) (persona responder : PublicKeyHex) (lineage : KeyLineage)
    (now : Rfc3339) (entry : ReconEntry) (s : Subtree) : Subtree → Prop
  | unstored : Reconciled crypto persona responder lineage now entry s s
  | appended {edge : Edge} (hget : s.getEdge entry.edgeId = some edge)
      (hpersona : isPartyOrSuccessor edge persona lineage = true)
      (hresponder : isPartyOrSuccessor edge responder lineage = true) :
      Reconciled crypto persona responder lineage now entry s
        (appendAll s (keptOf (judged crypto lineage now edge (s.getAssertions entry.edgeId)
          (incoming (s.getAssertions entry.edgeId) entry.assertions))))

/-- What one entry of a recover response does to the vault. -/
inductive Recovered (crypto : Crypto) (persona : PublicKeyHex) (lineage : KeyLineage)
    (now : Rfc3339) (entry : RecoverEntry) (s : Subtree) : Subtree → Prop
  | unstored : Recovered crypto persona lineage now entry s s
  | restored {s' : Subtree} (hpersona : isPartyOrSuccessor entry.edge persona lineage = true)
      (hput : s.putEdge crypto entry.edge = some s') :
      Recovered crypto persona lineage now entry s
        (appendAll s' (keptOf (judged crypto lineage now entry.edge
          (s.getAssertions entry.edge.edgeId)
          (incoming (s.getAssertions entry.edge.edgeId) entry.assertions))))

/-- What one delivery does to the vault it reaches. -/
inductive Received (crypto : Crypto) (now : Rfc3339) (persona : PublicKeyHex) (s : Subtree) :
    Delivery → Subtree → Prop
  | unstored (raw : Delivery) : Received crypto now persona s raw s
  | proposed {m : WireMessage} {edge : Edge} {a : Assertion} {s₁ s₂ : Subtree}
      (hbody : m.body = .propose (.ok ⟨edge, a⟩)) (howedTo : edge.owedTo = persona)
      (hsender : m.sender = edge.owner) (hput : s.putEdge crypto edge = some s₁)
      (hlegal : AcceptsLast crypto noRotations (some now) edge [] a)
      (happend : s₂ = s₁ ∨ s₂ = s₁.appendAssertion a) :
      Received crypto now persona s (.message m) s₂
  | asserted {m : WireMessage} {edge : Edge} {a : Assertion} (hbody : m.body = .assert (.ok a))
      (hget : s.getEdge a.edgeId = some edge)
      (hpersona : isPartyOrSuccessor edge persona (partyLineage crypto s) = true)
      (hsender : isPartyOrSuccessor edge m.sender (partyLineage crypto s) = true)
      (hlegal : AcceptsLast crypto (partyLineage crypto s) (some now) edge
        (s.getAssertions edge.edgeId) a) :
      Received crypto now persona s (.message m) (s.appendAssertion a)
  | reconciled {m : WireMessage} {response : ReconResponse}
      (hbody : m.body = .reconResponse (some response)) :
      Received crypto now persona s (.message m)
        (applyReconResponse crypto s persona m.sender now response).1
  | rotated {m : WireMessage} {r : Rotation} {encoding : RotationEncoding}
      (hbody : m.body = .rotation (some r))
      (hverified : Rotation.verifyRotation crypto false (some r) = .ok r encoding)
      (hsender : m.sender = r.old ∨ m.sender = r.new)
      (hrelevant : ∃ edge ∈ s.edges.values, isParty edge r.old = true) :
      Received crypto now persona s (.message m) (s.putRotation r)

theorem applyReconEntry_reconciled {persona responder : PublicKeyHex} {lineage : KeyLineage}
    (acc : Subtree × ReconApplyResult) (entry : ReconEntry) :
    Reconciled crypto persona responder lineage now entry acc.1
      (applyReconEntry crypto persona responder lineage now acc entry).1 := by
  unfold applyReconEntry
  cases hget : acc.1.getEdge entry.edgeId with
  | none => simpa only [hget] using .unstored
  | some edge =>
    simp only [hget]
    split_ifs with hparty
    · exact .unstored
    · obtain ⟨hpersona, hresponder⟩ := by simpa using hparty
      exact .appended hget hpersona hresponder

theorem applyRecoverEntry_recovered {persona : PublicKeyHex} {lineage : KeyLineage}
    (acc : Subtree × RecoverApplyResult) (entry : RecoverEntry) :
    Recovered crypto persona lineage now entry acc.1
      (Recovery.applyRecoverEntry crypto persona lineage now acc entry).1 := by
  unfold Recovery.applyRecoverEntry
  obtain ⟨s, result⟩ := acc
  obtain ⟨edge, assertions⟩ := entry
  dsimp only
  by_cases hparty : isPartyOrSuccessor edge persona lineage = true
  swap
  · rw [if_pos (by simpa using hparty)]
    exact .unstored
  rw [if_neg (by simpa using hparty)]
  cases hbound : edgeBindingFailure crypto s edge with
  | some bound => exact .unstored
  | none =>
    dsimp only
    by_cases hproposed : Recovery.proposedByOwner edge
        ((s.getAssertions edge.edgeId ++ incoming (s.getAssertions edge.edgeId) assertions).zip
          (verifyAssertionChain crypto lineage (some now) edge (s.getAssertions edge.edgeId ++
            incoming (s.getAssertions edge.edgeId) assertions)).outcomes) = true
    swap
    · rw [if_pos (by simpa using hproposed)]
      exact .unstored
    rw [if_neg (by simpa using hproposed)]
    cases hput : s.putEdge crypto edge with
    | none => exact .unstored
    | some s' => exact Recovered.restored hparty hput

namespace Inbox

variable {inbox : Inbox} {budgetNow : ℤ} {sender : PublicKeyHex} {result : IngestResult}
  {m : WireMessage}

theorem surface_vault {edge : Edge} {a : Assertion} :
    (inbox.surface crypto edge a).vault = inbox.vault ∨
      ∃ s, inbox.vault.putEdge crypto edge = some s ∧
        ((inbox.surface crypto edge a).vault = s ∨
          (inbox.surface crypto edge a).vault = s.appendAssertion a) := by
  unfold surface
  cases hput : inbox.vault.putEdge crypto edge with
  | none => exact .inl rfl
  | some s =>
    refine .inr ⟨s, rfl, ?_⟩
    dsimp only
    split_ifs
    · exact .inl rfl
    · exact .inr rfl

theorem ingestPropose_received {payload : ProposePayload} (hbody : m.body = .propose (.ok payload)) :
    Received crypto now inbox.persona inbox.vault (.message m)
      (inbox.ingestPropose crypto now budgetNow m.sender (.ok payload) result).1.vault := by
  obtain ⟨edge, a⟩ := payload
  have hadmission := admission_vault budgetNow inbox m.sender
  unfold ingestPropose
  cases hbound : edgeBindingFailure crypto inbox.vault edge with
  | some bound => simpa only [hbound] using .unstored _
  | none =>
  cases hlegal : (verifyAssertionChain crypto noRotations (some now) edge [a]).outcomes.head?.bind
      (·.rejectionReason) with
  | some reason =>
    simp only [hbound, hlegal]
    split_ifs <;> exact .unstored _
  | none =>
  have ha : AcceptsLast crypto noRotations (some now) edge [] a :=
    acceptsLast_of_unrejected (by rwa [List.head?_eq_getElem?] at hlegal)
  simp only [hbound, hlegal]
  split_ifs with howedTo hsender hheld
  · exact .unstored _
  · exact .unstored _
  · exact .unstored _
  cases (inbox.admission budgetNow m.sender).2 with
  | some reason =>
    simp only [hadmission]
    exact .unstored _
  | none =>
    have hsurface := @surface_vault crypto (inbox.admission budgetNow m.sender).1 edge a
    simp only [hadmission] at hsurface
    obtain hsame | ⟨s, hput, happend⟩ := hsurface
    · dsimp only
      rw [hsame]
      exact .unstored _
    · exact .proposed hbody (not_not.mp howedTo) (not_not.mp hsender) hput ha happend

theorem ingestAssert_received {a : Assertion} (hbody : m.body = .assert (.ok a)) :
    Received crypto now inbox.persona inbox.vault (.message m)
      (inbox.ingestAssert crypto now m.sender (.ok a) result).1.vault := by
  unfold ingestAssert
  cases hget : inbox.vault.getEdge a.edgeId with
  | none => simpa only [hget] using .unstored _
  | some edge =>
  simp only [hget]
  cases hlegal : (verifyAssertionChain crypto (partyLineage crypto inbox.vault) (some now) edge
      (inbox.vault.getAssertions edge.edgeId ++ [a])).outcomes[
      (inbox.vault.getAssertions edge.edgeId).length]?.bind (·.rejectionReason) with
  | some reason =>
    simp only
    split_ifs <;> exact .unstored _
  | none =>
    simp only
    split_ifs with hpersona hsender
    · exact .unstored _
    · exact .unstored _
    · exact .unstored _
    · exact .asserted hbody hget (by simpa using hpersona) (by simpa using hsender)
        (acceptsLast_of_unrejected hlegal)

theorem ingestRotation_received {payload : Option Rotation} (hbody : m.body = .rotation payload) :
    Received crypto now inbox.persona inbox.vault (.message m)
      (inbox.ingestRotation crypto m.sender payload result).1.vault := by
  obtain ⟨reason, h⟩ | ⟨r, rfl, ⟨encoding, hverified⟩, hsender, hrelevant, h⟩ :=
    @ingestRotation_cases crypto inbox m.sender payload result
  · rw [h]
    exact .unstored _
  · rw [h]
    exact .rotated hbody hverified hsender hrelevant

theorem ingestMessage_received (raw : Delivery) :
    Received crypto now inbox.persona inbox.vault raw
      (ingestMessage crypto now budgetNow (inbox, result) raw).1.vault := by
  unfold ingestMessage
  cases raw with
  | otherVersion => exact .unstored _
  | malformed => exact .unstored _
  | message m =>
  obtain ⟨body, sender, recipient, sentAt, sig⟩ := m
  simp only [Delivery.speaksThisVersion, Delivery.verifyMessage, Bool.not_true, Bool.false_eq_true,
    if_false]
  split_ifs
  swap
  · exact .unstored _
  simp only
  split_ifs
  · exact .unstored _
  cases body with
  | propose payload =>
    cases payload with
    | error name => exact .unstored _
    | ok payload => exact ingestPropose_received (m := ⟨_, sender, recipient, sentAt, sig⟩) rfl
  | assert payload =>
    cases payload with
    | error name => exact .unstored _
    | ok a => exact ingestAssert_received (m := ⟨_, sender, recipient, sentAt, sig⟩) rfl
  | reconResponse payload =>
    cases payload with
    | none => exact .unstored _
    | some response => exact .reconciled (m := ⟨_, sender, recipient, sentAt, sig⟩) rfl
  | rotation payload => exact ingestRotation_received (m := ⟨_, sender, recipient, sentAt, sig⟩) rfl
  | reconRequest payload => cases payload <;> exact .unstored _
  | recoverRequest payload => cases payload <;> exact .unstored _
  | recoverResponse payload => cases payload <;> exact .unstored _
  | publish | unpublish | attestation | revocation => exact .unstored _

theorem surface_persona {edge : Edge} {a : Assertion} :
    (inbox.surface crypto edge a).persona = inbox.persona := by
  unfold surface
  split
  · rfl
  · split_ifs <;> rfl

theorem ingestPropose_persona {payload : Except (Option EdgeName) ProposePayload} :
    (inbox.ingestPropose crypto now budgetNow sender payload result).1.persona = inbox.persona := by
  have hadmission := admission_persona budgetNow inbox sender
  unfold ingestPropose
  cases payload with
  | error name => rfl
  | ok payload =>
  dsimp only
  split
  · rfl
  split_ifs
  · rfl
  · rfl
  · split <;> rfl
  split
  · rfl
  split
  · exact hadmission
  · exact surface_persona.trans hadmission

theorem ingestAssert_persona {payload : Except (Option EdgeName) Assertion} :
    (inbox.ingestAssert crypto now sender payload result).1.persona = inbox.persona := by
  unfold ingestAssert
  cases payload with
  | error name => rfl
  | ok a =>
  dsimp only
  split
  · rfl
  split_ifs
  · rfl
  · rfl
  · rfl
  split <;> rfl

theorem ingestMessage_persona (raw : Delivery) :
    (ingestMessage crypto now budgetNow (inbox, result) raw).1.persona = inbox.persona := by
  unfold ingestMessage
  dsimp only
  split_ifs
  · rfl
  cases raw.verifyMessage crypto with
  | none => rfl
  | some message =>
  dsimp only
  split_ifs
  · rfl
  cases message.body with
  | propose payload => exact ingestPropose_persona
  | assert payload => exact ingestAssert_persona
  | rotation payload =>
    dsimp only
    obtain ⟨reason, h⟩ | ⟨r, -, -, -, -, h⟩ := 
      @ingestRotation_cases crypto inbox message.sender payload result
    · rw [h]
    · rw [h]
  | reconRequest payload | recoverRequest payload | reconResponse payload
  | recoverResponse payload => cases payload <;> rfl
  | publish | unpublish | attestation | revocation => rfl

theorem ingest_snoc (messages : List Delivery) (raw : Delivery) :
    inbox.ingest crypto now budgetNow (messages ++ [raw]) =
      ingestMessage crypto now budgetNow (inbox.ingest crypto now budgetNow messages) raw := by
  rw [ingest, List.foldl_append]
  rfl

theorem ingest_persona (messages : List Delivery) :
    (inbox.ingest crypto now budgetNow messages).1.persona = inbox.persona := by
  induction messages using List.reverseRecOn with
  | nil => rfl
  | append_singleton messages raw ih =>
    rw [ingest_snoc, ← ih]
    exact ingestMessage_persona raw

/-- What each delivery keeps, in the vault the deliveries before it left, a batch keeps. -/
theorem ingest_induction {P : Subtree → Prop} {messages : List Delivery} (h : P inbox.vault)
    (hstep : ∀ before raw s', before ++ [raw] <+: messages →
      P (inbox.ingest crypto now budgetNow before).1.vault →
      Received crypto now inbox.persona (inbox.ingest crypto now budgetNow before).1.vault raw s' →
      P s') :
    P (inbox.ingest crypto now budgetNow messages).1.vault := by
  induction messages using List.reverseRecOn with
  | nil => exact h
  | append_singleton messages raw ih =>
    have hbefore := ih fun before raw s' hpre ↦
      hstep before raw s' (hpre.trans (List.prefix_append _ _))
    apply hstep messages raw _ List.prefix_rfl hbefore
    rw [ingest_snoc, ← ingest_persona messages]
    exact ingestMessage_received raw

end Inbox

theorem applyReconResponse_snoc (s : Subtree) (persona responder : PublicKeyHex)
    (entries : List ReconEntry) (entry : ReconEntry) :
    applyReconResponse crypto s persona responder now ⟨entries ++ [entry]⟩ =
      applyReconEntry crypto persona responder (partyLineage crypto s) now
        (applyReconResponse crypto s persona responder now ⟨entries⟩) entry := by
  rw [applyReconResponse, List.foldl_append]
  rfl

theorem applyReconResponse_induction {P : Subtree → Prop} {s : Subtree}
    {persona responder : PublicKeyHex} {response : ReconResponse} (h : P s)
    (hstep : ∀ before entry s', before ++ [entry] <+: response.edges →
      P (applyReconResponse crypto s persona responder now ⟨before⟩).1 →
      Reconciled crypto persona responder (partyLineage crypto s) now entry
        (applyReconResponse crypto s persona responder now ⟨before⟩).1 s' → P s') :
    P (applyReconResponse crypto s persona responder now response).1 := by
  obtain ⟨entries⟩ := response
  induction entries using List.reverseRecOn with
  | nil => exact h
  | append_singleton entries entry ih =>
    have hbefore := ih fun before entry s' hpre ↦
      hstep before entry s' (hpre.trans (List.prefix_append _ _))
    apply hstep entries entry _ List.prefix_rfl hbefore
    rw [applyReconResponse_snoc]
    exact applyReconEntry_reconciled _ entry

theorem applyRecoverResponse_induction {P : Subtree → Prop} {s : Subtree} {persona : PublicKeyHex}
    {response : RecoverResponse} (h : P s)
    (hstep : ∀ entry ∈ response.edges, ∀ s₁ s₂, P s₁ →
      Recovered crypto persona (partyLineage crypto s) now entry s₁ s₂ → P s₂) :
    P (Recovery.applyRecoverResponse crypto s persona now response).1 := by
  unfold Recovery.applyRecoverResponse
  generalize partyLineage crypto s = lineage at hstep ⊢
  suffices hfold : ∀ (entries : List RecoverEntry) (acc : Subtree × RecoverApplyResult), P acc.1 →
      (∀ entry ∈ entries, entry ∈ response.edges) →
      P (entries.foldl (Recovery.applyRecoverEntry crypto persona lineage now) acc).1 from
    hfold response.edges _ h fun _ hentry ↦ hentry
  intro entries
  induction entries with
  | nil =>
    intro acc hacc _
    exact hacc
  | cons entry entries ih =>
    intro acc hacc hmem
    obtain ⟨hentry, hmem⟩ := List.forall_mem_cons.mp hmem
    exact ih _ (hstep entry hentry _ _ hacc (applyRecoverEntry_recovered acc entry)) hmem

theorem SameOwn.reconResponse {s : Subtree} {persona responder : PublicKeyHex}
    (response : ReconResponse) :
    SameOwn s (applyReconResponse crypto s persona responder now response).1 := by
  apply applyReconResponse_induction (.refl s)
  intro before entry s' _ hbefore hentry
  cases hentry with
  | unstored => exact hbefore
  | appended hget hpersona hresponder => exact hbefore.trans (appendAll _ _)

theorem SameOwn.recoverResponse {s : Subtree} {persona : PublicKeyHex}
    (response : RecoverResponse) :
    SameOwn s (Recovery.applyRecoverResponse crypto s persona now response).1 := by
  apply applyRecoverResponse_induction (.refl s)
  intro entry _ s₁ s₂ hbefore hentry
  cases hentry with
  | unstored => exact hbefore
  | restored hpersona hput => exact hbefore.trans ((putEdge hput).trans (appendAll _ _))

theorem Received.sameOwn {s s' : Subtree} {persona : PublicKeyHex} {raw : Delivery}
    (h : Received crypto now persona s raw s') : SameOwn s s' := by
  cases h with
  | unstored => exact .refl s
  | proposed hbody howedTo hsender hput hlegal happend =>
    rcases happend with rfl | rfl
    · exact .putEdge hput
    · exact (SameOwn.putEdge hput).trans (.appendAssertion _ _)
  | asserted => exact .appendAssertion s _
  | reconciled => exact .reconResponse _
  | rotated => exact ⟨rfl, rfl, rfl⟩

theorem SameOwn.ingest {inbox : Inbox} {budgetNow : ℤ} (messages : List Delivery) :
    SameOwn inbox.vault (inbox.ingest crypto now budgetNow messages).1.vault :=
  Inbox.ingest_induction (.refl _) fun _ _ _ _ hbefore hraw ↦ hbefore.trans hraw.sameOwn

namespace ServandaNode

variable {node : ServandaNode}

/-- What a call of `commit` does to the node. -/
inductive Committed (crypto : Crypto) (now : Rfc3339) (node : ServandaNode) (input : CommitInput) :
    ServandaNode → Prop
  | refused : Committed crypto now node input node
  | recorded {persona : PublicKeyHex} (hpersona : node.resolvePersona input.persona = some persona)
      (hunproposed : ∀ edge, proposedEdge crypto now persona input = some edge →
        ((node.vault persona).putCommitment crypto (committed now persona input)).putEdge crypto
          edge = none) :
      Committed crypto now node input (node.withVault persona
        ((node.vault persona).putCommitment crypto (committed now persona input)))
  | proposed {persona : PublicKeyHex} {edge : Edge} {s : Subtree} {a : Assertion}
      (hpersona : node.resolvePersona input.persona = some persona)
      (hedge : proposedEdge crypto now persona input = some edge)
      (hput : ((node.vault persona).putCommitment crypto
        (committed now persona input)).putEdge crypto edge = some s)
      (ha : a = signAssertion crypto persona edge.edgeId .proposed now none) :
      Committed crypto now node input (node.withVault persona (s.appendAssertion a))

theorem commit_committed (input : CommitInput) :
    Committed crypto now node input (node.commit crypto now input).1 := by
  unfold commit
  split_ifs with hforeign
  · exact .refused
  cases hpersona : node.resolvePersona input.persona with
  | none => exact .refused
  | some persona =>
  by_cases hmem : persona ∈ node.personas
  swap
  · simpa [hmem] using .refused
  simp only [hmem, not_true_eq_false, if_false]
  cases hedge : proposedEdge crypto now persona input with
  | none => exact .recorded hpersona fun edge h ↦ by simp [hedge] at h
  | some edge =>
  dsimp only
  cases hput : ((node.vault persona).putCommitment crypto
      (committed now persona input)).putEdge crypto edge with
  | none =>
    refine .recorded hpersona fun edge' h ↦ ?_
    obtain rfl : edge = edge' := Option.some.inj (hedge.symm.trans h)
    exact hput
  | some s => exact .proposed hpersona hedge hput rfl

def decided (input : ConfirmInput) (c : Commitment) : Commitment :=
  match input.decision, input.edit with
  | .edit, some edit =>
    { c with
      intent := edit.intent.getD c.intent
      due := edit.due.or c.due }
  | _, _ => c

/-- What a call of `confirm` does to the node. -/
inductive Confirmed (crypto : Crypto) (now : Rfc3339) (node : ServandaNode) (input : ConfirmInput) :
    ServandaNode → Prop
  | refused : Confirmed crypto now node input node
  | dequeued (persona : PublicKeyHex) :
      Confirmed crypto now node input (node.deletePending persona input.id)
  | expected {persona : PublicKeyHex} {pending : PendingExtraction} {e : Expectation}
      (hpending : node.getPending persona input.id = some pending) :
      Confirmed crypto now node input ((node.withVault persona
        ((node.vault persona).putExpectation pending.id e)).deletePending persona input.id)
  | recorded {persona : PublicKeyHex} {pending : PendingExtraction} {c : Commitment}
      (hlocate : node.locate input.id = some (persona, .pending))
      (hpending : node.getPending persona input.id = some pending)
      (hcandidate : pending.candidate = .commitment c) (hdecision : input.decision ≠ .dismiss) :
      Confirmed crypto now node input ((node.withVault persona
        ((node.vault persona).putCommitment crypto (decided input c))).deletePending persona input.id)
  | dismissed {persona : PublicKeyHex} {kind : OrderingKind} {edge : Edge}
      (hlocate : node.locate input.id = some (persona, kind)) (hkind : kind ≠ .pending)
      (hget : (node.vault persona).getEdge input.id = some edge)
      (hdecision : input.decision = .dismiss) :
      Confirmed crypto now node input (node.withVault persona ((node.vault persona).putEdgeMeta
        input.id { (node.vault persona).getEdgeMeta input.id with dismissed := true }))
  | confirmed {persona : PublicKeyHex} {edge : Edge} {a : Assertion} {s : Subtree}
      (hget : (node.vault persona).getEdge input.id = some edge) (howedTo : edge.owedTo = persona)
      (ha : a = signAssertion crypto persona edge.edgeId .confirmed now none)
      (haccepted : (node.ownVerdict crypto now persona edge a).accepted = true)
      (hs : s = ((node.vault persona).appendAssertion a).putEdgeMeta edge.edgeId
        { (node.vault persona).getEdgeMeta edge.edgeId with dismissed := false }) :
      Confirmed crypto now node input (node.withVault persona s)

theorem confirmPending_confirmed {input : ConfirmInput} {persona : PublicKeyHex}
    (hlocate : node.locate input.id = some (persona, .pending)) :
    Confirmed crypto now node input (node.confirmPending crypto persona input).1 := by
  unfold confirmPending
  cases hpending : node.getPending persona input.id with
  | none => exact .refused
  | some pending =>
  obtain ⟨id, candidate, queuedAt⟩ := pending
  cases candidate with
  | expectation e =>
    dsimp only
    split_ifs
    · exact .dequeued persona
    · exact .expected hpending
  | commitment c =>
    dsimp only
    split_ifs with hdismiss howner
    · exact .dequeued persona
    · exact .refused
    · exact .recorded hlocate hpending rfl hdismiss
    · exact .recorded hlocate hpending rfl hdismiss

theorem confirmEdge_confirmed {input : ConfirmInput} {persona : PublicKeyHex} {kind : OrderingKind}
    (hlocate : node.locate input.id = some (persona, kind)) (hkind : kind ≠ .pending) :
    Confirmed crypto now node input (node.confirmEdge crypto now persona input).1 := by
  unfold confirmEdge
  cases hget : (node.vault persona).getEdge input.id with
  | none => simpa only [hget] using .refused
  | some edge =>
  have hid : edge.edgeId = input.id := Directory.name_of_get? hget
  simp only [hget]
  cases hdecision : input.decision with
  | dismiss => exact .dismissed hlocate hkind hget hdecision
  | edit => exact .refused
  | confirm =>
    dsimp only
    split_ifs with _ howedTo haccepted hdismissed
    · exact .refused
    · exact .refused
    · exact .refused
    · exact .confirmed hget (not_not.mp howedTo) rfl (by simpa using haccepted) rfl
    · refine .confirmed hget (not_not.mp howedTo) rfl (by simpa using haccepted) ?_
      have hmeta : ({ (node.vault persona).getEdgeMeta edge.edgeId with dismissed := false } : EdgeMeta) =
          (node.vault persona).edgeMeta edge.edgeId := by
        rw [Subtree.getEdgeMeta, ← Bool.eq_false_iff.mpr hdismissed]
        rfl
      simp [Subtree.putEdgeMeta, Subtree.appendAssertion, hmeta]

theorem confirm_confirmed (input : ConfirmInput) :
    Confirmed crypto now node input (node.confirm crypto now input).1 := by
  unfold confirm
  cases hlocate : node.locate input.id with
  | none => exact .refused
  | some located =>
    obtain ⟨persona, kind⟩ := located
    cases kind with
    | pending => exact confirmPending_confirmed hlocate
    | commitment | edge | expectation => exact confirmEdge_confirmed hlocate (by decide)

/-- What a call of `act` does to the node. -/
inductive Acted (crypto : Crypto) (now : Rfc3339) (node : ServandaNode) (input : ActInput) :
    ServandaNode → Prop
  | refused : Acted crypto now node input node
  | asserted {persona : PublicKeyHex} {kind : OrderingKind} {edge : Edge} {a : Assertion}
      (hlocate : node.locate input.id = some (persona, kind))
      (hget : (node.vault persona).getEdge input.id = some edge)
      (hrefusal : node.actRefusal crypto persona edge input = none)
      (ha : a = signAssertion crypto persona edge.edgeId (asserts input.act) now input.evidenceHash)
      (haccepted : (node.ownVerdict crypto now persona edge a).accepted = true) :
      Acted crypto now node input (node.withVault persona ((node.vault persona).appendAssertion a))

theorem act_acted (input : ActInput) : Acted crypto now node input (node.act crypto now input).1 := by
  unfold act
  cases hlocate : node.locate input.id with
  | none => exact .refused
  | some located =>
  obtain ⟨persona, kind⟩ := located
  dsimp only
  cases hget : (node.vault persona).getEdge input.id with
  | none => exact .refused
  | some edge =>
  dsimp only
  cases hrefusal : node.actRefusal crypto persona edge input with
  | some reason => exact .refused
  | none =>
    dsimp only
    split_ifs with haccepted
    · exact .refused
    · exact .asserted hlocate hget hrefusal rfl (by simpa using haccepted)

end ServandaNode

end Servanda
