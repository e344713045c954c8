import Servanda.Writes

namespace Servanda.StoreInvariant

open Transitions Serve Recon Writes

structure System where
  node : ServandaNode
  budget : PublicKeyHex → Option ProposalBudget
  level : PublicKeyHex → Subtree → PublicKeyHex → VerificationLevel

inductive Operation
  | commit (input : CommitInput)
  | confirm (input : ConfirmInput)
  | act (input : ActInput)
  | ingest (persona : PublicKeyHex) (budgetNow : ℤ) (messages : List Delivery)
  | reconResponse (persona responder : PublicKeyHex) (response : ReconResponse)
  | recoverResponse (persona : PublicKeyHex) (response : RecoverResponse)

variable (crypto : Crypto) (now : Rfc3339)

namespace System

def inbox (sys : System) (persona : PublicKeyHex) : Inbox where
  persona := persona
  vault := sys.node.vault persona
  budget := sys.budget persona
  level := sys.level persona

def withInbox (sys : System) (persona : PublicKeyHex) (inbox : Inbox) : System :=
  { sys with
    node := sys.node.withVault persona inbox.vault
    budget := Function.update sys.budget persona inbox.budget }

def withNode (sys : System) (node : ServandaNode) : System := { sys with node := node }

def perform (sys : System) : Operation → System
  | .commit input => sys.withNode (sys.node.commit crypto now input).1
  | .confirm input => sys.withNode (sys.node.confirm crypto now input).1
  | .act input => sys.withNode (sys.node.act crypto now input).1
  | .ingest persona budgetNow messages =>
    if persona ∈ sys.node.personas then
      sys.withInbox persona ((sys.inbox persona).ingest crypto now budgetNow messages).1
    else sys
  | .reconResponse persona responder response =>
    if persona ∈ sys.node.personas then
      sys.withNode (sys.node.withVault persona
        (applyReconResponse crypto (sys.node.vault persona) persona responder now response).1)
    else sys
  | .recoverResponse persona response =>
    if persona ∈ sys.node.personas then
      sys.withNode (sys.node.withVault persona
        (Recovery.applyRecoverResponse crypto (sys.node.vault persona) persona now response).1)
    else sys

def Replayed (sys : System) : Prop :=
  ∀ persona, ∀ edge ∈ (sys.node.vault persona).edges.values,
    AcceptsAll crypto (partyLineage crypto (sys.node.vault persona)) none edge
      ((sys.node.vault persona).getAssertions edge.edgeId)

end System

def NoRotation (_ : Rfc3339) : Operation → System → Prop
  | .ingest _ _ messages, _ => ∀ m, .message m ∈ messages → m.body.type ≠ .rotation
  | _, _ => True

/-- What keeps the store replayable: nothing is proposed on an edge whose chain has begun without
it, no chain grows past the four-digit file names, and no two bodies at hand share a digest. -/
def Orderly (now : Rfc3339) : Operation → System → Prop
  | .commit input, sys => ∀ persona edge, sys.node.resolvePersona input.persona = some persona →
      ServandaNode.proposedEdge crypto now persona input = some edge →
      ((sys.node.vault persona).putEdge crypto edge).isSome →
      (sys.node.vault persona).getAssertions edge.edgeId = []
  | .confirm ⟨id, _, _⟩, sys | .act ⟨id, _, _⟩, sys => ∀ persona kind,
      sys.node.locate id = some (persona, kind) → ((sys.node.vault persona).files id).length < 10000
  | .ingest persona budgetNow messages, sys => ∀ before m, before ++ [.message m] <+: messages →
      let inbox := ((sys.inbox persona).ingest crypto now budgetNow before).1
      Room inbox.vault (count (assertionsOf m.body)) ∧
        Lawful crypto now inbox.persona inbox.vault m
  | .reconResponse persona _ response, sys =>
      Room (sys.node.vault persona) (count (response.edges.flatMap (·.assertions)))
  | .recoverResponse persona response, sys =>
      Room (sys.node.vault persona) (count (response.edges.flatMap (·.assertions))) ∧
        Distinct crypto ((sys.node.vault persona).edges.values ++ response.edges.map (·.edge))

/-- A system reached from empty vaults by operations that meet a condition, under a clock that
never goes back. -/
inductive Reached (C : Rfc3339 → Operation → System → Prop) : Rfc3339 → System → Prop
  | start {now : Rfc3339} {sys : System} (h : ∀ persona, sys.node.vault persona = .empty) :
      Reached C now sys
  | perform {now later : Rfc3339} {sys : System} {op : Operation} (h : Reached C now sys)
      (hle : Date.parse now ≤ Date.parse later) (hop : C later op sys) :
      Reached C later (sys.perform crypto later op)

def Signs : Prop := ∀ (unsigned : Assertion),
  crypto.verifyObject (.assertion { unsigned with
    sig := crypto.signAssertion unsigned unsigned.signer }) unsigned.signer = true

variable {crypto now} {node : ServandaNode} {edge : Edge} {a : Assertion}

/-- Every persona's part of the vault is as a node may store it. -/
def AllStored (crypto : Crypto) (now : Rfc3339) (node : ServandaNode) : Prop :=
  ∀ persona, Stored crypto now (fun _ ↦ 0) (node.vault persona)

namespace AllStored

theorem withVault (h : AllStored crypto now node) {persona : PublicKeyHex} {s : Subtree}
    (hs : Stored crypto now (fun _ ↦ 0) s) : AllStored crypto now (node.withVault persona s) := by
  intro other
  by_cases ho : other = persona
  · subst ho
    simpa [ServandaNode.withVault] using hs
  · simpa [ServandaNode.withVault, ho] using h other

theorem room (h : AllStored crypto now node) {persona : PublicKeyHex} {n : Sha256Hex → ℕ}
    (hroom : Room (node.vault persona) n) :
    Stored crypto now (fun i ↦ n i + 0) (node.vault persona) := ⟨(h persona).kept, hroom⟩

theorem getAssertions (h : AllStored crypto now node) (persona : PublicKeyHex) (id : Sha256Hex) :
    (node.vault persona).getAssertions id = (node.vault persona).files id :=
  (h persona).room.getAssertions id

theorem acceptsLast_proposed (hedge : edgeMalformed crypto edge = none)
    (hid : a.edgeId = edge.edgeId) (hsig : crypto.verifyObject (.assertion a) a.signer = true)
    (ha : a.state = .proposed) (howner : a.signer = edge.owner) :
    AcceptsLast crypto noRotations (some now) edge [] a :=
  acceptsLast_first_iff.mpr ⟨hedge, hid, hsig, ha, howner⟩

theorem proposedEdge_spec {persona : PublicKeyHex} {input : CommitInput}
    (h : ServandaNode.proposedEdge crypto now persona input = some edge) :
    edgeMalformed crypto edge = none ∧ edge.owner = persona := by
  unfold ServandaNode.proposedEdge at h
  split at h
  · split_ifs at h
    cases h
    refine ⟨?_, rfl⟩
    simp [edgeMalformed, ServandaNode.buildEdge, Crypto.edgeIdBindsBody, acceptanceWindowMalformed]
  · cases h

theorem commit (h : AllStored crypto now node) (hsigns : Signs crypto) {input : CommitInput}
    (hop : ∀ persona edge, node.resolvePersona input.persona = some persona →
      ServandaNode.proposedEdge crypto now persona input = some edge →
      ((node.vault persona).putEdge crypto edge).isSome →
      (node.vault persona).getAssertions edge.edgeId = []) :
    AllStored crypto now (node.commit crypto now input).1 := by
  unfold ServandaNode.commit
  split_ifs with hforeign
  · exact h
  cases hpersona : node.resolvePersona input.persona with
  | none => exact h
  | some persona =>
  by_cases hmem : persona ∈ node.personas
  swap
  · simpa [hmem] using h
  have hcommitted : Stored crypto now (fun _ ↦ 0) ((node.vault persona).putCommitment crypto
      (ServandaNode.committed now persona input)) := (h persona).congr rfl rfl rfl
  simp only [hmem, not_true_eq_false, if_false]
  cases hedge : ServandaNode.proposedEdge crypto now persona input with
  | none => exact h.withVault hcommitted
  | some edge =>
  cases hput : ((node.vault persona).putCommitment crypto
      (ServandaNode.committed now persona input)).putEdge crypto edge with
  | none =>
    simp only [hput]
    exact h.withVault hcommitted
  | some s =>
  simp only [hput]
  obtain ⟨hwf, howner⟩ := proposedEdge_spec hedge
  have hedges : ((node.vault persona).putCommitment crypto
      (ServandaNode.committed now persona input)).edges = (node.vault persona).edges := rfl
  have hsome : ((node.vault persona).putEdge crypto edge).isSome := by
    rw [← Subtree.putEdge_isSome hedges, hput]
    rfl
  have hnil : (node.vault persona).files edge.edgeId = [] := by
    rw [← h.getAssertions]
    exact hop persona edge hpersona hedge hsome
  apply h.withVault
  obtain ⟨-, ⟨held, hget, -, -⟩ | ⟨-, rfl⟩⟩ := Subtree.putEdge_cases hput
  · have hid : held.edgeId = edge.edgeId := Directory.name_of_get? hget
    refine absurd ?_ ((h persona).kept.started held (Directory.mem_of_get? hget))
    rw [hid, hnil]
  · exact hcommitted.enter hnil (by decide)
      (acceptsLast_proposed hwf rfl (hsigns _) rfl howner.symm)

theorem appendOwn (h : AllStored crypto now node) {persona : PublicKeyHex}
    (hheld : (node.vault persona).getEdge edge.edgeId = some edge)
    (hlength : ((node.vault persona).files edge.edgeId).length < 10000)
    (hverdict : (node.ownVerdict crypto now persona edge a).accepted = true) :
    Stored crypto now (fun _ ↦ 0) ((node.vault persona).appendAssertion a) := by
  have hs := h persona
  have hroom : Stored crypto now (fun i ↦ (if i = edge.edgeId then 1 else 0) + 0)
      (node.vault persona) := by
    refine ⟨hs.kept, fun i ↦ ?_⟩
    have hi := hs.room i
    split_ifs with heq
    · rw [heq]
      omega
    · exact hi
  refine hroom.appendAssertion rfl hheld ⟨List.prefix_rfl, ?_⟩
  simp only [ServandaNode.ownVerdict, hs.kept.lineage, hs.room.getAssertions] at hverdict
  cases ho : (verifyAssertionChain crypto noRotations (some now) edge
      ((node.vault persona).files edge.edgeId ++ [a])).outcomes[
      ((node.vault persona).files edge.edgeId).length]? with
  | none => simp [ho] at hverdict
  | some o => simpa [ho] using hverdict

theorem confirmPending (h : AllStored crypto now node) {persona : PublicKeyHex}
    {input : ConfirmInput} : AllStored crypto now (node.confirmPending crypto persona input).1 := by
  unfold ServandaNode.confirmPending
  cases node.getPending persona input.id with
  | none => exact h
  | some pending =>
    obtain ⟨id, candidate⟩ := pending
    cases candidate with
    | expectation e =>
      dsimp only
      split_ifs
      · exact h
      · exact h.withVault ((h persona).congr rfl rfl rfl)
    | commitment c =>
      dsimp only
      split_ifs
      · exact h
      · exact h
      · exact h.withVault ((h persona).congr rfl rfl rfl)
      · exact h.withVault ((h persona).congr rfl rfl rfl)

theorem confirmEdge (h : AllStored crypto now node) {persona : PublicKeyHex} {input : ConfirmInput}
    (hlength : ((node.vault persona).files input.id).length < 10000) :
    AllStored crypto now (node.confirmEdge crypto now persona input).1 := by
  unfold ServandaNode.confirmEdge
  cases hget : (node.vault persona).getEdge input.id with
  | none => simpa [hget] using h
  | some edge =>
  have hid : edge.edgeId = input.id := Directory.name_of_get? hget
  rw [← hid] at hget hlength
  simp only [← hid, hget]
  cases input.decision with
  | dismiss => exact h.withVault ((h persona).congr rfl rfl rfl)
  | edit => exact h
  | confirm =>
    dsimp only
    split_ifs with _ _ hrefused hdismissed
    · exact h
    · exact h
    · exact h
    · exact h.withVault ((h.appendOwn hget hlength (by simpa using hrefused)).congr rfl rfl rfl)
    · exact h.withVault (h.appendOwn hget hlength (by simpa using hrefused))

theorem confirm (h : AllStored crypto now node) {input : ConfirmInput}
    (hop : ∀ persona kind, node.locate input.id = some (persona, kind) →
      ((node.vault persona).files input.id).length < 10000) :
    AllStored crypto now (node.confirm crypto now input).1 := by
  unfold ServandaNode.confirm
  cases hlocate : node.locate input.id with
  | none => exact h
  | some located =>
    obtain ⟨persona, kind⟩ := located
    cases kind with
    | pending => exact h.confirmPending
    | commitment | edge | expectation => exact h.confirmEdge (hop _ _ hlocate)

theorem act (h : AllStored crypto now node) {input : ActInput}
    (hop : ∀ persona kind, node.locate input.id = some (persona, kind) →
      ((node.vault persona).files input.id).length < 10000) :
    AllStored crypto now (node.act crypto now input).1 := by
  unfold ServandaNode.act
  cases hlocate : node.locate input.id with
  | none => exact h
  | some located =>
  obtain ⟨persona, kind⟩ := located
  have hlength := hop _ _ hlocate
  dsimp only
  cases hget : (node.vault persona).getEdge input.id with
  | none => exact h
  | some edge =>
  have hid : edge.edgeId = input.id := Directory.name_of_get? hget
  rw [← hid] at hget hlength
  dsimp only
  cases node.actRefusal crypto persona edge input with
  | some reason => exact h
  | none =>
    dsimp only
    split_ifs with hrefused
    · exact h
    · exact h.withVault (h.appendOwn hget hlength (by simpa using hrefused))

end AllStored

theorem ingest_stored {inbox : Inbox} {budgetNow : ℤ} {messages : List Delivery}
    (h : Stored crypto now (fun _ ↦ 0) inbox.vault)
    (hop : ∀ before m, before ++ [.message m] <+: messages →
      let inbox := (inbox.ingest crypto now budgetNow before).1
      Room inbox.vault (count (assertionsOf m.body)) ∧
        Lawful crypto now inbox.persona inbox.vault m) :
    Stored crypto now (fun _ ↦ 0) (inbox.ingest crypto now budgetNow messages).1.vault := by
  induction messages using List.reverseRecOn with
  | nil => exact h
  | append_singleton messages raw ih =>
    have hbefore := ih fun before m hpre ↦ hop before m (hpre.trans (List.prefix_append _ _))
    unfold Inbox.ingest at hbefore ⊢
    rw [List.foldl_append]
    refine Stored.ingestMessage ?_ hbefore
    rintro m rfl
    obtain ⟨hroom, hlawful⟩ := hop messages m List.prefix_rfl
    exact ⟨⟨hbefore.kept, hroom⟩, hlawful⟩

/-- One operation keeps every store as it should be. -/
theorem perform_stored {sys : System} {op : Operation} (hsigns : Signs crypto)
    (h : AllStored crypto now sys.node) (hop : Orderly crypto now op sys) :
    AllStored crypto now (sys.perform crypto now op).node := by
  unfold System.perform
  cases op with
  | commit input => exact h.commit hsigns hop
  | confirm input => exact h.confirm hop
  | act input => exact h.act hop
  | ingest persona budgetNow messages =>
    dsimp only
    split_ifs
    · exact h.withVault (ingest_stored (h persona) hop)
    · exact h
  | reconResponse persona responder response =>
    dsimp only
    split_ifs
    · exact h.withVault (h.room hop).reconResponse
    · exact h
  | recoverResponse persona response =>
    dsimp only
    split_ifs
    · exact h.withVault ((h.room hop.1).recoverResponse hop.2)
    · exact h

theorem reached_stored {sys : System} (hsigns : Signs crypto)
    (h : Reached crypto (Orderly crypto) now sys) : AllStored crypto now sys.node := by
  induction h with
  | start hempty =>
    intro persona
    rw [hempty]
    exact ⟨Kept.empty, fun id ↦ by simp [Subtree.empty]⟩
  | perform _ hle hop ih =>
    exact perform_stored hsigns (fun persona ↦ ⟨(ih persona).kept.later hle, (ih persona).room⟩) hop

theorem replayed_of_orderly {sys : System} (hsigns : Signs crypto)
    (h : Reached crypto (Orderly crypto) now sys) : sys.Replayed crypto := by
  intro persona edge hedge
  have hstored := reached_stored hsigns h persona
  exact hstored.kept.replayed hstored.room hedge

section ProposedTwice

open Sample

def creditorNode : System where
  node :=
    { activePersona := creditorKey
      personas := [creditorKey]
      personas_nodup := List.nodup_singleton creditorKey
      label := fun _ ↦ "me"
      vault := fun _ ↦ .empty
      pending := fun _ ↦ [] }
  budget _ := none
  level _ _ _ := .zero

def propose (a : Assertion) (sentAt : Rfc3339) (sig : SignatureHex) : WireMessage :=
  ⟨.propose (.ok ⟨Sample.edge, a⟩), ownerKey, creditorKey, sentAt, sig⟩

def proposalMessage : WireMessage := propose proposal (date 3 1 9)
  0x1aa12425076d08b3900e3baee968758786109bfddd54ac0aac4002ce1f2c9369aaddeccbe433393c7bfcd534ae1274563fd817e783a871eb4ca51ad6d32f0e06

def firstProposal : Operation := .ingest creditorKey 0 [.message proposalMessage]

theorem firstProposal_orderly :
    Orderly Sample.crypto (date 3 1 9) firstProposal creditorNode := by
  intro before m hpre
  obtain ⟨rfl, rfl⟩ : before = [] ∧ m = proposalMessage := by
    obtain ⟨rest, hrest⟩ := hpre
    cases before with
    | nil =>
      have hhead : Delivery.message m = .message proposalMessage := (List.cons.inj hrest).1
      exact ⟨rfl, Delivery.message.inj hhead⟩
    | cons _ before => simp at hrest
  refine ⟨fun id ↦ ?_, by decide, fun payload _ hagain ↦ hagain.begun rfl⟩
  have hcount : count [proposal] id ≤ 1 := List.countP_le_length
  show 0 + count [proposal] id ≤ 10000
  omega

theorem first_proposal_replayed :
    (creditorNode.perform Sample.crypto (date 3 1 9) firstProposal).Replayed Sample.crypto := by
  have hsigns : Signs Sample.crypto := fun _ ↦ rfl
  have hstart : Reached Sample.crypto (Orderly Sample.crypto) (date 3 1 9) creditorNode :=
    .start fun _ ↦ rfl
  exact replayed_of_orderly hsigns (hstart.perform le_rfl firstProposal_orderly)

def secondProposal : Operation := .ingest creditorKey 0 [.message (propose
  (Sample.act .proposed ownerKey (date 3 1 11) none
    0x762b8f9b7d5be85e55225d9cd6874bd32b2d4f4af0ec31cc367fbbba511edf2d1296a540c667b90464791b3e384a224f245fe77def5fca550c151b8ae418130e)
  (date 3 1 11)
  0x2cf13581111a7ad45e91e0ba90e021d63dcc3630abf3507e33a52510c14ef6b93fced0cefb1847058c472ea659e06fe2056283b29c224a10eb9a2f81aeca3602)]

/-- The owner proposes the edge once more, in a second assertion: the table takes it for a first
one, and the chain it is stored in never replays. -/
theorem second_proposal_stored : ¬∀ now sys,
    Reached Sample.crypto NoRotation now sys → sys.Replayed Sample.crypto := by
  intro h
  have hstart : Reached Sample.crypto NoRotation (date 3 1 9) creditorNode := .start fun _ ↦ rfl
  have hfirst : Reached Sample.crypto NoRotation (date 3 1 9)
      (creditorNode.perform Sample.crypto (date 3 1 9) firstProposal) :=
    hstart.perform le_rfl (by simp [NoRotation, firstProposal, proposalMessage, propose, WireBody.type])
  have hsecond : Reached Sample.crypto NoRotation (date 3 1 11)
      ((creditorNode.perform Sample.crypto (date 3 1 9) firstProposal).perform Sample.crypto
        (date 3 1 11) secondProposal) :=
    hfirst.perform (by decide) (by simp [NoRotation, secondProposal, propose, WireBody.type])
  exact absurd (h _ _ hsecond creditorKey Sample.edge (by decide +kernel)) (by decide +kernel)

end ProposedTwice

end Servanda.StoreInvariant
