import Servanda.Effects
import Servanda.StoreInvariant

namespace Servanda

open Serve Recon StoreInvariant ServandaNode

/-- What an operation writes, and whose part of the vault it writes to. -/
inductive Wrote (crypto : Crypto) (now : Rfc3339) (sys : System) :
    Operation → PublicKeyHex → Subtree → Prop
  | committed {input : CommitInput} {persona : PublicKeyHex}
      (hpersona : sys.node.resolvePersona input.persona = some persona)
      (hunproposed : ∀ edge, proposedEdge crypto now persona input = some edge →
        ((sys.node.vault persona).putCommitment crypto
          (ServandaNode.committed now persona input)).putEdge crypto edge = none) :
      Wrote crypto now sys (.commit input) persona
        ((sys.node.vault persona).putCommitment crypto (ServandaNode.committed now persona input))
  | proposed {input : CommitInput} {persona : PublicKeyHex} {edge : Edge} {s : Subtree}
      {a : Assertion} (hpersona : sys.node.resolvePersona input.persona = some persona)
      (hedge : proposedEdge crypto now persona input = some edge)
      (hput : ((sys.node.vault persona).putCommitment crypto
        (ServandaNode.committed now persona input)).putEdge crypto edge = some s)
      (ha : a = signAssertion crypto persona edge.edgeId .proposed now none) :
      Wrote crypto now sys (.commit input) persona (s.appendAssertion a)
  | expected {input : ConfirmInput} {persona : PublicKeyHex} (id : Sha256Hex) (e : Expectation) :
      Wrote crypto now sys (.confirm input) persona ((sys.node.vault persona).putExpectation id e)
  | recorded {input : ConfirmInput} {persona : PublicKeyHex} {pending : PendingExtraction}
      {c : Commitment} (hlocate : sys.node.locate input.id = some (persona, .pending))
      (hpending : sys.node.getPending persona input.id = some pending)
      (hcandidate : pending.candidate = .commitment c) (hdecision : input.decision ≠ .dismiss) :
      Wrote crypto now sys (.confirm input) persona
        ((sys.node.vault persona).putCommitment crypto (decided input c))
  | dismissed {input : ConfirmInput} {persona : PublicKeyHex} {kind : OrderingKind} {edge : Edge}
      (hlocate : sys.node.locate input.id = some (persona, kind)) (hkind : kind ≠ .pending)
      (hget : (sys.node.vault persona).getEdge input.id = some edge)
      (hdecision : input.decision = .dismiss) :
      Wrote crypto now sys (.confirm input) persona ((sys.node.vault persona).putEdgeMeta input.id
        { (sys.node.vault persona).getEdgeMeta input.id with dismissed := true })
  | confirmed {input : ConfirmInput} {persona : PublicKeyHex} {edge : Edge} {a : Assertion}
      (hget : (sys.node.vault persona).getEdge input.id = some edge)
      (howedTo : edge.owedTo = persona)
      (ha : a = signAssertion crypto persona edge.edgeId .confirmed now none)
      (haccepted : (sys.node.ownVerdict crypto now persona edge a).accepted = true) :
      Wrote crypto now sys (.confirm input) persona
        (((sys.node.vault persona).appendAssertion a).putEdgeMeta edge.edgeId
          { (sys.node.vault persona).getEdgeMeta edge.edgeId with dismissed := false })
  | asserted {input : ActInput} {persona : PublicKeyHex} {kind : OrderingKind} {edge : Edge}
      {a : Assertion} (hlocate : sys.node.locate input.id = some (persona, kind))
      (hget : (sys.node.vault persona).getEdge input.id = some edge)
      (hrefusal : sys.node.actRefusal crypto persona edge input = none)
      (ha : a = signAssertion crypto persona edge.edgeId (asserts input.act) now input.evidenceHash)
      (haccepted : (sys.node.ownVerdict crypto now persona edge a).accepted = true) :
      Wrote crypto now sys (.act input) persona ((sys.node.vault persona).appendAssertion a)
  | ingested {persona : PublicKeyHex} {budgetNow : ℤ} {messages : List Delivery} :
      Wrote crypto now sys (.ingest persona budgetNow messages) persona
        ((sys.inbox persona).ingest crypto now budgetNow messages).1.vault
  | reconciled {persona responder : PublicKeyHex} {response : ReconResponse} :
      Wrote crypto now sys (.reconResponse persona responder response) persona
        (applyReconResponse crypto (sys.node.vault persona) persona responder now response).1
  | recovered {persona : PublicKeyHex} {response : RecoverResponse} :
      Wrote crypto now sys (.recoverResponse persona response) persona
        (Recovery.applyRecoverResponse crypto (sys.node.vault persona) persona now response).1

variable {crypto : Crypto} {now : Rfc3339} {sys : System}

/-- An operation writes to one persona's part of the vault, or to none. -/
theorem perform_wrote (op : Operation) :
    (sys.perform crypto now op).node.vault = sys.node.vault ∨
      ∃ actor s, Wrote crypto now sys op actor s ∧
        (sys.perform crypto now op).node.vault = Function.update sys.node.vault actor s := by
  unfold System.perform
  cases op with
  | commit input =>
    have heffect := @commit_committed crypto now sys.node input
    dsimp only [System.withNode]
    generalize (sys.node.commit crypto now input).1 = after at heffect ⊢
    cases heffect with
    | refused => exact .inl rfl
    | recorded hpersona hunproposed =>
      exact .inr ⟨_, _, .committed hpersona hunproposed, rfl⟩
    | proposed hpersona hedge hput ha => exact .inr ⟨_, _, .proposed hpersona hedge hput ha, rfl⟩
  | confirm input =>
    have heffect := @confirm_confirmed crypto now sys.node input
    dsimp only [System.withNode]
    generalize (sys.node.confirm crypto now input).1 = after at heffect ⊢
    cases heffect with
    | refused => exact .inl rfl
    | dequeued => exact .inl rfl
    | @expected persona pending e hpending => exact .inr ⟨_, _, .expected pending.id e, rfl⟩
    | recorded hlocate hpending hcandidate hdecision =>
      exact .inr ⟨_, _, .recorded hlocate hpending hcandidate hdecision, rfl⟩
    | dismissed hlocate hkind hget hdecision =>
      exact .inr ⟨_, _, .dismissed hlocate hkind hget hdecision, rfl⟩
    | confirmed hget howedTo ha haccepted hs =>
      exact .inr ⟨_, _, .confirmed hget howedTo ha haccepted, by rw [hs]; rfl⟩
  | act input =>
    have heffect := @act_acted crypto now sys.node input
    dsimp only [System.withNode]
    generalize (sys.node.act crypto now input).1 = after at heffect ⊢
    cases heffect with
    | refused => exact .inl rfl
    | asserted hlocate hget hrefusal ha haccepted =>
      exact .inr ⟨_, _, .asserted hlocate hget hrefusal ha haccepted, rfl⟩
  | ingest persona budgetNow messages =>
    dsimp only
    split_ifs
    · exact .inr ⟨_, _, .ingested, rfl⟩
    · exact .inl rfl
  | reconResponse persona responder response =>
    dsimp only
    split_ifs
    · exact .inr ⟨_, _, .reconciled, rfl⟩
    · exact .inl rfl
  | recoverResponse persona response =>
    dsimp only
    split_ifs
    · exact .inr ⟨_, _, .recovered, rfl⟩
    · exact .inl rfl

/-- What every write keeps of a persona's part of the vault holds in every state that is reached. -/
theorem StoreInvariant.Reached.invariant {C : Rfc3339 → Operation → System → Prop}
    {P : PublicKeyHex → Subtree → Prop} (h : Reached crypto C now sys)
    (hempty : ∀ persona, P persona .empty)
    (hwrote : ∀ now sys op actor s, (∀ persona, P persona (sys.node.vault persona)) →
      C now op sys → Wrote crypto now sys op actor s → P actor s) (persona : PublicKeyHex) :
    P persona (sys.node.vault persona) := by
  induction h generalizing persona with
  | start hstart =>
    rw [hstart]
    exact hempty persona
  | @perform _ later sys op _ _ hop ih =>
    rcases @perform_wrote crypto later sys op with
      hsame | ⟨actor, s, hs, hsame⟩
    · rw [hsame]
      exact ih persona
    · rw [hsame]
      by_cases hactor : persona = actor
      · subst hactor
        rw [Function.update_self]
        exact hwrote _ _ _ _ _ ih hop hs
      · rw [Function.update_of_ne hactor]
        exact ih persona

end Servanda
