import Servanda.Lineage
import Servanda.ReadTools
import Servanda.Runs

namespace Servanda.Visibility

open Transitions Serve Recon StoreInvariant ServandaNode

def unsettledStates : List EffectiveState :=
  [.opened, .pendingAcceptance, .disputed, .contestedClosure]

def Unsettled (crypto : Crypto) (s : Subtree) (edge : Edge) : Prop :=
  finalState crypto (partyLineage crypto s) none edge (s.getAssertions edge.edgeId) ∈ unsettledStates

/-- Every live promise of a persona is in the register, on its side. -/
structure Visible (crypto : Crypto) (now : Rfc3339) (node : ServandaNode) (persona : PublicKeyHex)
    (asOf : Rfc3339) : Prop where
  live : ∀ edge ∈ (node.vault persona).edges.values, isParty edge persona = true →
    Unsettled crypto (node.vault persona) edge →
    ∃ item ∈ node.itemsFor crypto now persona (if edge.owner = persona then .owe else .waiting) asOf,
      item.kind = .edge ∧ item.id = edge.edgeId
  own : ∀ c ∈ (node.vault persona).commitments.values,
    (∃ item ∈ node.itemsFor crypto now persona .all asOf,
      node.commitmentItem crypto now persona .all asOf c = some item) ∨
    ∃ edge ∈ (node.vault persona).edges.values, edge.owner = persona ∧ edge.commitmentHash = c.1 ∧
      ∃ item ∈ node.itemsFor crypto now persona .all asOf, item.kind = .edge ∧ item.id = edge.edgeId

def ShownBy (persona : PublicKeyHex) (s : Subtree) (hash : Sha256Hex) : Prop :=
  ∃ edge ∈ s.edges.values, edge.owner = persona ∧ edge.commitmentHash = hash ∧
    (s.getEdgeMeta edge.edgeId).dismissed = false

def Represented (persona : PublicKeyHex) (s : Subtree) (hash : Sha256Hex) : Prop :=
  s.carried hash = true → ShownBy persona s hash

/-- If the edge is one of the persona's and dismissed, it is not live. -/
def Asleep (crypto : Crypto) (persona : PublicKeyHex) (s : Subtree) (edge : Edge) : Prop :=
  isParty edge persona = true → (s.getEdgeMeta edge.edgeId).dismissed = true →
    ¬Unsettled crypto s edge

/-- What keeps the register whole, of a vault: no live edge is dismissed, every commitment an edge
carries is shown by one of the persona's own, and only what is stored is dismissed. -/
structure Whole (crypto : Crypto) (persona : PublicKeyHex) (s : Subtree) : Prop where
  asleep : ∀ edge ∈ s.edges.values, Asleep crypto persona s edge
  represented : ∀ c ∈ s.commitments.values, Represented persona s c.1
  stored : ∀ id, (s.getEdgeMeta id).dismissed = true → s.getEdge id ≠ none

/-- A message that hides nothing: what it gets accepted revives no dismissed edge, and no edge it
proposes carries the hash of a commitment that no edge of the persona's own shows. -/
def HarmlessMessage (crypto : Crypto) (now : Rfc3339) (persona : PublicKeyHex) (s : Subtree)
    (m : WireMessage) : Prop :=
  match m.body with
  | .propose (.ok ⟨edge, a⟩) => m.sender = edge.owner → edge.owedTo = persona →
      AcceptsLast crypto noRotations (some now) edge [] a →
      (∀ held, s.getEdge edge.edgeId = some held →
        Asleep crypto persona (s.appendAssertion a) held) ∧
      (s.getEdge edge.edgeId = none → edge.owner ≠ persona → ∀ c ∈ s.commitments.values,
        c.1 = edge.commitmentHash → ShownBy persona s c.1)
  | .assert (.ok a) => ∀ edge, s.getEdge a.edgeId = some edge →
      AcceptsLast crypto (partyLineage crypto s) (some now) edge (s.getAssertions edge.edgeId) a →
      Asleep crypto persona (s.appendAssertion a) edge
  | .reconResponse (some response) => ∀ edge ∈ s.edges.values,
      Asleep crypto persona (applyReconResponse crypto s persona m.sender now response).1 edge
  | .rotation (some r) => Rotation.genuine crypto r = true →
      (m.sender = r.old ∨ m.sender = r.new) → (∃ edge ∈ s.edges.values, isParty edge r.old = true) →
      ∀ edge ∈ s.edges.values, Asleep crypto persona (s.putRotation r) edge
  | _ => True

/-- A step that hides nothing. Recovery is no step of these runs, nor is a response that did not
come as a message. -/
def Harmless (crypto : Crypto) (now : Rfc3339) : Operation → System → Prop
  | .commit input, sys => ∀ persona, sys.node.resolvePersona input.persona = some persona →
      let s := sys.node.vault persona
      (∀ edge, proposedEdge crypto now persona input = some edge → ∀ held,
        s.getEdge edge.edgeId = some held → Asleep crypto persona (s.appendAssertion
          (signAssertion crypto persona edge.edgeId .proposed now none)) held) ∧
      ((∃ edge, proposedEdge crypto now persona input = some edge ∧ s.getEdge edge.edgeId = none) ∨
        Represented persona s
          (crypto.commitmentHash (committed now persona input).toCommitmentHashInput))
  | .confirm input, sys => ∀ persona kind, sys.node.locate input.id = some (persona, kind) →
      let s := sys.node.vault persona
      (kind = .pending → input.decision ≠ .dismiss → ∀ pending c,
        sys.node.getPending persona input.id = some pending → pending.candidate = .commitment c →
        Represented persona s (crypto.commitmentHash (decided input c).toCommitmentHashInput)) ∧
      (kind ≠ .pending → input.decision = .dismiss → ∀ edge, s.getEdge input.id = some edge →
        (isParty edge persona = true → ¬Unsettled crypto s edge) ∧
        (edge.owner = persona → ∀ c ∈ s.commitments.values, c.1 = edge.commitmentHash →
          ∃ other ∈ s.edges.values, other.edgeId ≠ edge.edgeId ∧ other.owner = persona ∧
            other.commitmentHash = c.1 ∧ (s.getEdgeMeta other.edgeId).dismissed = false))
  | .act input, sys => ∀ persona kind edge, sys.node.locate input.id = some (persona, kind) →
      (sys.node.vault persona).getEdge input.id = some edge →
      let a := signAssertion crypto persona edge.edgeId (asserts input.act) now input.evidenceHash
      (sys.node.ownVerdict crypto now persona edge a).accepted = true →
      Asleep crypto persona ((sys.node.vault persona).appendAssertion a) edge
  | .ingest persona budgetNow messages, sys => ∀ before m, before ++ [.message m] <+: messages →
      HarmlessMessage crypto now persona
        ((sys.inbox persona).ingest crypto now budgetNow before).1.vault m
  | .reconResponse .., _ => False
  | .recoverResponse .., _ => False

variable {crypto : Crypto} {now asOf : Rfc3339} {node : ServandaNode} {persona : PublicKeyHex}
  {s s' : Subtree} {edge : Edge}

theorem Whole.visible (h : Whole crypto persona (node.vault persona)) :
    Visible crypto now node persona asOf := by
  constructor
  · intro edge hedge hparty hlive
    have hshown : ((node.vault persona).getEdgeMeta edge.edgeId).dismissed = false := by
      by_contra hdismissed
      exact h.asleep edge hedge hparty (by simpa using hdismissed) hlive
    have hview : edgeInView (if edge.owner = persona then .owe else .waiting) (edge.owner == persona)
        (node.edgeState crypto persona edge).finalState = true := by
      have hstates : (node.edgeState crypto persona edge).finalState ∈ unsettledStates := hlive
      generalize (node.edgeState crypto persona edge).finalState = state at hstates
      have hlive : state ∈ liveStates := by
        revert hstates
        cases state <;> decide
      by_cases howner : edge.owner = persona <;> simp [howner, edgeInView, hlive]
    obtain ⟨item, hitem⟩ := @edgeItem_isSome crypto now asOf _ _ _ _ hshown hview
    obtain ⟨-, -, hkind, hid, -⟩ := edgeItem_spec hitem
    exact ⟨item, mem_itemsFor.mpr (.inl ⟨edge, hedge, hitem⟩), hkind, hid⟩
  · intro c hc
    cases hcarried : (node.vault persona).carried c.1 with
    | false =>
      obtain ⟨item, hitem⟩ := @commitmentItem_all crypto now asOf _ _ _ hcarried
      exact .inl ⟨item, mem_itemsFor.mpr (.inr (.inl ⟨c, hc, hitem⟩)), hitem⟩
    | true =>
      obtain ⟨edge, hedge, howner, hhash, hshown⟩ := h.represented c hc hcarried
      obtain ⟨item, hitem⟩ := @edgeItem_isSome crypto now asOf _ _ .all _ hshown rfl
      obtain ⟨-, -, hkind, hid, -⟩ := edgeItem_spec hitem
      exact .inr ⟨edge, hedge, howner, hhash, item, mem_itemsFor.mpr (.inl ⟨edge, hedge, hitem⟩),
        hkind, hid⟩

theorem carried_iff {hash : Sha256Hex} :
    s.carried hash = true ↔ ∃ edge ∈ s.edges.values, edge.commitmentHash = hash := by
  simp [Subtree.carried]

theorem unsettled_congr (hfiles : s'.files edge.edgeId = s.files edge.edgeId)
    (hrotations : s'.rotations = s.rotations) :
    Unsettled crypto s' edge ↔ Unsettled crypto s edge := by
  have hlineage : partyLineage crypto s' = partyLineage crypto s := by
    unfold partyLineage Subtree.listRotations
    rw [hrotations]
  rw [Unsettled, Unsettled, hlineage, Subtree.getAssertions, hfiles, ← Subtree.getAssertions]

namespace Whole

/-- A write that leaves the edges, the commitments and the marks as they were keeps a vault whole if
it revives nothing. -/
theorem sameOwn (h : Whole crypto persona s) (hsame : SameOwn s s') (hedges : s'.edges = s.edges)
    (hasleep : ∀ edge ∈ s.edges.values, Asleep crypto persona s' edge) :
    Whole crypto persona s' := by
  constructor
  · rw [hedges]
    exact hasleep
  · intro c hc
    rw [hsame.commitments] at hc
    have := h.represented c hc
    simpa only [Represented, Subtree.carried, ShownBy, Subtree.getEdgeMeta, hedges, hsame.edgeMeta]
      using this
  · intro id hid
    rw [Subtree.getEdgeMeta, hsame.edgeMeta] at hid
    rw [Subtree.getEdge, hedges]
    exact h.stored id hid

theorem appendAssertion (h : Whole crypto persona s) {a : Assertion}
    (ha : ∀ held, s.getEdge a.edgeId = some held →
      Asleep crypto persona (s.appendAssertion a) held) :
    Whole crypto persona (s.appendAssertion a) := by
  apply h.sameOwn (.appendAssertion s a) rfl
  intro edge hedge
  by_cases hid : edge.edgeId = a.edgeId
  · exact ha edge (Directory.get?_eq_some_iff.mpr ⟨hedge, hid⟩)
  · intro hparty hdismissed
    have hfiles : (s.appendAssertion a).files edge.edgeId = s.files edge.edgeId := by
      simp [Subtree.appendAssertion, hid]
    rw [unsettled_congr hfiles rfl]
    exact h.asleep edge hedge hparty hdismissed

theorem putCommitment (h : Whole crypto persona s) {c : Commitment}
    (hc : Represented persona s (crypto.commitmentHash c.toCommitmentHashInput)) :
    Whole crypto persona (s.putCommitment crypto c) := by
  refine ⟨h.asleep, fun c' hc' ↦ ?_, h.stored⟩
  rcases Directory.mem_values_put.mp hc' with rfl | ⟨hc', -⟩
  · exact hc
  · exact h.represented c' hc'

theorem fresh (h : Whole crypto persona s) {id : Sha256Hex} (hnone : s.getEdge id = none) :
    (s.getEdgeMeta id).dismissed = false := by
  by_contra hdismissed
  exact h.stored id (by simpa using hdismissed) hnone

/-- An edge that is put into a whole vault is not dismissed: what it hides are the commitments that
it carries for another owner. -/
theorem putEdge (h : Whole crypto persona s) (hput : s.putEdge crypto edge = some s')
    (hforeign : s.getEdge edge.edgeId = none → edge.owner ≠ persona →
      ∀ c ∈ s.commitments.values, c.1 = edge.commitmentHash → ShownBy persona s c.1) :
    Whole crypto persona s' := by
  obtain ⟨-, ⟨held, -, -, rfl⟩ | ⟨hnone, rfl⟩⟩ := Subtree.putEdge_cases hput
  · exact h
  have hshown {hash : Sha256Hex} (hs : ShownBy persona s hash) :
      ShownBy persona { s with edges := s.edges.put edge } hash := by
    obtain ⟨other, ho, hrest⟩ := hs
    exact ⟨other, Directory.mem_values_put.mpr
      (.inr ⟨ho, Directory.get?_eq_none_iff.mp hnone other ho⟩), hrest⟩
  refine ⟨fun other ho ↦ ?_, fun c hc hcarried ↦ ?_, fun id hid ↦ ?_⟩
  · rcases Directory.mem_values_put.mp ho with rfl | ⟨ho, -⟩
    · intro _ hdismissed
      exact absurd (hdismissed.symm.trans (h.fresh hnone)) (by decide)
    · exact h.asleep other ho
  · obtain ⟨other, ho, hhash⟩ := carried_iff.mp hcarried
    rcases Directory.mem_values_put.mp ho with rfl | ⟨ho, -⟩
    · by_cases howner : other.owner = persona
      · exact ⟨other, Directory.mem_values_put.mpr (.inl rfl), howner, hhash, h.fresh hnone⟩
      · exact hshown (hforeign hnone howner c hc hhash.symm)
    · exact hshown (h.represented c hc (carried_iff.mpr ⟨other, ho, hhash⟩))
  · by_cases heq : id = edge.edgeId
    · subst heq
      simp [Subtree.getEdge]
    · rw [Subtree.getEdge, Directory.get?_put_of_ne _ heq]
      exact h.stored id hid

theorem dismiss (h : Whole crypto persona s) (hget : s.getEdge edge.edgeId = some edge)
    (hsettled : isParty edge persona = true → ¬Unsettled crypto s edge)
    (hother : edge.owner = persona → ∀ c ∈ s.commitments.values, c.1 = edge.commitmentHash →
      ∃ other ∈ s.edges.values, other.edgeId ≠ edge.edgeId ∧ other.owner = persona ∧
        other.commitmentHash = c.1 ∧ (s.getEdgeMeta other.edgeId).dismissed = false) :
    Whole crypto persona (s.putEdgeMeta edge.edgeId
      { s.getEdgeMeta edge.edgeId with dismissed := true }) := by
  have hmeta {id : Sha256Hex} (hid : id ≠ edge.edgeId) : (s.putEdgeMeta edge.edgeId
      { s.getEdgeMeta edge.edgeId with dismissed := true }).getEdgeMeta id = s.getEdgeMeta id := by
    simp [Subtree.putEdgeMeta, Subtree.getEdgeMeta, hid]
  refine ⟨fun held hheld hparty hdismissed ↦ ?_, fun c hc hcarried ↦ ?_, fun id hid ↦ ?_⟩
  · by_cases hid : held.edgeId = edge.edgeId
    · obtain rfl : held = edge := Directory.name_injOn hheld (Directory.mem_of_get? hget) hid
      exact hsettled hparty
    · rw [hmeta hid] at hdismissed
      exact h.asleep held hheld hparty hdismissed
  · obtain ⟨shown, hshown, howner, hhash, hundismissed⟩ := h.represented c hc hcarried
    by_cases hid : shown.edgeId = edge.edgeId
    · obtain rfl : shown = edge := Directory.name_injOn hshown (Directory.mem_of_get? hget) hid
      obtain ⟨other, ho, hne, howner', hhash', hundismissed'⟩ := hother howner c hc hhash.symm
      exact ⟨other, ho, howner', hhash', by rwa [hmeta hne]⟩
    · exact ⟨shown, hshown, howner, hhash, by rwa [hmeta hid]⟩
  · by_cases heq : id = edge.edgeId
    · subst heq
      show s.getEdge edge.edgeId ≠ none
      simp [hget]
    · rw [hmeta heq] at hid
      exact h.stored id hid

theorem confirm (h : Whole crypto persona s) {a : Assertion} (hid : a.edgeId = edge.edgeId) :
    Whole crypto persona ((s.appendAssertion a).putEdgeMeta edge.edgeId
      { s.getEdgeMeta edge.edgeId with dismissed := false }) := by
  have hmeta {id : Sha256Hex} (hne : id ≠ edge.edgeId) : ((s.appendAssertion a).putEdgeMeta
      edge.edgeId { s.getEdgeMeta edge.edgeId with dismissed := false }).getEdgeMeta id =
      s.getEdgeMeta id := by
    simp [Subtree.putEdgeMeta, Subtree.getEdgeMeta, Subtree.appendAssertion, hne]
  have hself : (((s.appendAssertion a).putEdgeMeta edge.edgeId
      { s.getEdgeMeta edge.edgeId with dismissed := false }).getEdgeMeta edge.edgeId).dismissed =
      false := by
    simp [Subtree.putEdgeMeta, Subtree.getEdgeMeta]
  refine ⟨fun held hheld hparty hdismissed ↦ ?_, fun c hc hcarried ↦ ?_, fun id hdismissed ↦ ?_⟩
  · by_cases hsame : held.edgeId = edge.edgeId
    · rw [hsame, hself] at hdismissed
      cases hdismissed
    · rw [hmeta hsame] at hdismissed
      have hfiles : (s.appendAssertion a).files held.edgeId = s.files held.edgeId := by
        simp [Subtree.appendAssertion, hid, hsame]
      have hasleep := h.asleep held hheld hparty hdismissed
      rwa [← unsettled_congr hfiles rfl] at hasleep
  · obtain ⟨shown, hshown, howner, hhash, hundismissed⟩ := h.represented c hc hcarried
    refine ⟨shown, hshown, howner, hhash, ?_⟩
    by_cases hsame : shown.edgeId = edge.edgeId
    · rw [hsame, hself]
    · rwa [hmeta hsame]
  · by_cases hsame : id = edge.edgeId
    · rw [hsame, hself] at hdismissed
      cases hdismissed
    · rw [hmeta hsame] at hdismissed
      exact h.stored id hdismissed

theorem reconResponse (h : Whole crypto persona s) {actor responder : PublicKeyHex}
    {response : ReconResponse} (hasleep : ∀ edge ∈ s.edges.values, Asleep crypto persona
      (applyReconResponse crypto s actor responder now response).1 edge) :
    Whole crypto persona (applyReconResponse crypto s actor responder now response).1 := by
  refine h.sameOwn (.reconResponse response) ?_ hasleep
  refine applyReconResponse_induction (P := fun s' ↦ s'.edges = s.edges) rfl ?_
  intro before entry s' _ hbefore hentry
  cases hentry with
  | unstored => exact hbefore
  | appended => exact (edges_appendAll _ _).trans hbefore

theorem ingest {inbox : Inbox} {budgetNow : ℤ} {messages : List Delivery}
    (h : Whole crypto inbox.persona inbox.vault)
    (hmessages : ∀ before m, before ++ [.message m] <+: messages → HarmlessMessage crypto now
      inbox.persona (inbox.ingest crypto now budgetNow before).1.vault m) :
    Whole crypto inbox.persona (inbox.ingest crypto now budgetNow messages).1.vault := by
  apply Inbox.ingest_induction h
  intro before raw s' hpre hbefore hraw
  cases hraw with
  | unstored => exact hbefore
  | @proposed m edge a s₁ _ hbody howedTo hsender hput hlegal happend =>
    have hharmless := hmessages before m hpre
    simp only [HarmlessMessage, hbody] at hharmless
    obtain ⟨hasleep, hforeign⟩ := hharmless hsender howedTo hlegal
    have hedge := hbefore.putEdge hput hforeign
    rcases happend with rfl | rfl
    · exact hedge
    obtain ⟨-, ctx, hj⟩ := acceptsLast_iff.mp hlegal
    have hid : a.edgeId = edge.edgeId := (judge_ok_iff.mp hj).2.1.1
    apply hedge.appendAssertion
    intro held hheld
    rw [hid] at hheld
    obtain ⟨-, ⟨_, -, -, rfl⟩ | ⟨hnone, rfl⟩⟩ := Subtree.putEdge_cases hput
    · exact hasleep held hheld
    · intro _ hdismissed
      have hsame : held.edgeId = edge.edgeId := Directory.name_of_get? hheld
      rw [hsame] at hdismissed
      exact absurd (hdismissed.symm.trans (hbefore.fresh hnone)) (by decide)
  | @asserted m edge a hbody hget hpersona hsender hlegal =>
    have hharmless := hmessages before m hpre
    simp only [HarmlessMessage, hbody] at hharmless
    apply hbefore.appendAssertion
    intro held hheld
    obtain rfl : edge = held := Option.some.inj (hget.symm.trans hheld)
    exact hharmless edge hget hlegal
  | @reconciled m response hbody =>
    have hharmless := hmessages before m hpre
    simp only [HarmlessMessage, hbody] at hharmless
    exact hbefore.reconResponse hharmless
  | @rotated m r encoding hbody hverified hsender hrelevant =>
    have hharmless := hmessages before m hpre
    simp only [HarmlessMessage, hbody] at hharmless
    exact hbefore.sameOwn ⟨rfl, rfl, rfl⟩ rfl
      (hharmless (Rotation.genuine_of_verifyRotation hverified) hsender hrelevant)

theorem proposedEdge_hash {input : CommitInput}
    (h : proposedEdge crypto now persona input = some edge) : edge.commitmentHash =
      crypto.commitmentHash (ServandaNode.committed now persona input).toCommitmentHashInput := by
  unfold proposedEdge at h
  split at h
  · split_ifs at h
    cases h
    rfl
  · cases h

theorem propose (h : Whole crypto persona s) {c : Commitment}
    (hedge : crypto.edgeIdBindsBody edge = true) (howner : edge.owner = persona)
    (hhash : edge.commitmentHash = crypto.commitmentHash c.toCommitmentHashInput)
    (hnone : s.getEdge edge.edgeId = none) : Whole crypto persona
      ({ s with edges := s.edges.put edge }.putCommitment crypto c) := by
  have hput : s.putEdge crypto edge = some { s with edges := s.edges.put edge } := by
    simp [Subtree.putEdge, hedge, hnone]
  refine (h.putEdge hput fun _ hforeign ↦ absurd howner hforeign).putCommitment fun _ ↦ ?_
  exact ⟨edge, Directory.mem_values_put.mpr (.inl rfl), howner, hhash, h.fresh hnone⟩

/-- What a harmless step writes to a whole vault leaves it whole. -/
theorem wrote {sys : System} {op : Operation} (h : Whole crypto persona (sys.node.vault persona))
    (hop : Harmless crypto now op sys) (hwrote : Wrote crypto now sys op persona s') :
    Whole crypto persona s' := by
  have hbinds {edge : Edge} (hwf : edgeMalformed crypto edge = none) :
      crypto.edgeIdBindsBody edge = true := by
    by_contra hunbound
    rw [edgeMalformed, if_pos (by simpa using hunbound)] at hwf
    cases hwf
  cases hwrote with
  | @committed input _ hpersona hunproposed =>
    obtain ⟨-, ⟨edge, hedge, hnone⟩ | hrepresented⟩ := hop persona hpersona
    · have hput := hunproposed edge hedge
      have hnone' : ((sys.node.vault persona).putCommitment crypto
        (ServandaNode.committed now persona input)).getEdge edge.edgeId = none := hnone
      simp [Subtree.putEdge, hbinds (AllStored.proposedEdge_spec hedge).1, hnone'] at hput
    · exact h.putCommitment hrepresented
  | @proposed input _ edge s₁ a hpersona hedge hput ha =>
    subst ha
    obtain ⟨hasleep, hshown⟩ := hop persona hpersona
    obtain ⟨hwf, howner⟩ := AllStored.proposedEdge_spec hedge
    obtain ⟨-, ⟨held, hheld, -, rfl⟩ | ⟨hnone, rfl⟩⟩ := Subtree.putEdge_cases hput
    · have hrepresented := hshown.resolve_left fun hmissing ↦ by
        obtain ⟨edge', hedge', hnone⟩ := hmissing
        obtain rfl : edge = edge' := Option.some.inj (hedge.symm.trans hedge')
        exact absurd (hheld.symm.trans hnone) (by simp)
      exact (h.putCommitment hrepresented).appendAssertion (hasleep edge hedge)
    · refine (h.propose (hbinds hwf) howner (proposedEdge_hash hedge) hnone).appendAssertion ?_
      intro held hheld _ hdismissed
      have hsame : held.edgeId = edge.edgeId := Directory.name_of_get? hheld
      rw [hsame] at hdismissed
      exact absurd (hdismissed.symm.trans (h.fresh hnone)) (by decide)
  | expected id e => exact ⟨h.asleep, h.represented, h.stored⟩
  | @recorded input _ pending c hlocate hpending hcandidate hdecision =>
    exact h.putCommitment ((hop persona _ hlocate).1 rfl hdecision pending c hpending hcandidate)
  | @dismissed input _ kind edge hlocate hkind hget hdecision =>
    have hid : edge.edgeId = input.id := Directory.name_of_get? hget
    obtain ⟨hsettled, hother⟩ := (hop persona kind hlocate).2 hkind hdecision edge hget
    rw [← hid] at hget ⊢
    exact h.dismiss hget hsettled hother
  | @confirmed input _ edge a hget howedTo ha haccepted =>
    subst ha
    exact h.confirm rfl
  | @asserted input _ kind edge a hlocate hget hrefusal ha haccepted =>
    subst ha
    apply h.appendAssertion
    intro held hheld
    have hid : edge.edgeId = input.id := Directory.name_of_get? hget
    have hsame : (signAssertion crypto persona edge.edgeId (asserts input.act) now
      input.evidenceHash).edgeId = edge.edgeId := rfl
    rw [hsame, hid, hget] at hheld
    obtain rfl : edge = held := Option.some.inj hheld
    exact hop persona kind edge hlocate hget haccepted
  | ingested =>
    have hinbox : Whole crypto (sys.inbox persona).persona (sys.inbox persona).vault := h
    exact hinbox.ingest hop
  | reconciled => exact hop.elim
  | recovered => exact hop.elim

theorem empty (persona : PublicKeyHex) : Whole crypto persona .empty where
  asleep _ h := absurd h List.not_mem_nil
  represented _ h := absurd h List.not_mem_nil
  stored _ h := by cases h

theorem reached {sys : System} (h : Reached crypto (Harmless crypto) now sys) (persona : PublicKeyHex) :
    Whole crypto persona (sys.node.vault persona) := by
  refine h.invariant (P := Whole crypto) empty ?_ persona
  intro now sys op actor s hbefore hop hwrote
  exact (hbefore actor).wrote hop hwrote

end Whole

section Hidden

open Sample ReadTools

def dismissedPromise : System :=
  ((creditorNode.perform Sample.crypto (date 3 1 9) firstProposal).perform Sample.crypto (date 3 1 10)
    (.confirm ⟨Sample.edge.edgeId, .confirm, none⟩)).perform Sample.crypto (date 3 1 11) dismissal

end Hidden

end Servanda.Visibility
