import Servanda.Lineage
import Servanda.Register
import Servanda.Runs

namespace Servanda.Continuity

open Transitions Serve Recon Rotation StoreInvariant ServandaNode

/-- Does a persona's vault hold an edge, with a key or one the key succeeded, on which it has signed
an assertion that is accepted? -/
def Earned (crypto : Crypto) (s : Subtree) (persona key : PublicKeyHex) : Prop :=
  ∃ edge ∈ s.edges.values,
    (∃ party, isParty edge party = true ∧
      (party = key ∨ ∃ k ∈ partyLineage crypto s party, k.key = key)) ∧
    ∃ before a, AcceptedAt crypto (partyLineage crypto s) none edge (s.getAssertions edge.edgeId)
      before a ∧ a.signer = persona

/-- Every edge names the persona, and no statement replaces the persona's key. -/
structure Own (crypto : Crypto) (persona : PublicKeyHex) (s : Subtree) : Prop where
  party : ∀ edge ∈ s.edges.values, isParty edge persona = true
  unreplaced : ∀ r ∈ s.rotations.values, genuine crypto r = true → r.old ≠ persona

/-- Nothing is recovered on an edge that does not name the persona, and no statement is accepted
that replaces the persona's key. -/
def NamesPersona (crypto : Crypto) (persona : PublicKeyHex) (now : Rfc3339) :
    Operation → System → Prop
  | .ingest actor budgetNow messages, sys => actor = persona →
      ∀ before m r, before ++ [.message m] <+: messages → m.body = .rotation (some r) →
        let s := ((sys.inbox actor).ingest crypto now budgetNow before).1.vault
        genuine crypto r = true → (m.sender = r.old ∨ m.sender = r.new) →
        (∃ edge ∈ s.edges.values, isParty edge r.old = true) → r.old ≠ persona
  | .recoverResponse actor response, sys => actor = persona →
      ∀ entry ∈ response.edges,
        isPartyOrSuccessor entry.edge persona (partyLineage crypto (sys.node.vault actor)) = true →
        isParty entry.edge persona = true
  | _, _ => True

variable {crypto : Crypto} {now : Rfc3339} {persona : PublicKeyHex} {s s' : Subtree}

/-- An edge leaves the start by the owner's act, and its proposal by the other party's. -/
theorem judge_begins {keyLineage : KeyLineage} {clock : Option Rfc3339} {edge : Edge}
    {ctx ctx' : ChainState} {a : Assertion}
    (h : judge crypto keyLineage clock edge ctx a = .ok ctx') (hc : Coherent ctx) :
    (ctx.state = .none → heldBy (keyLineage edge.owner) a.signer a.assertedAt = true ∧
      ctx'.state = .proposed) ∧
    (ctx.state = .proposed → heldBy (keyLineage edge.owedTo) a.signer a.assertedAt = true) := by
  obtain ⟨-, -, next, hrow, rfl⟩ := judge_ok_iff.mp h
  cases hrow with
  | contest hcontest =>
    have hexit : ctx.exit ≠ none := by
      intro hnone
      simp [contests, hnone] at hcontest
    exact ⟨fun hs ↦ absurd (hc.unexited (.inl hs)) hexit,
      fun hs ↦ absurd (hc.unexited (.inr (.inl hs))) hexit⟩
  | table _ hrow =>
    constructor
    · intro hs
      cases hrow <;> simp_all [record, disputableFrom]
    · intro hs
      cases hrow <;> simp_all [disputableFrom]

/-- An edge past the start was proposed by who held the owner's side, and one past its proposal
was confirmed by who held the other. -/
theorem signed_of_stage {keyLineage : KeyLineage} {edge : Edge}
    (hedge : edgeMalformed crypto edge = none) (chain : List Assertion) :
    (1 ≤ stage (context crypto keyLineage none edge chain).state → ∃ before a,
      AcceptedAt crypto keyLineage none edge chain before a ∧
        heldBy (keyLineage edge.owner) a.signer a.assertedAt = true) ∧
    (2 ≤ stage (context crypto keyLineage none edge chain).state → ∃ before a,
      AcceptedAt crypto keyLineage none edge chain before a ∧
        heldBy (keyLineage edge.owedTo) a.signer a.assertedAt = true) := by
  induction chain using List.reverseRecOn with
  | nil => simp [stage, ChainState.start]
  | append_singleton chain x ih =>
    obtain ⟨hproposed, hconfirmed⟩ := ih
    have hmono {P : Assertion → Prop} (h : ∃ before a,
        AcceptedAt crypto keyLineage none edge chain before a ∧ P a) : ∃ before a,
        AcceptedAt crypto keyLineage none edge (chain ++ [x]) before a ∧ P a := by
      obtain ⟨before, a, ha, hp⟩ := h
      exact ⟨before, a, ha.mono (List.prefix_append _ _), hp⟩
    cases hj : judge crypto keyLineage none edge (context crypto keyLineage none edge chain) x with
    | error reason =>
      rw [context_snoc_error hj]
      exact ⟨fun h ↦ hmono (hproposed h), fun h ↦ hmono (hconfirmed h)⟩
    | ok ctx =>
      have hx : AcceptedAt crypto keyLineage none edge (chain ++ [x]) chain x :=
        acceptedAt_iff.mpr ⟨hedge, List.prefix_rfl, ctx, hj⟩
      rw [context_snoc_ok hj]
      obtain ⟨hnone, hprop⟩ := judge_begins hj (context_coherent chain)
      cases hs : (context crypto keyLineage none edge chain).state with
      | none =>
        obtain ⟨howner, hnext⟩ := hnone hs
        exact ⟨fun _ ↦ ⟨chain, x, hx, howner⟩, fun h ↦ by simp [hnext, stage] at h⟩
      | proposed =>
        refine ⟨fun _ ↦ hmono (hproposed (by simp [hs, stage])), fun _ ↦ ?_⟩
        exact ⟨chain, x, hx, hprop hs⟩
      | _ =>
        exact ⟨fun _ ↦ hmono (hproposed (by simp [hs, stage])),
          fun _ ↦ hmono (hconfirmed (by simp [hs, stage]))⟩

theorem Own.heldBy (h : Own crypto persona s) {signer : PublicKeyHex} {instant : Rfc3339}
    (hheld : heldBy (partyLineage crypto s persona) signer instant = true) : signer = persona := by
  have hstored : stored crypto s persona = [] := by
    apply List.eq_nil_iff_forall_not_mem.mpr
    intro r hr
    obtain ⟨hmem, hgenuine, hold⟩ := mem_stored.mp hr
    exact h.unreplaced r hmem hgenuine hold
  rw [partyLineage_apply] at hheld
  simp only [maxRotationDepth, walk, hstored, lineageOf] at hheld
  by_contra hne
  simp [Transitions.heldBy, Ne.symm hne] at hheld

/-- In a vault of the persona's own edges, an edge past its proposal bears the persona's
signature. -/
theorem Own.signed (h : Own crypto persona s) {edge : Edge} (hedge : edge ∈ s.edges.values)
    {chain : List Assertion}
    (hstate : finalState crypto (partyLineage crypto s) none edge chain ∉ [.none, .proposed]) :
    ∃ before a, AcceptedAt crypto (partyLineage crypto s) none edge chain before a ∧
      a.signer = persona := by
  have hwf : edgeMalformed crypto edge = none := by
    refine @edgeMalformed_of_finalState crypto (partyLineage crypto s) none edge chain
      fun hnone ↦ hstate ?_
    simp [hnone]
  have hstage : 2 ≤ stage (context crypto (partyLineage crypto s) none edge chain).state := by
    rw [← finalState_eq hwf]
    generalize finalState crypto (partyLineage crypto s) none edge chain = state at hstate
    cases state <;> simp_all [stage]
  obtain ⟨hproposed, hconfirmed⟩ := @signed_of_stage crypto (partyLineage crypto s) edge hwf chain
  rcases isParty_iff.mp (h.party edge hedge) with howner | howed
  · obtain ⟨before, a, ha, hheld⟩ := hproposed (by omega)
    rw [howner] at hheld
    exact ⟨before, a, ha, h.heldBy hheld⟩
  · obtain ⟨before, a, ha, hheld⟩ := hconfirmed hstage
    rw [howed] at hheld
    exact ⟨before, a, ha, h.heldBy hheld⟩

theorem known_of_level_one {node : ServandaNode} {key : PublicKeyHex}
    (h : node.verificationLevel crypto now persona (some (.persona key)) = .one) :
    ∃ edge ∈ (node.vault persona).edges.values,
      (∃ party, isParty edge party = true ∧
        (party = key ∨ ∃ k ∈ partyLineage crypto (node.vault persona) party, k.key = key)) ∧
      (node.edgeState crypto persona edge).finalState ∉ [.none, .proposed] := by
  simp only [verificationLevel] at h
  generalize hattested : ((node.vault persona).attestations key).bind _ = attested at h
  cases attested with
  | some level =>
    obtain rfl : level = .one := h
    obtain ⟨attestation, -, hlevel⟩ := Option.bind_eq_some_iff.mp hattested
    split_ifs at hlevel <;> cases hlevel
  | none =>
    rw [Option.getD_none] at h
    split_ifs at h with hknown
    obtain ⟨edge, hedge, hboth⟩ := List.any_eq_true.mp hknown
    obtain ⟨hsame, hstate⟩ := Bool.and_eq_true_iff.mp hboth
    refine ⟨edge, hedge, ?_, by simpa using hstate⟩
    simp only [Bool.or_eq_true, beq_iff_eq, List.any_eq_true] at hsame
    rcases hsame with hparty | hparty
    · exact ⟨edge.owner, isParty_iff.mpr (.inl rfl), hparty⟩
    · exact ⟨edge.owedTo, isParty_iff.mpr (.inr rfl), hparty⟩

theorem Own.earned {node : ServandaNode} {key : PublicKeyHex}
    (h : Own crypto persona (node.vault persona))
    (hlevel : node.verificationLevel crypto now persona (some (.persona key)) = .one) :
    Earned crypto (node.vault persona) persona key := by
  obtain ⟨edge, hedge, hparty, hstate⟩ := known_of_level_one hlevel
  exact ⟨edge, hedge, hparty, h.signed hedge hstate⟩

theorem Own.congr (h : Own crypto persona s) (hedges : s'.edges = s.edges)
    (hrotations : s'.rotations = s.rotations) : Own crypto persona s' := by
  constructor
  · rw [hedges]
    exact h.party
  · rw [hrotations]
    exact h.unreplaced

theorem Own.putEdge {edge : Edge} (h : Own crypto persona s) (hput : s.putEdge crypto edge = some s')
    (hparty : isParty edge persona = true) : Own crypto persona s' := by
  obtain ⟨-, ⟨held, -, -, rfl⟩ | ⟨-, rfl⟩⟩ := Subtree.putEdge_cases hput
  · exact h
  · refine ⟨fun other ho ↦ ?_, h.unreplaced⟩
    rcases Directory.mem_values_put.mp ho with rfl | ⟨ho, -⟩
    · exact hparty
    · exact h.party other ho

theorem Own.appendAll (h : Own crypto persona s) (l : List Assertion) :
    Own crypto persona (appendAll s l) := by
  induction l generalizing s with
  | nil => exact h
  | cons a l ih => exact ih (h.congr rfl rfl)

theorem Own.reconResponse (h : Own crypto persona s) (actor responder : PublicKeyHex)
    (response : ReconResponse) :
    Own crypto persona (applyReconResponse crypto s actor responder now response).1 := by
  apply applyReconResponse_induction h
  intro before entry s' _ hbefore hentry
  cases hentry with
  | unstored => exact hbefore
  | appended => exact hbefore.appendAll _

theorem Own.ingest {inbox : Inbox} {budgetNow : ℤ} {messages : List Delivery}
    (h : Own crypto inbox.persona inbox.vault)
    (hmessages : ∀ before m r, before ++ [.message m] <+: messages →
      m.body = .rotation (some r) → genuine crypto r = true →
      (m.sender = r.old ∨ m.sender = r.new) →
      (∃ edge ∈ (inbox.ingest crypto now budgetNow before).1.vault.edges.values,
        isParty edge r.old = true) → r.old ≠ inbox.persona) :
    Own crypto inbox.persona (inbox.ingest crypto now budgetNow messages).1.vault := by
  apply Inbox.ingest_induction h
  intro before raw s' hpre hbefore hraw
  cases hraw with
  | unstored => exact hbefore
  | proposed hbody howedTo hsender hput hlegal happend =>
    have hedge := hbefore.putEdge hput (isParty_iff.mpr (.inr howedTo))
    rcases happend with rfl | rfl
    · exact hedge
    · exact hedge.congr rfl rfl
  | asserted => exact hbefore.congr rfl rfl
  | reconciled => exact hbefore.reconResponse _ _ _
  | @rotated m r encoding hbody hverified hsender hrelevant =>
    have hgenuine := genuine_of_verifyRotation hverified
    refine ⟨hbefore.party, fun r' hr' hgenuine' ↦ ?_⟩
    rcases Directory.mem_values_put.mp hr' with rfl | ⟨hr', -⟩
    · exact hmessages before m r' hpre hbody hgenuine hsender hrelevant
    · exact hbefore.unreplaced r' hr' hgenuine'

theorem Own.reached {sys : System} (h : Reached crypto (NamesPersona crypto persona) now sys) :
    Own crypto persona (sys.node.vault persona) := by
  refine h.invariant (P := fun actor s ↦ actor = persona → Own crypto persona s) ?_ ?_ persona rfl
  · exact fun _ _ ↦ ⟨fun _ h ↦ absurd h List.not_mem_nil, fun _ h ↦ absurd h List.not_mem_nil⟩
  intro now sys op actor s hbefore hop hwrote hactor
  have hown := hbefore actor hactor
  subst hactor
  cases hwrote with
  | committed | expected | recorded | dismissed | confirmed | asserted => exact hown.congr rfl rfl
  | @proposed input _ edge s' a hpersona hedge hput ha =>
    have howner : edge.owner = actor := (AllStored.proposedEdge_spec hedge).2
    have hrecorded : Own crypto actor ((sys.node.vault actor).putCommitment crypto
      (committed now actor input)) := hown.congr rfl rfl
    exact (hrecorded.putEdge hput (isParty_iff.mpr (.inl howner))).congr rfl rfl
  | ingested => exact hown.ingest (hop rfl)
  | reconciled => exact hown.reconResponse _ _ _
  | @recovered _ response =>
    apply applyRecoverResponse_induction hown
    intro entry hentry s₁ s₂ hbefore hentry'
    cases hentry' with
    | unstored => exact hbefore
    | restored hparty hput => exact (hbefore.putEdge hput (hop rfl entry hentry hparty)).appendAll _

/-- In every run in which nothing is recovered but the persona's own edges and the persona's key is
not replaced, a level is earned. -/
theorem level_earned (crypto : Crypto) (persona : PublicKeyHex) :
    ∀ now sys, Reached crypto (NamesPersona crypto persona) now sys → ∀ asOf key,
      sys.node.verificationLevel crypto asOf persona (some (.persona key)) = .one →
      Earned crypto (sys.node.vault persona) persona key :=
  fun _ _ h _ _ hlevel ↦ (Own.reached h).earned hlevel

section Stranger

open Sample

def confirmedProposal : System :=
  (creditorNode.perform Sample.crypto (date 3 1 9) firstProposal).perform Sample.crypto (date 3 1 10)
    (.confirm ⟨Sample.edge.edgeId, .confirm, none⟩)

theorem confirmation_earns : Earned Sample.crypto (confirmedProposal.node.vault creditorKey)
    creditorKey ownerKey := by
  have hstart : Reached Sample.crypto (NamesPersona Sample.crypto creditorKey) (date 3 1 9)
      creditorNode := .start fun _ ↦ rfl
  have hnames : NamesPersona Sample.crypto creditorKey (date 3 1 9) firstProposal creditorNode := by
    intro _ before m r hpre hbody
    have hmem : Delivery.message m ∈ [.message proposalMessage] := hpre.subset (by simp)
    obtain rfl : m = proposalMessage := by simpa using hmem
    cases hbody
  exact level_earned Sample.crypto creditorKey _ confirmedProposal
    ((hstart.perform le_rfl hnames).perform (by decide +kernel) trivial) (date 3 1 10) ownerKey (by decide +kernel)

def otherKey : PublicKeyHex := 0xb4fb55e4e947ad3dcbbdf250914d29e56bcf99a74e24f93127fb3c55eb9b7bfb

def foreignEdge : Edge :=
  { Sample.edge with
    edgeId := 0xa26d451f9842e91786a189be24a56c31a19a78b2002f8c2b04cef231cc332146
    owedTo := otherKey }

def foreignChain : List Assertion :=
  [⟨foreignEdge.edgeId, .proposed, date 3 1 9, ownerKey, none,
      0xbe3608d065f41e0055d618784196f68c39d52e7d9391cdf5616001ed9e41225f9ca6a628208a3486acd2629912e186ddb6b7f70cb5312df91119ada8f8927d05⟩,
    ⟨foreignEdge.edgeId, .confirmed, date 3 1 10, otherKey, none,
      0x5e15f2526c2127908731f33132c2e2cc0795fe9e80f9a646eac4025c58000358012c5e32fd55702736839b1a61931e6dda9e3a230d4d177d00b7ec0df630080e⟩]

/-- The owner names the creditor's key as its own next one. -/
def toCreditor : Rotation := rotate ownerKey creditorKey (date 3 3 0)
  0x24d04c9962bfbe88e8478d098e3242ee27d931341be175648aad58f31144b125b58ce923694d161638d4f12efe4c591565b6c4e94c8bee6157bde2f6acb0890e

def digests : Crypto :=
  { Sample.crypto with
    sha256Hex := fun octets ↦
      if octets = Crypto.domainTag Crypto.edgeIdTag ++ Crypto.utf8 (hexText foreignEdge.commitmentHash) ++
          Crypto.utf8 (hexText foreignEdge.owner) ++ Crypto.utf8 (hexText foreignEdge.owedTo) ++
          Crypto.utf8 foreignEdge.proposedAt.text
      then foreignEdge.edgeId else Sample.edge.edgeId }

def adoption : Operation := .ingest creditorKey 0 [.message ⟨.rotation (some toCreditor), ownerKey,
  creditorKey, date 3 3 0,
  0x2af754a879a2811254466a76854a30e7e8b8805e72ab9381a6940c269ade80c698c3a90da68b31e641355ac5f085a89e38da5ab456f5bd3eca6017690697bf0e⟩]

def response : Operation := .recoverResponse creditorKey ⟨[⟨foreignEdge, foreignChain⟩]⟩

def adopted : System :=
  ((creditorNode.perform digests (date 3 1 9) firstProposal).perform digests (date 3 3 0)
    adoption).perform digests (date 3 3 0) response

/-- Who names a stranger's key as its own next one and hands it a promise of its own to another lifts
that other to level 1. -/
theorem stranger_lifted : ¬∀ now sys, Reached digests (fun _ _ _ ↦ True) now sys → ∀ asOf key,
    sys.node.verificationLevel digests asOf creditorKey (some (.persona key)) = .one →
    Earned digests (sys.node.vault creditorKey) creditorKey key := by
  intro h
  have hstart : Reached digests (fun _ _ _ ↦ True) (date 3 1 9) creditorNode := .start fun _ ↦ rfl
  have hreached : Reached digests (fun _ _ _ ↦ True) (date 3 3 0) adopted :=
    ((hstart.perform le_rfl trivial).perform (by decide +kernel) trivial).perform le_rfl trivial
  obtain ⟨edge, hedge, -, before, a, haccepted, hsigner⟩ :=
    h _ _ hreached (date 3 3 0) otherKey (by decide +kernel)
  have hunsigned : ∀ edge ∈ (adopted.node.vault creditorKey).edges.values,
      ∀ a ∈ (adopted.node.vault creditorKey).getAssertions edge.edgeId, a.signer ≠ creditorKey := by
    decide +kernel
  exact hunsigned edge hedge a (haccepted.1.subset (by simp)) hsigner

end Stranger

end Servanda.Continuity
