import Servanda.Inbox

namespace Servanda.RotationHistory

open Transitions Serve

/-- Does a signer who holds these sides still have the one its act was accepted in? -/
def stands (edge : Edge) (o w : Bool) (ctx : ChainState) (a : Assertion) : Bool :=
  match a.state with
  | .proposed => o
  | .confirmed | .released => w
  | .closed =>
    if contests ctx a || ctx.state == .opened then o
    else if ctx.state == .pendingAcceptance then
      w || o && ctx.windowOpenedAt.any fun openedAt ↦ windowElapsed edge openedAt a.assertedAt
    else o || w
  | _ => o || w

variable (crypto : Crypto)

def Steadfast (lineage lineage' : KeyLineage) (edge : Edge) (chain : List Assertion) : Prop :=
  ∀ p a, p ++ [a] <+: chain →
    stands edge (heldBy (lineage' edge.owner) a.signer a.assertedAt)
      (heldBy (lineage' edge.owedTo) a.signer a.assertedAt)
      (context crypto lineage none edge p) a = true

instance (lineage lineage' : KeyLineage) (edge : Edge) (chain : List Assertion) :
    Decidable (Steadfast crypto lineage lineage' edge chain) :=
  decidable_of_iff (∀ i : Fin chain.length,
    stands edge (heldBy (lineage' edge.owner) chain[i].signer chain[i].assertedAt)
      (heldBy (lineage' edge.owedTo) chain[i].signer chain[i].assertedAt)
      (context crypto lineage none edge (chain.take i)) chain[i] = true)
    ⟨fun h _ _ hpre ↦ Replay.forall_prefix (Q := fun p a ↦
        stands edge (heldBy (lineage' edge.owner) a.signer a.assertedAt)
          (heldBy (lineage' edge.owedTo) a.signer a.assertedAt)
          (context crypto lineage none edge p) a = true) h hpre,
      fun h i ↦ h _ _ (by simpa using List.take_prefix (i + 1) chain)⟩

def Replays (s : Subtree) : Prop :=
  ∀ edge ∈ s.edges.values,
    AcceptsAll crypto (partyLineage crypto s) none edge (s.getAssertions edge.edgeId)

/-- From one state of a vault to the next, every stored assertion stays accepted and every edge
keeps its state. -/
def Unrewritten (s s' : Subtree) : Prop :=
  ∀ edge ∈ s.edges.values,
    AcceptsAll crypto (partyLineage crypto s') none edge (s'.getAssertions edge.edgeId) ∧
      finalState crypto (partyLineage crypto s') none edge (s'.getAssertions edge.edgeId) =
        finalState crypto (partyLineage crypto s) none edge (s.getAssertions edge.edgeId)

variable {crypto} {lineage lineage' : KeyLineage} {now : Option Rfc3339} {edge : Edge}
  {ctx ctx' : ChainState} {a : Assertion} {chain : List Assertion}

theorem TableRow.stands {o w : Bool} (h : TableRow edge now o w ctx a ctx')
    (hc : contests ctx a = false) (hparty : o = true ∨ w = true) :
    stands edge o w ctx a = true := by
  have hboth : (o || w) = true := by simpa using hparty
  cases h with
  | proposed ha hs ho => simpa [RotationHistory.stands, ha] using ho
  | confirmed ha hs hw => simpa [RotationHistory.stands, ha] using hw
  | released ha hs hw => simpa [RotationHistory.stands, ha] using hw
  | evidenceCloses ha hs ho | evidenceOpensWindow ha hs ho =>
    simpa [RotationHistory.stands, ha, hs] using ho
  | accepted ha hs hw => simp [RotationHistory.stands, ha, hs, hc, hw]
  | tacit ha hs hw ht he =>
    have ho : o = true := hparty.resolve_right (by simp [hw])
    simp [RotationHistory.stands, ha, hs, hc, ho, ht, he]
  | disputeClosedHalf ha hs | disputeClosed ha hs | contestedClosedHalf ha hs
  | contestedClosed ha hs => simpa [RotationHistory.stands, ha, hs, hc] using hparty
  | disputeExpired ha | expired ha | disputed ha | supersededHalf ha | superseded ha
  | contestedSupersededHalf ha | contestedSuperseded ha | contestedExpired ha =>
    simpa [RotationHistory.stands, ha] using hparty

theorem stands_of_fault {o w : Bool} (hc : contests ctx a = true)
    (h : unilateralExitFault edge a now o w = none) (hparty : o = true ∨ w = true) :
    stands edge o w ctx a = true := by
  unfold unilateralExitFault at h
  cases ha : a.state <;> simp only [ha] at h
  case closed =>
    split_ifs at h with ho
    simpa [stands, ha, hc] using ho
  case released =>
    split_ifs at h with hw
    simpa [stands, ha] using hw
  case expired => simpa [stands, ha] using hparty
  all_goals cases h

theorem party_of_stands {o w : Bool} (h : stands edge o w ctx a = true) : o = true ∨ w = true := by
  by_contra hnone
  obtain ⟨rfl, rfl⟩ : o = false ∧ w = false := by simpa using hnone
  cases ha : a.state <;> simp [stands, ha] at h

theorem TableRow.of_stands {o w o' w' : Bool} (h : TableRow edge now o w ctx a ctx')
    (hc : contests ctx a = false) (hs : RotationHistory.stands edge o' w' ctx a = true) :
    TableRow edge now o' w' ctx a ctx' := by
  have hpending (ha : a.state = .closed) (hs' : ctx.state = .pendingAcceptance) :
      TableRow edge now o' w' ctx a (resolve ctx a .closed) := by
    cases w' with
    | true => exact .accepted ha hs' rfl
    | false =>
      cases ht : ctx.windowOpenedAt with
      | none => simp [RotationHistory.stands, ha, hs', hc, ht] at hs
      | some openedAt =>
        refine .tacit ha hs' rfl ht ?_
        simp only [RotationHistory.stands, ha, hs', hc, ht] at hs
        simpa using (by simpa using hs : o' = true ∧ _).2
  cases h with
  | proposed ha hst => exact .proposed ha hst (by simpa [RotationHistory.stands, ha] using hs)
  | confirmed ha hst => exact .confirmed ha hst (by simpa [RotationHistory.stands, ha] using hs)
  | released ha hst => exact .released ha hst (by simpa [RotationHistory.stands, ha] using hs)
  | evidenceCloses ha hst _ he hp =>
    exact .evidenceCloses ha hst (by simpa [RotationHistory.stands, ha, hst] using hs) he hp
  | evidenceOpensWindow ha hst _ he hp =>
    exact .evidenceOpensWindow ha hst (by simpa [RotationHistory.stands, ha, hst] using hs) he hp
  | accepted ha hst => exact hpending ha hst
  | tacit ha hst => exact hpending ha hst
  | disputeClosedHalf ha hst hn hcard => exact .disputeClosedHalf ha hst hn hcard
  | disputeClosed ha hst hn hcard => exact .disputeClosed ha hst hn hcard
  | disputeExpired ha hst ht he => exact .disputeExpired ha hst ht he
  | expired ha hst hd ht hf => exact .expired ha hst hd ht hf
  | disputed ha hst he => exact .disputed ha hst he
  | supersededHalf ha hst hn hcard => exact .supersededHalf ha hst hn hcard
  | superseded ha hst hn hcard => exact .superseded ha hst hn hcard
  | contestedClosedHalf ha hst hn hcard => exact .contestedClosedHalf ha hst hn hcard
  | contestedClosed ha hst hn hcard => exact .contestedClosed ha hst hn hcard
  | contestedSupersededHalf ha hst hn hcard => exact .contestedSupersededHalf ha hst hn hcard
  | contestedSuperseded ha hst hn hcard => exact .contestedSuperseded ha hst hn hcard
  | contestedExpired ha hst ht he hf => exact .contestedExpired ha hst ht he hf

theorem fault_of_stands {o w o' w' : Bool} (hc : contests ctx a = true)
    (h : unilateralExitFault edge a now o w = none) (hs : stands edge o' w' ctx a = true) :
    unilateralExitFault edge a now o' w' = none := by
  unfold unilateralExitFault at h ⊢
  cases ha : a.state <;> simp only [ha] at h ⊢
  case closed =>
    have ho : o' = true := by simpa [stands, ha, hc] using hs
    split_ifs at h with _ he
    simp [ho, he]
  case released =>
    have hw : w' = true := by simpa [stands, ha] using hs
    simp [hw]
  case expired => exact h
  all_goals cases h

/-- An accepted assertion is accepted under another lineage exactly when it stands there. -/
theorem judge_iff_stands
    (h : judge crypto lineage now edge ctx a = .ok ctx') :
    (∃ ctx', judge crypto lineage' now edge ctx a = .ok ctx') ↔
      stands edge (heldBy (lineage' edge.owner) a.signer a.assertedAt)
        (heldBy (lineage' edge.owedTo) a.signer a.assertedAt) ctx a = true := by
  obtain ⟨hb, ⟨hid, hsig, -, hopen⟩, next, hrow, -⟩ := judge_ok_iff.mp h
  constructor
  · intro ⟨ctx'', h'⟩
    obtain ⟨-, hstanding, next', hrow', -⟩ := judge_ok_iff.mp h'
    cases hrow' with
    | contest hc hf => exact stands_of_fault hc hf hstanding.party
    | table hc hrow' => exact TableRow.stands hrow' hc hstanding.party
  · intro hs
    refine ⟨record next a, judge_ok_iff.mpr ⟨hb, ⟨hid, hsig, party_of_stands hs, hopen⟩, next, ?_, rfl⟩⟩
    cases hrow with
    | contest hc hf => exact .contest hc (fault_of_stands hc hf hs)
    | table hc hrow => exact .table hc (TableRow.of_stands hrow hc hs)

theorem judge_agree : Replay.Agree (judge crypto lineage now edge)
    (judge crypto lineage' now edge) := by
  intro ctx a t t' h h'
  have hall (L : KeyLineage) {u : ChainState} (hu : judge crypto L now edge ctx a = .ok u) :
      judge crypto (fun _ ↦ [⟨a.signer, none⟩]) now edge ctx a = .ok u :=
    judge_transfer hu (fun _ ↦ by simp [heldBy]) (fun _ ↦ by simp [heldBy]) id
  have heq := (hall _ h).symm.trans (hall _ h')
  exact (Except.ok.inj heq).symm

/-- A replayed chain replays under another lineage exactly when it is steadfast, and then it ends
in the same state. -/
theorem acceptsAll_iff_steadfast (h : AcceptsAll crypto lineage none edge chain) :
    (AcceptsAll crypto lineage' none edge chain ∧
      finalState crypto lineage' none edge chain = finalState crypto lineage none edge chain) ↔
      Steadfast crypto lineage lineage' edge chain := by
  cases hm : edgeMalformed crypto edge with
  | some reason =>
    obtain rfl : chain = [] := by
      cases chain with
      | nil => rfl
      | cons a chain =>
        have hhead := h (outcome 0 (some reason)) (by simp [verifyAssertionChain, hm])
        cases hhead
    refine iff_of_true ⟨fun o ho ↦ ?_, ?_⟩ fun p a hpre ↦ ?_
    · simp [verifyAssertionChain, hm] at ho
    · rw [finalState_malformed hm, finalState_malformed hm]
    · exact absurd (List.prefix_nil.mp hpre) (by simp)
  | none =>
    have hpath := (acceptsAll_iff hm).mp h
    have hagree : Replay.Agree (judge crypto lineage none edge) (judge crypto lineage' none edge) :=
      judge_agree
    have hiff := Replay.path_iff_of_agree hagree (fun _ _ _ hj ↦ judge_iff_stands hj) hpath
    rw [acceptsAll_iff hm, finalState_eq hm, finalState_eq hm]
    refine Iff.trans ⟨fun h' ↦ ⟨_, h'.1⟩, ?_⟩ hiff
    intro h
    obtain ⟨ctx, hctx⟩ := h
    have heq := hagree.final_eq hpath hctx
    rw [context, hctx.final_eq]
    exact ⟨hctx, by rw [heq]⟩

variable {inbox : Inbox} {sender : PublicKeyHex} {rotation : Rotation} {result : IngestResult}

/-- A rotation the inbox accepts leaves history as it was exactly when every stored assertion still
stands under the lineages that the statements give with it. -/
theorem unrewritten_iff_steadfast (hstored : Replays crypto inbox.vault)
    (haccepted : (inbox.ingestRotation crypto sender (some rotation) result).2 =
      result.accept .rotation none) :
    Unrewritten crypto inbox.vault
        (inbox.ingestRotation crypto sender (some rotation) result).1.vault ↔
      ∀ edge ∈ inbox.vault.edges.values,
        Steadfast crypto (partyLineage crypto inbox.vault)
          (partyLineage crypto (inbox.vault.putRotation rotation)) edge
          (inbox.vault.getAssertions edge.edgeId) := by
  rcases @Inbox.ingestRotation_cases crypto inbox sender (some rotation) result with
    ⟨reason, h⟩ | ⟨r, hr, -, -, -, h⟩
  · rw [h] at haccepted
    have hlist := congrArg IngestResult.accepted haccepted
    simp [IngestResult.discard, IngestResult.accept] at hlist
  · cases hr
    rw [h]
    apply forall₂_congr
    intro edge hedge
    exact acceptsAll_iff_steadfast (hstored edge hedge)

section Backdated

open Sample

def creditorInbox : Inbox where
  persona := creditorKey
  vault :=
    { Subtree.empty with
      edges := Directory.empty.put Sample.edge
      files := fun id ↦ if id = Sample.edge.edgeId then [proposal, confirmation] else [] }
  budget := none
  level _ _ := .zero

theorem creditorInbox_replays : Replays Sample.crypto creditorInbox.vault := by
  intro edge hedge
  obtain rfl : edge = Sample.edge := List.mem_singleton.mp hedge
  decide +kernel

theorem rotation_keeps_history : Unrewritten Sample.crypto creditorInbox.vault
    (creditorInbox.ingestRotation Sample.crypto ownerKey (some ownerRotation) .empty).1.vault := by
  refine (unrewritten_iff_steadfast creditorInbox_replays (by rfl)).mpr fun edge hedge ↦ ?_
  obtain rfl : edge = Sample.edge := List.mem_singleton.mp hedge
  decide +kernel

def backdatedRotation : Rotation := rotate ownerKey nextKey (date 2 1 0)
  0x5bd838905e0fcda1b70b6066a56223df3dc55d3cf600651fd828ecf645ddfd74a101eac25b006c0f8e626f3762d4527bb628b8a1b719745beb149c4d12f4e205

/-- The owner dates a rotation before the proposal: the confirmed promise is gone. -/
theorem backdated_rotation_rewrites : Replays Sample.crypto creditorInbox.vault ∧
    (creditorInbox.ingestRotation Sample.crypto ownerKey (some backdatedRotation) .empty).2 =
      IngestResult.empty.accept .rotation none ∧
    ¬Unrewritten Sample.crypto creditorInbox.vault
      (creditorInbox.ingestRotation Sample.crypto ownerKey (some backdatedRotation) .empty).1.vault := by
  refine ⟨creditorInbox_replays, by rfl, fun h ↦ ?_⟩
  exact absurd (h Sample.edge (by decide +kernel)).1 (by decide +kernel)

end Backdated

end Servanda.RotationHistory
