import Servanda.Recon

namespace Servanda.Detection

open Transitions Serve Recon

structure Holder (edge : Edge) where
  subtree : Subtree
  held : subtree.getEdge edge.edgeId = some edge
  unrotated : subtree.listRotations = []

namespace Holder

variable {edge : Edge} (crypto : Crypto) (node : Holder edge)

def chain : List Assertion := node.subtree.getAssertions edge.edgeId

def state : EffectiveState := finalState crypto noRotations none edge node.chain

def Asks : Prop := node.state crypto ∈ openFamily

instance : Decidable (node.Asks crypto) := inferInstanceAs (Decidable (_ ∈ _))

end Holder

variable (crypto : Crypto) {edge : Edge}

/-- The answer of one party's node to the request of the other's. -/
def answer (responder requester : Holder edge) (now : Rfc3339) (persona counterparty : PublicKeyHex) :
    ReconResponse :=
  answerReconRequest crypto responder.subtree now persona
    (buildReconRequest crypto requester.subtree persona counterparty)

def SameSet (A B : Holder edge) : Prop := ∀ a, a ∈ A.chain ↔ a ∈ B.chain

def SameTerminal (A B : Holder edge) : Prop :=
  A.state crypto = B.state crypto ∧ A.state crypto ∈ terminalStates

/-- One of the two answers carries the responder's chain when the stored sets differ, short of a
common end, and neither mentions the edge when they do not. `A` is the owner's node and answers at
`m`, `B` the creditor's and answers at `n`. -/
structure Detects (A B : Holder edge) (m n : Rfc3339) : Prop where
  divergence : ¬SameSet A B → ¬SameTerminal crypto A B →
    ⟨edge.edgeId, B.chain⟩ ∈ (answer crypto B A n edge.owner edge.owedTo).edges ∨
      ⟨edge.edgeId, A.chain⟩ ∈ (answer crypto A B m edge.owedTo edge.owner).edges
  agreement : SameSet A B → ∀ chain,
    ⟨edge.edgeId, chain⟩ ∉ (answer crypto B A n edge.owner edge.owedTo).edges ∧
      ⟨edge.edgeId, chain⟩ ∉ (answer crypto A B m edge.owedTo edge.owner).edges

/-- A node asks whenever the sets differ, and none asks about a set one of them repeats itself in. -/
structure Askable (A B : Holder edge) : Prop where
  divergence : ¬SameSet A B → ¬SameTerminal crypto A B → A.Asks crypto ∨ B.Asks crypto
  agreement : SameSet A B → A.chain.Perm B.chain ∨ ¬A.Asks crypto ∧ ¬B.Asks crypto

def sortedSigs (chain : List Assertion) : List SignatureHex :=
  (chain.map (·.sig)).insertionSort (· ≤ ·)

/-- No collision of the digest among the two chains, and no chain with the digest of none. -/
structure CollisionFree (A B : List Assertion) : Prop where
  distinct : crypto.hashCanonical (.chainDigest (sortedSigs A)) =
    crypto.hashCanonical (.chainDigest (sortedSigs B)) → sortedSigs A = sortedSigs B
  nonzero : ∀ l ∈ [A, B], crypto.hashCanonical (.chainDigest (sortedSigs l)) ≠ emptyChainHash

/-- A signature stands for one assertion. -/
def DistinctSigs (A B : List Assertion) : Prop :=
  ∀ a ∈ A ++ B, ∀ b ∈ A ++ B, a.sig = b.sig → a = b

variable {crypto} {A B : List Assertion}

theorem sortedSigs_eq_iff : sortedSigs A = sortedSigs B ↔ (A.map (·.sig)).Perm (B.map (·.sig)) := by
  have hperm (l : List Assertion) : (sortedSigs l).Perm (l.map (·.sig)) :=
    List.perm_insertionSort _ _
  have hsorted (l : List Assertion) : (sortedSigs l).Pairwise (· ≤ ·) :=
    List.pairwise_insertionSort _ _
  constructor
  · intro h
    exact ((hperm A).symm.trans (by rw [h])).trans (hperm B)
  · intro h
    exact (((hperm A).trans h).trans (hperm B).symm).eq_of_pairwise' (hsorted A) (hsorted B)

theorem perm_of_sigs (hsig : DistinctSigs A B) (h : (A.map (·.sig)).Perm (B.map (·.sig))) :
    A.Perm B := by
  have hfind (l : List Assertion) (hl : l ⊆ A ++ B) :
      (l.map (·.sig)).map (fun s ↦ (A ++ B).find? fun a ↦ a.sig = s) = l.map some := by
    rw [List.map_map]
    apply List.map_congr_left
    intro a ha
    cases hget : (A ++ B).find? (fun b ↦ b.sig = a.sig) with
    | none => simpa using List.find?_eq_none.mp hget a (hl ha)
    | some b =>
      have hb : b.sig = a.sig := by simpa using List.find?_some hget
      rw [Function.comp_apply, hget, hsig b (List.mem_of_find?_eq_some hget) a (hl ha) hb]
  have hsome := h.map fun s ↦ (A ++ B).find? fun a ↦ a.sig = s
  rw [hfind A (by simp), hfind B (by simp)] at hsome
  exact (List.map_perm_map_iff (Option.some_injective _)).mp hsome

/-- The digest tells two chains apart exactly when one is no rearrangement of the other. -/
theorem latestAssertionHash_eq_iff (hc : CollisionFree crypto A B) (hsig : DistinctSigs A B) :
    latestAssertionHash crypto A = latestAssertionHash crypto B ↔ A.Perm B := by
  constructor
  · intro h
    simp only [latestAssertionHash, List.length_eq_zero_iff] at h
    split_ifs at h with hA hB hB
    · rw [hA, hB]
    · exact absurd h.symm (hc.nonzero B (by simp))
    · exact absurd h (hc.nonzero A (by simp))
    · exact perm_of_sigs hsig (sortedSigs_eq_iff.mp (hc.distinct h))
  · intro h
    have hsorted : (A.map (·.sig)).insertionSort (· ≤ ·) = (B.map (·.sig)).insertionSort (· ≤ ·) :=
      sortedSigs_eq_iff.mpr (h.map _)
    rw [latestAssertionHash, latestAssertionHash, h.length_eq, hsorted]

variable {persona counterparty : PublicKeyHex} {now : Rfc3339}

theorem mem_sharedOpenEdges (node : Holder edge) (hp : isParty edge persona = true)
    (hc : isParty edge counterparty = true) {other : Edge} (hid : other.edgeId = edge.edgeId) :
    other ∈ sharedOpenEdges crypto node.subtree persona counterparty ↔
      other = edge ∧ node.Asks crypto := by
  have hmem := Directory.get?_eq_some_iff.mp node.held
  simp only [sharedOpenEdges, List.mem_filterMap, Subtree.listEdgeIds, List.mem_map]
  constructor
  · rintro ⟨id, ⟨stored, hstored, rfl⟩, h⟩
    rw [show node.subtree.getEdge stored.edgeId = some stored from
      Directory.get?_eq_some_iff.mpr ⟨hstored, rfl⟩] at h
    simp only at h
    split_ifs at h with hparty hopen
    cases h
    obtain rfl : other = edge := Directory.name_injOn hstored hmem.1 hid
    rw [partyLineage_eq_noRotations node.unrotated] at hopen
    exact ⟨rfl, List.contains_iff_mem.mp hopen⟩
  · rintro ⟨rfl, hasks⟩
    refine ⟨other.edgeId, ⟨other, hmem.1, rfl⟩, ?_⟩
    have hopen : openFamily.contains (verifyAssertionChain crypto noRotations none other
        (node.subtree.getAssertions other.edgeId)).finalState = true :=
      List.contains_iff_mem.mpr hasks
    rw [node.held, partyLineage_eq_noRotations node.unrotated]
    simp only [isPartyOrSuccessor_of_isParty hp, isPartyOrSuccessor_of_isParty hc, hopen,
      Bool.not_true, Bool.or_self, Bool.false_eq_true, if_false, if_true]

theorem mem_answer (responder requester : Holder edge) (hp : isParty edge persona = true)
    (hc : isParty edge counterparty = true) {chain : List Assertion} :
    ⟨edge.edgeId, chain⟩ ∈ (answer crypto responder requester now persona counterparty).edges ↔
      chain = responder.chain ∧ requester.Asks crypto ∧
        latestAssertionHash crypto responder.chain ≠ latestAssertionHash crypto requester.chain := by
  have hserved : mayServeEdge crypto responder.subtree now persona edge = .party := by
    simp [mayServeEdge, isPartyOrSuccessor_of_isParty hp]
  simp only [answer, answerReconRequest, buildReconRequest, List.filterMap_map,
    List.mem_filterMap, Function.comp_apply]
  constructor
  · intro ⟨other, hother, h⟩
    cases hget : responder.subtree.getEdge other.edgeId with
    | none => simp [hget] at h
    | some stored =>
      simp only [hget] at h
      split_ifs at h with hrefused hhash
      simp only [Option.some.injEq, ReconEntry.mk.injEq] at h
      obtain ⟨hid, rfl⟩ := h
      obtain ⟨rfl, hasks⟩ := (mem_sharedOpenEdges requester hp hc hid).mp hother
      exact ⟨rfl, hasks, hhash⟩
  · rintro ⟨rfl, hasks, hhash⟩
    refine ⟨edge, (mem_sharedOpenEdges requester hp hc rfl).mpr ⟨rfl, hasks⟩, ?_⟩
    have hhash' : ¬latestAssertionHash crypto (responder.subtree.getAssertions edge.edgeId) =
        latestAssertionHash crypto (requester.subtree.getAssertions edge.edgeId) := hhash
    rw [responder.held]
    simp only [hserved, reduceCtorEq, if_false, if_neg hhash', Holder.chain]

variable {A B : Holder edge} {m n : Rfc3339}

theorem detects_iff_askable (hc : CollisionFree crypto A.chain B.chain)
    (hsig : DistinctSigs A.chain B.chain) :
    Detects crypto A B m n ↔ Askable crypto A B := by
  have howner : isParty edge edge.owner = true := by simp [isParty]
  have howedTo : isParty edge edge.owedTo = true := by simp [isParty]
  have hBA {chain : List Assertion} :
      ⟨edge.edgeId, chain⟩ ∈ (answer crypto B A n edge.owner edge.owedTo).edges ↔
        chain = B.chain ∧ A.Asks crypto ∧ ¬A.chain.Perm B.chain := by
    rw [mem_answer B A howner howedTo, ne_comm, ne_eq, latestAssertionHash_eq_iff hc hsig]
  have hAB {chain : List Assertion} :
      ⟨edge.edgeId, chain⟩ ∈ (answer crypto A B m edge.owedTo edge.owner).edges ↔
        chain = A.chain ∧ B.Asks crypto ∧ ¬A.chain.Perm B.chain := by
    rw [mem_answer A B howedTo howner, ne_eq, latestAssertionHash_eq_iff hc hsig]
  have hset (h : ¬SameSet A B) : ¬A.chain.Perm B.chain := fun hp ↦ h fun a ↦ hp.mem_iff
  constructor
  · intro h
    refine ⟨fun hs ht ↦ ?_, fun hs ↦ ?_⟩
    · exact (h.divergence hs ht).imp (fun h ↦ (hBA.mp h).2.1) fun h ↦ (hAB.mp h).2.1
    · by_cases hp : A.chain.Perm B.chain
      · exact .inl hp
      · refine .inr ⟨fun hA ↦ ?_, fun hB ↦ ?_⟩
        · exact (h.agreement hs B.chain).1 (hBA.mpr ⟨rfl, hA, hp⟩)
        · exact (h.agreement hs A.chain).2 (hAB.mpr ⟨rfl, hB, hp⟩)
  · intro h
    refine ⟨fun hs ht ↦ ?_, fun hs chain ↦ ⟨fun hmem ↦ ?_, fun hmem ↦ ?_⟩⟩
    · exact (h.divergence hs ht).imp (fun hA ↦ hBA.mpr ⟨rfl, hA, hset hs⟩)
        fun hB ↦ hAB.mpr ⟨rfl, hB, hset hs⟩
    · obtain ⟨-, hasks, hperm⟩ := hBA.mp hmem
      exact (h.agreement hs).elim hperm fun h ↦ h.1 hasks
    · obtain ⟨-, hasks, hperm⟩ := hAB.mp hmem
      exact (h.agreement hs).elim hperm fun h ↦ h.2 hasks

section Unasked

open Sample

def node (chain : List Assertion) : Holder Sample.edge where
  subtree :=
    { Subtree.empty with
      edges := Directory.empty.put Sample.edge
      files := fun id ↦ if id = Sample.edge.edgeId then chain else [] }
  held := rfl
  unrotated := rfl

def digests : Crypto :=
  { Sample.crypto with
    canonicalBytes := fun
      | .chainDigest sigs => [UInt8.ofNat sigs.length]
      | _ => []
    sha256Hex := fun
      | [1] => 0xa9c0fb959ffdb591fc860c8d80acb76ce99cdf8761d9fce5b45888af318d271a
      | [2] => 0xd1a47e2a77eef2924ecf25c76d0de9b6aa166fe868f0fc5fe0dc9d90c0740f78
      | [4] => 0x12cdc44d2c9547256cabcefbe6c002b09b8a1ea965c81f31c23647c865f324d3
      | [5] => 0x1dd2ddb9c65a61ee8ef9bbc95713bc8d475f2ecd818cd8d1eeb8b9b29427e0a6
      | _ => Sample.edge.edgeId }

theorem confirmation_asked_for :
    Detects digests (node [proposal]) (node [proposal, confirmation]) (date 3 1 11) (date 3 1 11) := by
  have hc : CollisionFree digests (node [proposal]).chain (node [proposal, confirmation]).chain :=
    ⟨fun h ↦ absurd h (by decide +kernel), by decide +kernel⟩
  have hsig : DistinctSigs (node [proposal]).chain (node [proposal, confirmation]).chain := by
    unfold DistinctSigs
    decide +kernel
  refine (detects_iff_askable hc hsig).mpr ⟨fun _ _ ↦ .inl (by decide +kernel), fun h ↦ ?_⟩
  exact absurd ((h confirmation).mpr (by decide +kernel)) (by decide +kernel)

def release : Assertion := act .released creditorKey (date 3 2 9) none
  0x7ff82b0e654a63f291ff88fb65cbaf1f65992dd5b2c954708d4a8f05847e7b34ecf17deb9a0dc1c538933e88b3e5227386bfde83582626f35bf70269d3a2a90c

def supersession : Assertion := act .superseded creditorKey (date 3 3 1) none
  0xb633bb5f0e773ec40b8c754f4b0c0d3a987acbdaa6e78ff64473cd5b814edb0fe899be7afad380bc33ec093e1ccb3778251db42490c0aa36387dceefb0bd2e07

def contestedChain : List Assertion := [proposal, confirmation, closure, release]

/-- Both parties left `open`, and the creditor's supersession never reached the owner: neither node
asks about a contested closure. -/
theorem contested_closure_unasked :
    AcceptsAll digests noRotations (some (date 3 3 2)) Sample.edge (node contestedChain).chain ∧
      AcceptsAll digests noRotations (some (date 3 3 2)) Sample.edge
        (node (contestedChain ++ [supersession])).chain ∧
      CollisionFree digests (node contestedChain).chain
        (node (contestedChain ++ [supersession])).chain ∧
      DistinctSigs (node contestedChain).chain (node (contestedChain ++ [supersession])).chain ∧
      ¬Detects digests (node contestedChain) (node (contestedChain ++ [supersession]))
        (date 3 3 2) (date 3 3 2) := by
  refine ⟨by decide +kernel, by decide +kernel,
    ⟨fun h ↦ absurd h (by decide +kernel), by decide +kernel⟩, ?_, fun h ↦ ?_⟩
  · unfold DistinctSigs
    decide +kernel
  have hset : ¬SameSet (node contestedChain) (node (contestedChain ++ [supersession])) := fun h ↦
    absurd ((h supersession).mpr (by decide +kernel)) (by decide +kernel)
  have hterminal : ¬SameTerminal digests (node contestedChain)
      (node (contestedChain ++ [supersession])) := fun h ↦ absurd h.2 (by decide +kernel)
  rcases h.divergence hset hterminal with h | h
  · exact absurd ((mem_answer _ _ (by decide) (by decide)).mp h).2.1 (by decide +kernel)
  · exact absurd ((mem_answer _ _ (by decide) (by decide)).mp h).2.1 (by decide +kernel)

end Unasked

end Servanda.Detection
