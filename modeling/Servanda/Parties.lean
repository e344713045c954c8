import Servanda.Chains

namespace Servanda.Parties

open Transitions

variable (crypto : Crypto) (keyLineage : KeyLineage) (now : Option Rfc3339) (edge : Edge)

def OfParty (party key : PublicKeyHex) : Prop := ∃ k ∈ keyLineage party, k.key = key

/-- Somewhere in the chain an assertion of the state is accepted from a key of the party. -/
def AssertedBy (chain : List Assertion) (state : WireAssertionState) (party : PublicKeyHex) :
    Prop :=
  ∃ before a, AcceptedAt crypto keyLineage now edge chain before a ∧ a.state = state ∧
    OfParty keyLineage party a.signer

def BothParties (chain : List Assertion) (state : WireAssertionState) : Prop :=
  AssertedBy crypto keyLineage now edge chain state edge.owner ∧
    AssertedBy crypto keyLineage now edge chain state edge.owedTo

def DifferentParties (k l : PublicKeyHex) : Prop :=
  OfParty keyLineage edge.owner k ∧ OfParty keyLineage edge.owedTo l ∨
    OfParty keyLineage edge.owedTo k ∧ OfParty keyLineage edge.owner l

/-- Where the table asks for both parties, two people have signed. -/
structure TwoPeople (chain : List Assertion) : Prop where
  superseded : finalState crypto keyLineage now edge chain = .superseded →
    BothParties crypto keyLineage now edge chain .superseded
  closed : ∀ p x, AcceptedAt crypto keyLineage now edge chain p x →
    finalState crypto keyLineage now edge p = .disputed ∨
      finalState crypto keyLineage now edge p = .contestedClosure →
    finalState crypto keyLineage now edge (p ++ [x]) = .closed →
    BothParties crypto keyLineage now edge (p ++ [x]) .closed
  contested : ∀ p x, AcceptedAt crypto keyLineage now edge chain p x →
    finalState crypto keyLineage now edge p ≠ .contestedClosure →
    finalState crypto keyLineage now edge (p ++ [x]) = .contestedClosure →
    x.state ∈ unilateralExits ∧ ∃ q y, AcceptedAt crypto keyLineage now edge p q y ∧
      y.state ∈ unilateralExits ∧ DifferentParties keyLineage edge y.signer x.signer

/-- The keys that already count towards what an assertion would complete. -/
def counted (ctx : ChainState) (a : Assertion) : Finset PublicKeyHex :=
  if contests ctx a then ctx.exit.elim ∅ fun e ↦ {e.signer}
  else match ctx.state, a.state with
    | .disputed, .closed => ctx.disputeClosedBy
    | .contestedClosure, .closed => ctx.contestClosedBy
    | .contestedClosure, .superseded => ctx.contestSupersededBy
    | _, .superseded => ctx.supersededBy
    | _, _ => ∅

/-- Another key of the signer's own party already counts. -/
def SecondKey (ctx : ChainState) (a : Assertion) : Prop :=
  ∃ k ∈ counted ctx a, k ≠ a.signer ∧
    (OfParty keyLineage edge.owner k ∧ OfParty keyLineage edge.owner a.signer ∨
      OfParty keyLineage edge.owedTo k ∧ OfParty keyLineage edge.owedTo a.signer)

instance (party key : PublicKeyHex) : Decidable (OfParty keyLineage party key) :=
  inferInstanceAs (Decidable (∃ k ∈ keyLineage party, k.key = key))

instance (ctx : ChainState) (a : Assertion) : Decidable (SecondKey keyLineage edge ctx a) :=
  Finset.decidableExistsAndFinset

def Counts (chain : List Assertion) (state : WireAssertionState) (key : PublicKeyHex) : Prop :=
  (OfParty keyLineage edge.owner key ∨ OfParty keyLineage edge.owedTo key) ∧
    ∃ before a, AcceptedAt crypto keyLineage now edge chain before a ∧ a.state = state ∧
      a.signer = key

/-- Every key the context counts has signed what it is counted for. -/
structure Counted (chain : List Assertion) (ctx : ChainState) : Prop where
  supersededBy : ∀ k ∈ ctx.supersededBy, Counts crypto keyLineage now edge chain .superseded k
  disputeClosedBy : ∀ k ∈ ctx.disputeClosedBy, Counts crypto keyLineage now edge chain .closed k
  contestClosedBy : ∀ k ∈ ctx.contestClosedBy, Counts crypto keyLineage now edge chain .closed k
  contestSupersededBy : ∀ k ∈ ctx.contestSupersededBy,
    Counts crypto keyLineage now edge chain .superseded k
  exit : ∀ e, ctx.exit = some e →
    e.state ∈ unilateralExits ∧ Counts crypto keyLineage now edge chain e.state e.signer

variable {crypto keyLineage now edge} {chain : List Assertion} {ctx ctx' : ChainState}
  {a : Assertion}

theorem ofParty_of_heldBy {party signer : PublicKeyHex} {instant : Rfc3339}
    (h : heldBy (keyLineage party) signer instant = true) : OfParty keyLineage party signer := by
  obtain ⟨e, he, hkey, -⟩ := entry_of_heldBy h
  exact ⟨e, he, hkey⟩

theorem Counts.mono {state : WireAssertionState} {key : PublicKeyHex}
    (h : Counts crypto keyLineage now edge chain state key) (a : Assertion) :
    Counts crypto keyLineage now edge (chain ++ [a]) state key := by
  obtain ⟨hk, p, x, hx, hr⟩ := h
  exact ⟨hk, p, x, hx.mono (List.prefix_append _ _), hr⟩

theorem Counted.mono (h : Counted crypto keyLineage now edge chain ctx) (a : Assertion) :
    Counted crypto keyLineage now edge (chain ++ [a]) ctx where
  supersededBy k hk := (h.supersededBy k hk).mono a
  disputeClosedBy k hk := (h.disputeClosedBy k hk).mono a
  contestClosedBy k hk := (h.contestClosedBy k hk).mono a
  contestSupersededBy k hk := (h.contestSupersededBy k hk).mono a
  exit e he := ⟨(h.exit e he).1, (h.exit e he).2.mono a⟩

theorem Counted.row {next : ChainState} {o w : Bool}
    (h : Counted crypto keyLineage now edge (chain ++ [a]) ctx)
    (ha : Counts crypto keyLineage now edge (chain ++ [a]) a.state a.signer)
    (hrow : TableRow edge now o w ctx a next) :
    Counted crypto keyLineage now edge (chain ++ [a]) next := by
  have hinsert {state : WireAssertionState} {keys : Finset PublicKeyHex} (hs : a.state = state)
      (hkeys : ∀ k ∈ keys, Counts crypto keyLineage now edge (chain ++ [a]) state k) :
      ∀ k ∈ insert a.signer keys, Counts crypto keyLineage now edge (chain ++ [a]) state k := by
    intro k hk
    rcases Finset.mem_insert.mp hk with rfl | hk
    · exact hs ▸ ha
    · exact hkeys k hk
  cases hrow with
  | disputeClosedHalf hs | disputeClosed hs =>
    exact { h with disputeClosedBy := hinsert hs h.disputeClosedBy }
  | supersededHalf hs | superseded hs =>
    exact { h with supersededBy := hinsert hs h.supersededBy }
  | contestedClosedHalf hs | contestedClosed hs =>
    exact { h with contestClosedBy := hinsert hs h.contestClosedBy }
  | contestedSupersededHalf hs | contestedSuperseded hs =>
    exact { h with contestSupersededBy := hinsert hs h.contestSupersededBy }
  | evidenceCloses hs | evidenceOpensWindow hs | released hs | expired hs =>
    refine { h with exit := fun e he ↦ ?_ }
    cases he
    exact ⟨by simp [unilateralExits], hs ▸ ha⟩
  | _ => exact { h with }

theorem counts_last (hedge : edgeMalformed crypto edge = none)
    (hj : judge crypto keyLineage now edge (context crypto keyLineage now edge chain) a = .ok ctx') :
    Counts crypto keyLineage now edge (chain ++ [a]) a.state a.signer := by
  obtain ⟨-, hstand, -⟩ := judge_ok_iff.mp hj
  exact ⟨hstand.party.imp ofParty_of_heldBy ofParty_of_heldBy, chain, a,
    acceptedAt_iff.mpr ⟨hedge, List.prefix_rfl, ctx', hj⟩, rfl, rfl⟩

theorem Counted.run (hedge : edgeMalformed crypto edge = none) (chain : List Assertion) :
    Counted crypto keyLineage now edge chain (context crypto keyLineage now edge chain) := by
  induction chain using List.reverseRecOn with
  | nil =>
    constructor
    · exact fun k hk ↦ absurd hk (Finset.notMem_empty k)
    · exact fun k hk ↦ absurd hk (Finset.notMem_empty k)
    · exact fun k hk ↦ absurd hk (Finset.notMem_empty k)
    · exact fun k hk ↦ absurd hk (Finset.notMem_empty k)
    · intro e he
      cases he
  | append_singleton chain a ih =>
    have hm := ih.mono a
    cases hj : judge crypto keyLineage now edge (context crypto keyLineage now edge chain) a with
    | error reason => rwa [context_snoc_error hj]
    | ok ctx' =>
      rw [context_snoc_ok hj]
      have ha := counts_last hedge hj
      obtain ⟨-, -, next, hrow, rfl⟩ := judge_ok_iff.mp hj
      have hnext : Counted crypto keyLineage now edge (chain ++ [a]) next := by
        cases hrow with
        | contest => exact { hm with }
        | table _ hrow => exact hm.row ha hrow
      exact { hnext with }

theorem differentParties {k l : PublicKeyHex}
    (hk : OfParty keyLineage edge.owner k ∨ OfParty keyLineage edge.owedTo k)
    (hl : OfParty keyLineage edge.owner l ∨ OfParty keyLineage edge.owedTo l)
    (h : ¬(OfParty keyLineage edge.owner k ∧ OfParty keyLineage edge.owner l ∨
      OfParty keyLineage edge.owedTo k ∧ OfParty keyLineage edge.owedTo l)) :
    DifferentParties keyLineage edge k l := by
  rw [not_or, not_and, not_and] at h
  rcases hk with hk | hk
  · exact .inl ⟨hk, hl.resolve_left (h.1 hk)⟩
  · exact .inr ⟨hk, hl.resolve_right (h.2 hk)⟩

theorem bothParties_of_completed {state : WireAssertionState} {keys : Finset PublicKeyHex}
    (hkeys : ∀ k ∈ keys, Counts crypto keyLineage now edge (chain ++ [a]) state k)
    (ha : Counts crypto keyLineage now edge (chain ++ [a]) state a.signer)
    (hnew : a.signer ∉ keys) (hcard : (insert a.signer keys).card = 2)
    (hfirst : ∀ k ∈ keys, k ≠ a.signer →
      ¬(OfParty keyLineage edge.owner k ∧ OfParty keyLineage edge.owner a.signer ∨
        OfParty keyLineage edge.owedTo k ∧ OfParty keyLineage edge.owedTo a.signer)) :
    BothParties crypto keyLineage now edge (chain ++ [a]) state := by
  rw [Finset.card_insert_of_notMem hnew] at hcard
  obtain ⟨k, rfl⟩ := Finset.card_eq_one.mp (Nat.succ_injective hcard)
  have hk := hkeys k (Finset.mem_singleton_self k)
  have hne : k ≠ a.signer := fun heq ↦ hnew (by simp [heq])
  have hdiff := differentParties hk.1 ha.1 (hfirst k (Finset.mem_singleton_self k) hne)
  obtain ⟨-, p, x, hx, hxs, rfl⟩ := hk
  obtain ⟨-, q, y, hy, hys, hya⟩ := ha
  rw [← hya] at hdiff
  rcases hdiff with ⟨ho, hw⟩ | ⟨hw, ho⟩
  · exact ⟨⟨p, x, hx, hxs, ho⟩, ⟨q, y, hy, hys, hw⟩⟩
  · exact ⟨⟨q, y, hy, hys, ho⟩, ⟨p, x, hx, hxs, hw⟩⟩

theorem AssertedBy.mono {chain' : List Assertion} {state : WireAssertionState}
    {party : PublicKeyHex} (h : AssertedBy crypto keyLineage now edge chain state party)
    (hpre : chain <+: chain') : AssertedBy crypto keyLineage now edge chain' state party := by
  obtain ⟨p, x, hx, hr⟩ := h
  exact ⟨p, x, hx.mono hpre, hr⟩

/-- What one accepted step into a state for two says, when no second key of a party signs it. -/
theorem both_of_step (hedge : edgeMalformed crypto edge = none)
    (hj : judge crypto keyLineage now edge (context crypto keyLineage now edge chain) a = .ok ctx')
    (hkey : ¬SecondKey keyLineage edge (context crypto keyLineage now edge chain) a) :
    (((context crypto keyLineage now edge chain).state = .disputed ∨
        (context crypto keyLineage now edge chain).state = .contestedClosure) →
      ctx'.state = .closed → BothParties crypto keyLineage now edge (chain ++ [a]) .closed) ∧
    ((context crypto keyLineage now edge chain).state ≠ .superseded → ctx'.state = .superseded →
      BothParties crypto keyLineage now edge (chain ++ [a]) .superseded) := by
  have hcounted : Counted crypto keyLineage now edge (chain ++ [a]) _ :=
    (Counted.run hedge chain).mono a
  have ha := counts_last hedge hj
  obtain ⟨-, -, next, hrow, rfl⟩ := judge_ok_iff.mp hj
  cases hrow with
  | contest =>
    refine ⟨fun _ hs ↦ ?_, fun _ hs ↦ ?_⟩ <;> cases hs
  | table hc hrow =>
    have hfirst {keys : Finset PublicKeyHex}
        (hkeys : counted (context crypto keyLineage now edge chain) a = keys) : ∀ k ∈ keys,
        k ≠ a.signer → ¬(OfParty keyLineage edge.owner k ∧ OfParty keyLineage edge.owner a.signer ∨
          OfParty keyLineage edge.owedTo k ∧ OfParty keyLineage edge.owedTo a.signer) :=
      fun k hk hne hsame ↦ hkey ⟨k, hkeys ▸ hk, hne, hsame⟩
    refine ⟨fun hdead hclosed ↦ ?_, fun hne hsup ↦ ?_⟩
    · cases hrow with
      | disputeClosed hs hd hn hcard =>
        exact bothParties_of_completed hcounted.disputeClosedBy (hs ▸ ha) hn hcard
          (hfirst (by simp [counted, hc, hd, hs]))
      | contestedClosed hs hd hn hcard =>
        exact bothParties_of_completed hcounted.contestClosedBy (hs ▸ ha) hn hcard
          (hfirst (by simp [counted, hc, hd, hs]))
      | evidenceCloses _ hs | accepted _ hs | tacit _ hs => simp [hs] at hdead
      | disputeClosedHalf _ hs | contestedClosedHalf _ hs | contestedSupersededHalf _ hs =>
        exact absurd (hs.symm.trans hclosed) (by decide)
      | supersededHalf _ hs =>
        rcases hs with hs | hs <;> exact absurd (hs.symm.trans hclosed) (by decide)
      | _ => cases hclosed
    · cases hrow with
      | superseded hs hd hn hcard =>
        refine bothParties_of_completed hcounted.supersededBy (hs ▸ ha) hn hcard (hfirst ?_)
        rcases hd with hd | hd <;> simp [counted, hc, hd, hs]
      | contestedSuperseded hs hd hn hcard =>
        exact bothParties_of_completed hcounted.contestSupersededBy (hs ▸ ha) hn hcard
          (hfirst (by simp [counted, hc, hd, hs]))
      | disputeClosedHalf | contestedClosedHalf | contestedSupersededHalf | supersededHalf =>
        exact absurd hsup hne
      | _ => cases hsup

theorem contested_of_step (hedge : edgeMalformed crypto edge = none)
    (hj : judge crypto keyLineage now edge (context crypto keyLineage now edge chain) a = .ok ctx')
    (hkey : ¬SecondKey keyLineage edge (context crypto keyLineage now edge chain) a)
    (hbefore : (context crypto keyLineage now edge chain).state ≠ .contestedClosure)
    (hafter : ctx'.state = .contestedClosure) :
    a.state ∈ unilateralExits ∧ ∃ q y, AcceptedAt crypto keyLineage now edge chain q y ∧
      y.state ∈ unilateralExits ∧ DifferentParties keyLineage edge y.signer a.signer := by
  have ha := counts_last hedge hj
  obtain ⟨-, -, next, hrow, rfl⟩ := judge_ok_iff.mp hj
  cases hrow with
  | table _ hrow =>
    cases hrow with
    | disputeClosedHalf | contestedClosedHalf | contestedSupersededHalf | supersededHalf =>
      exact absurd hafter hbefore
    | _ => cases hafter
  | contest hc =>
    cases he : (context crypto keyLineage now edge chain).exit with
    | none => simp [contests, he] at hc
    | some e =>
      obtain ⟨hexit, hsigned⟩ := (Counted.run hedge chain).exit e he
      have hcounted : e.signer ∈ counted (context crypto keyLineage now edge chain) a := by
        simp [counted, hc, he]
      simp only [contests, he, Option.any_some, Bool.and_eq_true, bne_iff_ne, ne_eq,
        List.contains_iff_mem, decide_eq_true_eq] at hc
      obtain ⟨⟨⟨⟨hsigner, hstate⟩, -⟩, -⟩, -⟩ := hc
      have hdiff := differentParties hsigned.1 ha.1 fun hsame ↦
        hkey ⟨e.signer, hcounted, Ne.symm hsigner, hsame⟩
      obtain ⟨-, q, y, hy, hys, hyk⟩ := hsigned
      exact ⟨hstate, q, y, hy, hys ▸ hexit, hyk ▸ hdiff⟩

/-- While no party signs the same joint act with a second key, two people stand behind each. -/
theorem TwoPeople.of_steps (hsteps : ∀ p x, AcceptedAt crypto keyLineage now edge chain p x →
      ¬SecondKey keyLineage edge (context crypto keyLineage now edge p) x) :
    TwoPeople crypto keyLineage now edge chain := by
  refine ⟨fun hsup ↦ ?_, fun p x hx hp hafter ↦ ?_, fun p x hx hp hafter ↦ ?_⟩
  · have hedge : edgeMalformed crypto edge = none :=
      edgeMalformed_of_finalState (by rw [hsup]; decide)
    obtain ⟨r, z, s, rfl, hr, hz⟩ := Replay.exists_change (l := []) (m := chain)
      (P := fun l ↦ finalState crypto keyLineage now edge l ≠ .superseded)
      (by simp [finalState_eq hedge, ChainState.start]) (by simpa using hsup)
    simp only [List.nil_append, finalState_eq hedge, not_not] at hr hz
    cases hj : judge crypto keyLineage now edge (context crypto keyLineage now edge r) z with
    | error reason => exact absurd (context_snoc_error hj ▸ hz) hr
    | ok ctx' =>
      have hpre : r ++ [z] <+: r ++ z :: s := ⟨s, by simp⟩
      have hacc : AcceptedAt crypto keyLineage now edge (r ++ z :: s) r z :=
        acceptedAt_iff.mpr ⟨hedge, hpre, ctx', hj⟩
      have hboth := (both_of_step hedge hj (hsteps r z hacc)).2 hr (context_snoc_ok hj ▸ hz)
      exact ⟨hboth.1.mono hpre, hboth.2.mono hpre⟩
  · obtain ⟨hedge, -, ctx', hj⟩ := acceptedAt_iff.mp hx
    rw [finalState_eq hedge] at hp hafter
    exact (both_of_step hedge hj (hsteps p x hx)).1 hp (context_snoc_ok hj ▸ hafter)
  · obtain ⟨hedge, -, ctx', hj⟩ := acceptedAt_iff.mp hx
    rw [finalState_eq hedge] at hp hafter
    exact contested_of_step hedge hj (hsteps p x hx) hp (context_snoc_ok hj ▸ hafter)

theorem two_people (crypto : Crypto) (acceptLegacySigOld : Bool)
    (rotations : List (Option Rotation)) (now : Option Rfc3339) (edge : Edge)
    (chain : List Assertion)
    (hsteps : ∀ p x, AcceptedAt crypto
        (fun key ↦ Rotation.keyLineage crypto acceptLegacySigOld key rotations) now edge chain p x →
      ¬SecondKey (fun key ↦ Rotation.keyLineage crypto acceptLegacySigOld key rotations) edge
        (context crypto (fun key ↦ Rotation.keyLineage crypto acceptLegacySigOld key rotations)
          now edge p) x) :
    TwoPeople crypto (fun key ↦ Rotation.keyLineage crypto acceptLegacySigOld key rotations) now
      edge chain :=
  .of_steps hsteps

section OnePerson

open Sample

def rotated : KeyLineage :=
  fun key ↦ Rotation.keyLineage Sample.crypto false key [some ownerRotation]

def closureByOwner : Assertion := act .closed ownerKey (date 3 2 11) none
  0x5b550e5352a4586121d10bd90d35585caa85da35b1257aa9184582d901ddfc561b10bfa4698afa55e9b3811c66785ea1a25b546f181ad516ee110fc0a355d907

def closureByNextKey : Assertion := act .closed nextKey (date 3 3 1) none
  0x26eab3c9ab6e49f97773496c96181b42a4d5a11410b8432b3b9ed5ba1173e49f0714d1bda9ff5ed3ab2e949b635c23d030f96b0f592aad1514baba629caa9d04

def closureByCreditor : Assertion := act .closed creditorKey (date 3 3 2) none
  0xb7bb27b1fbc5e14cd518408c97a7354b234bbdb9408db17e4e200b0d505c169600e74dd830b21c0664825010f8631694b2c1ac1b7533d2cc4495748567d24103

theorem dispute_closed_by_two : TwoPeople Sample.crypto rotated none Sample.edge
    [proposal, confirmation, dispute, closureByOwner, closureByCreditor] :=
  two_people Sample.crypto false [some ownerRotation] none Sample.edge _ fun _ _ hx ↦
    Replay.forall_prefix (Q := fun p x ↦ ¬SecondKey rotated Sample.edge
      (context Sample.crypto rotated none Sample.edge p) x) (by decide +kernel)
      (acceptedAt_iff.mp hx).2.1

/-- The owner closes a dispute alone, with the old key and then with the new one. -/
theorem dispute_closed_by_one :
    Rotation.verifyRotation Sample.crypto false (some ownerRotation) = .ok ownerRotation .sig ∧
    (∀ k ∈ rotated Sample.edge.owner, ∀ l ∈ rotated Sample.edge.owedTo, k.key ≠ l.key) ∧
    ¬TwoPeople Sample.crypto rotated none Sample.edge
      [proposal, confirmation, dispute, closureByOwner, closureByNextKey] := by
  refine ⟨by decide +kernel, by decide +kernel, fun h ↦ ?_⟩
  obtain ⟨-, q, y, hy, hclosed, hcreditor⟩ :=
    h.closed [proposal, confirmation, dispute, closureByOwner] closureByNextKey
      (by decide +kernel) (by decide +kernel) (by decide +kernel)
  have hnone : ∀ y ∈ [proposal, confirmation, dispute, closureByOwner, closureByNextKey],
      y.state = .closed → ¬OfParty rotated Sample.edge.owedTo y.signer := by decide +kernel
  exact hnone y ((acceptedAt_iff.mp hy).2.1.subset (by simp)) hclosed hcreditor

end OnePerson

end Servanda.Parties
