import Servanda.Chains
import Servanda.Lineage
import Servanda.SoleWalk

/-!
Successor resolution as a function of the statements that verify, and the instants at which the keys
of a lineage are held.
-/

namespace Servanda.Rotation

open Transitions SoleWalk

variable {crypto : Crypto} {acceptLegacySigOld : Bool} {rotations : List (Option Rotation)}
  {key : PublicKeyHex} {r s : Rotation}

/-- The keys that statements which verify replace, with the keys they name. -/
def pairs (crypto : Crypto) (acceptLegacySigOld : Bool) (rotations : List (Option Rotation)) :
    Set (PublicKeyHex × PublicKeyHex) :=
  {p | ∃ r ∈ verified crypto acceptLegacySigOld rotations, (r.old, r.new) = p}

def stopOf : SuccessorStop → Stop
  | .finish => .finish
  | .fork => .fork
  | .cycle => .cycle
  | .depth => .depth

section Map

variable {l m : List Rotation}

/-- A key of the map keeps its place. -/
theorem map_new_setSuccessor (r : Rotation) (l : List Rotation) :
    (setSuccessor r l).map Rotation.new =
      if r.new ∈ l.map Rotation.new then l.map Rotation.new else l.map Rotation.new ++ [r.new] := by
  induction l with
  | nil => rfl
  | cons t l ih =>
    rw [setSuccessor]
    by_cases ht : t.new = r.new
    · rw [if_pos ht, List.map_cons, List.map_cons, ht, if_pos List.mem_cons_self]
    · rw [if_neg ht, List.map_cons, ih, List.map_cons]
      have hmem : r.new ∈ t.new :: l.map Rotation.new ↔ r.new ∈ l.map Rotation.new :=
        List.mem_cons.trans (or_iff_right (Ne.symm ht))
      rw [apply_ite (t.new :: ·)]
      simp only [hmem]
      rfl

theorem mem_setSuccessor (hnodup : (l.map Rotation.new).Nodup) :
    s ∈ setSuccessor r l ↔ s = r ∨ s ∈ l ∧ s.new ≠ r.new := by
  induction l with
  | nil => simp [setSuccessor]
  | cons t l ih =>
    rw [List.map_cons, List.nodup_cons] at hnodup
    rw [setSuccessor]
    by_cases ht : t.new = r.new
    · have hother : s ∈ l → s.new ≠ r.new := fun hs heq ↦
        hnodup.1 (ht.trans heq.symm ▸ List.mem_map_of_mem hs)
      rw [if_pos ht, List.mem_cons, List.mem_cons]
      constructor
      · rintro (rfl | hs)
        · exact .inl rfl
        · exact .inr ⟨.inr hs, hother hs⟩
      · rintro (rfl | ⟨rfl | hs, hne⟩)
        · exact .inl rfl
        · exact absurd ht hne
        · exact .inr hs
    · rw [if_neg ht, List.mem_cons, ih hnodup.2, List.mem_cons]
      constructor
      · rintro (rfl | rfl | ⟨hs, hne⟩)
        · exact .inr ⟨.inl rfl, ht⟩
        · exact .inl rfl
        · exact .inr ⟨.inr hs, hne⟩
      · rintro (rfl | ⟨rfl | hs, hne⟩)
        · exact .inr (.inl rfl)
        · exact .inl rfl
        · exact .inr (.inr ⟨hs, hne⟩)

/-- The last statement that names a key. -/
def lastFor (n : PublicKeyHex) (l : List Rotation) : Option Rotation :=
  l.reverse.find? fun s ↦ s.new = n

/-- What a map holds after statements are put in one by one: each new key once, with the last
statement that names it. -/
theorem setAll_spec (l : List Rotation) :
    ((l.foldl (fun next r ↦ setSuccessor r next) []).map Rotation.new).Nodup ∧
      (∀ n, n ∈ (l.foldl (fun next r ↦ setSuccessor r next) []).map Rotation.new ↔
        n ∈ l.map Rotation.new) ∧
      ∀ s ∈ l.foldl (fun next r ↦ setSuccessor r next) [], lastFor s.new l = some s := by
  induction l using List.reverseRecOn with
  | nil => simp
  | append_singleton l r ih =>
    obtain ⟨hnodup, hmem, hlast⟩ := ih
    rw [List.foldl_append, List.foldl_cons, List.foldl_nil]
    refine ⟨?_, fun n ↦ ?_, fun s hs ↦ ?_⟩
    · rw [map_new_setSuccessor]
      split_ifs with hr
      · exact hnodup
      · exact List.nodup_append.2 ⟨hnodup, List.nodup_singleton _, by simpa using hr⟩
    · rw [map_new_setSuccessor, List.map_append, List.mem_append, ← hmem]
      split_ifs with hr
      · refine ⟨.inl, fun h ↦ h.elim id fun h ↦ ?_⟩
        rwa [List.mem_singleton.1 h]
      · exact List.mem_append
    · rw [lastFor, List.reverse_append, List.reverse_singleton, List.singleton_append]
      obtain rfl | ⟨hs, hne⟩ := (mem_setSuccessor hnodup).1 hs
      · exact List.find?_cons_of_pos (by simp)
      · rw [List.find?_cons_of_neg (by simpa using hne.symm)]
        exact hlast s hs

end Map

section Walk

variable {next : PublicKeyHex → List Rotation} {edges : Set (PublicKeyHex × PublicKeyHex)}

/-- What a walk may go on to from each key: each successor once. -/
structure Charts (next : PublicKeyHex → List Rotation)
    (edges : Set (PublicKeyHex × PublicKeyHex)) : Prop where
  nodup : ∀ k, ((next k).map Rotation.new).Nodup
  mem : ∀ k n, n ∈ (next k).map Rotation.new ↔ (k, n) ∈ edges

variable (h : Charts next edges) (key : PublicKeyHex)
include h

theorem sole_of_singleton (hr : next key = [r]) : Sole edges key r.new := by
  have hmem := fun n ↦ h.mem key n
  rw [hr] at hmem
  simp only [List.map_cons, List.map_nil, List.mem_singleton] at hmem
  exact ⟨(hmem r.new).1 rfl, fun m hm ↦ (hmem m).2 hm⟩

theorem stops_of_nil (hnext : next key = []) (visited : List PublicKeyHex) (left : ℕ) :
    StopsFor edges visited key left .finish := fun n hn ↦ by
  have hmem := (h.mem key n).2 hn
  rw [hnext] at hmem
  cases hmem

theorem stops_of_many {rest : List Rotation} (hnext : next key = r :: s :: rest)
    (visited : List PublicKeyHex) (left : ℕ) : StopsFor edges visited key left .fork := by
  have hnodup := h.nodup key
  have hmem := fun n ↦ h.mem key n
  rw [hnext] at hnodup hmem
  refine ⟨r.new, s.new, fun heq ↦ ?_, (hmem _).1 (by simp), (hmem _).1 (by simp)⟩
  rw [List.map_cons, List.nodup_cons] at hnodup
  exact hnodup.1 (heq ▸ by simp)

/-- A walk follows the edges as long as there is one, and says why it ends. -/
theorem walk_stops (depth : ℕ) (seen : List PublicKeyHex) :
    Follows edges key ((walk next depth seen key).1.map Rotation.new) ∧
      (walk next depth seen key).2.1 =
        lastOf key ((walk next depth seen key).1.map Rotation.new) ∧
      StopsFor edges (seen ++ (walk next depth seen key).1.map Rotation.new)
        (walk next depth seen key).2.1 (depth - (walk next depth seen key).1.length)
        (stopOf (walk next depth seen key).2.2) := by
  induction depth generalizing seen key with
  | zero =>
    unfold walk
    split
    next hnext => exact ⟨trivial, rfl, stops_of_nil h key hnext _ _⟩
    next r hnext =>
      have hsole := sole_of_singleton h key hnext
      split
      next hseen => exact ⟨trivial, rfl, r.new, hsole, by simpa using hseen⟩
      next hseen => exact ⟨trivial, rfl, r.new, hsole, by simpa using hseen, rfl⟩
    next hnext => exact ⟨trivial, rfl, stops_of_many h key hnext _ _⟩
  | succ depth ih =>
    unfold walk
    split
    next hnext => exact ⟨trivial, rfl, stops_of_nil h key hnext _ _⟩
    next r hnext =>
      have hsole := sole_of_singleton h key hnext
      split
      next hseen => exact ⟨trivial, rfl, r.new, hsole, by simpa using hseen⟩
      next hseen =>
        obtain ⟨hfollows, hlast, hstops⟩ := ih r.new (r.new :: seen)
        refine ⟨⟨hsole, hfollows⟩, ?_, ?_⟩
        · rw [List.map_cons, lastOf_cons]
          exact hlast
        · dsimp only
          rw [List.length_cons, Nat.add_sub_add_right]
          refine hstops.congr fun n ↦ ?_
          simp only [List.cons_append, List.mem_cons, List.mem_append, List.map_cons]
          tauto
    next hnext => exact ⟨trivial, rfl, stops_of_many h key hnext _ _⟩

end Walk

section Resolution

theorem charts_successors : Charts (successors crypto acceptLegacySigOld rotations)
    (pairs crypto acceptLegacySigOld rotations) where
  nodup k := (setAll_spec _).1
  mem k n := by
    rw [successors, (setAll_spec _).2.1, List.mem_map]
    simp only [List.mem_filter, decide_eq_true_eq, pairs, Set.mem_ofPred_eq, Prod.mk.injEq]
    constructor
    · rintro ⟨r, ⟨hr, hold⟩, hnew⟩
      exact ⟨r, hr, hold, hnew⟩
    · rintro ⟨r, hr, hold, hnew⟩
      exact ⟨r, ⟨hr, hold⟩, hnew⟩

/-- The last statement that verifies and replaces the one key by the other. -/
def lastStatement (crypto : Crypto) (acceptLegacySigOld : Bool)
    (rotations : List (Option Rotation)) (old new : PublicKeyHex) : Option Rotation :=
  lastFor new ((verified crypto acceptLegacySigOld rotations).filter fun r ↦ r.old = old)

theorem kept_of_mem_successors (hr : r ∈ successors crypto acceptLegacySigOld rotations key) :
    r.old = key ∧ lastStatement crypto acceptLegacySigOld rotations r.old r.new = some r := by
  have hlast := (setAll_spec _).2.2 r hr
  have hmem := List.mem_of_find?_eq_some hlast
  rw [List.mem_reverse, List.mem_filter, decide_eq_true_eq] at hmem
  exact ⟨hmem.2, by rw [lastStatement, hmem.2]; exact hlast⟩

/-- A chain of statements, each of which replaces the key the one before it named. -/
def ChainFrom : PublicKeyHex → List Rotation → Prop
  | _, [] => True
  | k, r :: chain => r.old = k ∧ ChainFrom r.new chain

/-- What the resolution of a key is, in terms of the pairs alone but for the statements it keeps. -/
structure Resolves (crypto : Crypto) (acceptLegacySigOld : Bool)
    (rotations : List (Option Rotation)) (resolution : SuccessorResolution) : Prop where
  linked : ChainFrom resolution.key resolution.chain
  kept : ∀ r ∈ resolution.chain,
    lastStatement crypto acceptLegacySigOld rotations r.old r.new = some r
  walked :
    SoleWalk.Walked (pairs crypto acceptLegacySigOld rotations) maxRotationDepth resolution.key
    (resolution.chain.map Rotation.new) (stopOf resolution.stoppedBecause)
  current : resolution.current = lastOf resolution.key (resolution.chain.map Rotation.new)
  rejected : resolution.rejected = rotations.filterMap fun input ↦
    match verifyRotation crypto acceptLegacySigOld input with
    | .ok _ _ => none
    | .rejected reason => some (input, reason)

theorem chainFrom_of_linked {next : PublicKeyHex → List Rotation} {chain : List Rotation}
    {last : PublicKeyHex} (hold : ∀ k, ∀ r ∈ next k, r.old = k)
    (h : Linked next key chain last) : ChainFrom key chain ∧ ∀ r ∈ chain, ∃ k, r ∈ next k := by
  induction h with
  | nil => exact ⟨trivial, List.forall_mem_nil _⟩
  | @cons k last r chain hnext hlinked ih =>
    have hr : r ∈ next k := hnext ▸ List.mem_cons_self
    exact ⟨⟨hold k r hr, ih.1⟩, List.forall_mem_cons.2 ⟨⟨k, hr⟩, ih.2⟩⟩

theorem resolves (crypto : Crypto) (acceptLegacySigOld : Bool) (key : PublicKeyHex)
    (rotations : List (Option Rotation)) : Resolves crypto acceptLegacySigOld rotations
      (resolveSuccessor crypto acceptLegacySigOld key rotations) := by
  have hwalked := Rotation.walked (successors crypto acceptLegacySigOld rotations)
    maxRotationDepth [key] key
  obtain ⟨hfollows, hlast, hstops⟩ := walk_stops
    (@charts_successors crypto acceptLegacySigOld rotations) key maxRotationDepth [key]
  obtain ⟨hchain, hmem⟩ := chainFrom_of_linked (fun k r hr ↦ (kept_of_mem_successors hr).1)
    hwalked.linked
  refine ⟨hchain, fun r hr ↦ ?_, ⟨hfollows, ?_, ?_, ?_⟩, hlast, rfl⟩
  · obtain ⟨k, hr⟩ := hmem r hr
    exact (kept_of_mem_successors hr).2
  · refine List.nodup_cons.2 ⟨fun hkey ↦ ?_, hwalked.nodup⟩
    obtain ⟨r, hr, hnew⟩ := List.mem_map.1 hkey
    exact hwalked.fresh r hr (hnew ▸ List.mem_singleton.2 rfl)
  · rw [List.length_map]
    exact hwalked.bounded
  · rw [hlast] at hstops
    rw [List.length_map]
    exact hstops

theorem stopOf_injective : Function.Injective stopOf := by
  intro a b h
  cases a <;> cases b <;> first | rfl | cases h

theorem ChainFrom.pairs_eq {k : PublicKeyHex} {chain chain' : List Rotation}
    (h : ChainFrom k chain) (h' : ChainFrom k chain')
    (hnew : chain.map Rotation.new = chain'.map Rotation.new) :
    chain.map (fun r ↦ (r.old, r.new)) = chain'.map fun r ↦ (r.old, r.new) := by
  induction chain generalizing k chain' with
  | nil => rw [List.map_eq_nil_iff.1 hnew.symm]
  | cons r chain ih =>
    cases chain' with
    | nil => cases hnew
    | cons r' chain' =>
      obtain ⟨hr, hrest⟩ := List.cons.inj hnew
      rw [List.map_cons, List.map_cons, h.1, h'.1, hr, ih h.2 (hr ▸ h'.2) hrest]

/-- Two resolutions of a key agree but for the statements that the chain keeps. -/
structure SamePath (resolution resolution' : SuccessorResolution) : Prop where
  key : resolution.key = resolution'.key
  current : resolution.current = resolution'.current
  chain : resolution.chain.map (fun r ↦ (r.old, r.new)) =
    resolution'.chain.map fun r ↦ (r.old, r.new)
  stoppedBecause : resolution.stoppedBecause = resolution'.stoppedBecause

/-- A key is resolved as its pairs say, and the same way by any statements with these pairs. -/
theorem resolveSuccessor_wellDefined (crypto : Crypto) (acceptLegacySigOld : Bool)
    (key : PublicKeyHex) :
    (∀ rotations, Resolves crypto acceptLegacySigOld rotations
      (resolveSuccessor crypto acceptLegacySigOld key rotations)) ∧
    ∀ rotations rotations',
      pairs crypto acceptLegacySigOld rotations = pairs crypto acceptLegacySigOld rotations' →
        SamePath (resolveSuccessor crypto acceptLegacySigOld key rotations)
          (resolveSuccessor crypto acceptLegacySigOld key rotations') := by
  refine ⟨resolves crypto acceptLegacySigOld key, fun rotations rotations' hpairs ↦ ?_⟩
  have h := resolves crypto acceptLegacySigOld key rotations
  have h' := resolves crypto acceptLegacySigOld key rotations'
  have hwalked := h.walked
  rw [hpairs] at hwalked
  obtain ⟨hpath, hstop⟩ := hwalked.unique h'.walked
  refine ⟨rfl, ?_, h.linked.pairs_eq h'.linked hpath, stopOf_injective hstop⟩
  rw [h.current, h'.current, hpath]
  rfl

/-- An input that does not verify is in the result, though no pair comes of it. -/
theorem rejected_input_shown : ¬∀ crypto acceptLegacySigOld key rotations rotations',
    pairs crypto acceptLegacySigOld rotations = pairs crypto acceptLegacySigOld rotations' →
      (resolveSuccessor crypto acceptLegacySigOld key rotations).rejected =
        (resolveSuccessor crypto acceptLegacySigOld key rotations').rejected := by
  intro h
  have hsame := h Sample.crypto false Sample.ownerKey [] [none] rfl
  cases hsame

end Resolution

section Held

variable {chain : List Rotation} {instant : Rfc3339}

theorem map_key_lineageOf (key : PublicKeyHex) (chain : List Rotation) :
    (lineageOf key chain).map PartyKey.key = key :: chain.map Rotation.new := by
  induction chain generalizing key with
  | nil => rfl
  | cons r chain ih => rw [lineageOf, List.map_cons, ih, List.map_cons]

/-- A lineage is the last key, open, and the others up to the statements that replace them. -/
theorem mem_lineageOf (h : ChainFrom key chain) {e : PartyKey} : e ∈ lineageOf key chain ↔
    e = ⟨lastOf key (chain.map Rotation.new), none⟩ ∨
      ∃ r ∈ chain, e = ⟨r.old, some r.rotatedAt⟩ := by
  induction chain generalizing key with
  | nil => simp [lineageOf]
  | cons r chain ih =>
    rw [lineageOf, List.mem_cons, ih h.2, List.map_cons, lastOf_cons, ← h.1]
    constructor
    · rintro (rfl | rfl | ⟨s, hs, rfl⟩)
      · exact .inr ⟨r, List.mem_cons_self, rfl⟩
      · exact .inl rfl
      · exact .inr ⟨s, List.mem_cons_of_mem r hs, rfl⟩
    · rintro (rfl | ⟨s, hs, rfl⟩)
      · exact .inr (.inl rfl)
      · obtain rfl | hs := List.mem_cons.1 hs
        · exact .inl rfl
        · exact .inr (.inr ⟨s, hs, rfl⟩)

theorem heldBy_of_mem {lineage : List PartyKey} (hnodup : (lineage.map PartyKey.key).Nodup)
    {e : PartyKey} (he : e ∈ lineage) : heldBy lineage e.key instant =
      e.supersededAt.all fun s ↦ decide (Date.parse instant < Date.parse s) := by
  have hfind : (lineage.find? fun k ↦ k.key = e.key) = some e := by
    induction lineage with
    | nil => cases he
    | cons k lineage ih =>
      rw [List.map_cons, List.nodup_cons] at hnodup
      obtain rfl | he := List.mem_cons.1 he
      · exact List.find?_cons_of_pos (by simp)
      · have hne : k.key ≠ e.key := fun heq ↦ hnodup.1 (heq ▸ List.mem_map_of_mem he)
        rw [List.find?_cons_of_neg (by simpa using hne)]
        exact ih hnodup.2 he
  rw [heldBy, hfind]

/-- At an instant a party has one key: no two keys of its lineage are held, one is, and none is
held before the statement that names it. -/
structure OneHolder (lineage : List PartyKey) (chain : List Rotation) (instant : Rfc3339) :
    Prop where
  atMost : ∀ k ∈ lineage.map PartyKey.key, ∀ k' ∈ lineage.map PartyKey.key,
    heldBy lineage k instant = true → heldBy lineage k' instant = true → k = k'
  atLeast : ∃ k ∈ lineage.map PartyKey.key, heldBy lineage k instant = true
  introduced : ∀ r ∈ chain, Date.parse instant < Date.parse r.rotatedAt →
    heldBy lineage r.new instant = false

/-- A party has one key at an instant exactly where none of its rotations is yet to come. -/
theorem oneHolder_iff (crypto : Crypto) (acceptLegacySigOld : Bool) (key : PublicKeyHex)
    (rotations : List (Option Rotation)) (instant : Rfc3339) :
    OneHolder (keyLineage crypto acceptLegacySigOld key rotations)
      (resolveSuccessor crypto acceptLegacySigOld key rotations).chain instant ↔
        ∀ r ∈ (resolveSuccessor crypto acceptLegacySigOld key rotations).chain,
          Date.parse r.rotatedAt ≤ Date.parse instant := by
  have h := resolves crypto acceptLegacySigOld key rotations
  have hlinked : ChainFrom key (resolveSuccessor crypto acceptLegacySigOld key rotations).chain :=
    h.linked
  have hwalked : (key :: (resolveSuccessor crypto acceptLegacySigOld key rotations).chain.map
      Rotation.new).Nodup := h.walked.nodup
  unfold keyLineage
  generalize (resolveSuccessor crypto acceptLegacySigOld key rotations).chain = chain at *
  have hnodup : ((lineageOf key chain).map PartyKey.key).Nodup := by rwa [map_key_lineageOf]
  have hopen : heldBy (lineageOf key chain) (lastOf key (chain.map Rotation.new)) instant = true :=
    heldBy_of_mem hnodup ((mem_lineageOf hlinked).2 (.inl rfl))
  have hretired : ∀ r ∈ chain, heldBy (lineageOf key chain) r.old instant =
      decide (Date.parse instant < Date.parse r.rotatedAt) := fun r hr ↦
    heldBy_of_mem hnodup ((mem_lineageOf hlinked).2 (.inr ⟨r, hr, rfl⟩))
  have hlast : lastOf key (chain.map Rotation.new) ∈ (lineageOf key chain).map PartyKey.key :=
    List.mem_map.2 ⟨_, (mem_lineageOf hlinked).2 (.inl rfl), rfl⟩
  constructor
  · intro hone r hr
    by_contra hlate
    have hboth : r.old = lastOf key (chain.map Rotation.new) :=
      hone.atMost _ (List.mem_map.2 ⟨_, (mem_lineageOf hlinked).2 (.inr ⟨r, hr, rfl⟩), rfl⟩) _ hlast
        (by rw [hretired r hr]; simpa using hlate) hopen
    have hentry := List.inj_on_of_nodup_map hnodup ((mem_lineageOf hlinked).2 (.inr ⟨r, hr, rfl⟩))
      ((mem_lineageOf hlinked).2 (.inl rfl)) hboth
    exact absurd (congrArg PartyKey.supersededAt hentry) (Option.some_ne_none _)
  · intro hpast
    have hsole : ∀ k ∈ (lineageOf key chain).map PartyKey.key,
        heldBy (lineageOf key chain) k instant = true →
          k = lastOf key (chain.map Rotation.new) := by
      intro k hk hheld
      obtain ⟨e, he, rfl⟩ := List.mem_map.1 hk
      obtain rfl | ⟨r, hr, rfl⟩ := (mem_lineageOf hlinked).1 he
      · rfl
      · rw [hretired r hr, decide_eq_true_eq] at hheld
        exact absurd hheld (hpast r hr).not_gt
    exact ⟨fun k hk k' hk' h h' ↦ (hsole k hk h).trans (hsole k' hk' h').symm, ⟨_, hlast, hopen⟩,
      fun r hr hlate ↦ absurd hlate (hpast r hr).not_gt⟩

/-- Before a rotation the key it names is held already, beside the key it replaces. -/
theorem two_holders : ¬∀ crypto acceptLegacySigOld key rotations instant,
    OneHolder (keyLineage crypto acceptLegacySigOld key rotations)
      (resolveSuccessor crypto acceptLegacySigOld key rotations).chain instant := by
  intro h
  have hone := h Sample.crypto false Sample.ownerKey [some Sample.ownerRotation]
    (Sample.date 2 1 0)
  have hlineage : (keyLineage Sample.crypto false Sample.ownerKey
      [some Sample.ownerRotation]).map PartyKey.key = [Sample.ownerKey, Sample.nextKey] := by
    decide +kernel
  have hkeys := hone.atMost Sample.ownerKey (by rw [hlineage]; simp) Sample.nextKey
    (by rw [hlineage]; simp) (by decide +kernel) (by decide +kernel)
  exact absurd hkeys (by decide)

end Held

end Servanda.Rotation
