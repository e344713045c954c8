import Servanda.Serve

namespace Servanda.Rotation

open Transitions Serve

/-- From one key to another by statements each of which is alone in replacing its key. -/
inductive Linked (next : PublicKeyHex → List Rotation) :
    PublicKeyHex → List Rotation → PublicKeyHex → Prop
  | nil (key : PublicKeyHex) : Linked next key [] key
  | cons {key last : PublicKeyHex} {r : Rotation} {rest : List Rotation} :
      next key = [r] → Linked next r.new rest last → Linked next key (r :: rest) last

def ahead (next : PublicKeyHex → List Rotation) : ℕ → PublicKeyHex → Option PublicKeyHex
  | 0, key => some key
  | n + 1, key =>
    match next key with
    | [r] => ahead next n r.new
    | _ => none

/-- What a walk from a key has found when it stops. -/
structure Walked (next : PublicKeyHex → List Rotation) (depth : ℕ) (seen : List PublicKeyHex)
    (key : PublicKeyHex) (chain : List Rotation) (last : PublicKeyHex) : Prop where
  linked : Linked next key chain last
  bounded : chain.length ≤ depth
  nodup : (chain.map Rotation.new).Nodup
  fresh : ∀ r ∈ chain, r.new ∉ seen
  stopped : ∀ r, next last = [r] →
    r.new ∈ seen ∨ r.new ∈ chain.map Rotation.new ∨ chain.length = depth

variable {next : PublicKeyHex → List Rotation} {depth : ℕ} {seen : List PublicKeyHex}
  {key last : PublicKeyHex} {chain : List Rotation} {r : Rotation}

theorem walked (next : PublicKeyHex → List Rotation) (depth : ℕ) (seen : List PublicKeyHex)
    (key : PublicKeyHex) :
    Walked next depth seen key (walk next depth seen key).1 (walk next depth seen key).2.1 := by
  have hstay {seen : List PublicKeyHex} {depth : ℕ} {key : PublicKeyHex}
      (h : ∀ r, next key = [r] → r.new ∈ seen ∨ depth = 0) : Walked next depth seen key [] key :=
    { linked := .nil key
      bounded := Nat.zero_le depth
      nodup := List.nodup_nil
      fresh := by simp
      stopped := fun r hr ↦ (h r hr).imp_right fun hd ↦ .inr hd.symm }
  induction depth generalizing seen key with
  | zero =>
    unfold walk
    split
    next h => exact hstay fun _ _ ↦ .inr rfl
    next r h => split <;> exact hstay fun _ _ ↦ .inr rfl
    next h => exact hstay fun _ _ ↦ .inr rfl
  | succ depth ih =>
    unfold walk
    split
    next h => exact hstay fun r hr ↦ by simp [h] at hr
    next r h =>
      split
      next hseen =>
        refine hstay fun r' hr' ↦ .inl ?_
        obtain rfl : r = r' := by simpa using h.symm.trans hr'
        exact hseen
      next hseen =>
        obtain ⟨hlinked, hbounded, hnodup, hfresh, hstopped⟩ := ih (r.new :: seen) r.new
        refine ⟨.cons h hlinked, Nat.succ_le_succ hbounded, ?_, ?_, fun r' hr' ↦ ?_⟩
        · refine List.nodup_cons.mpr ⟨fun hmem ↦ ?_, hnodup⟩
          obtain ⟨r', hr', heq⟩ := List.mem_map.mp hmem
          exact hfresh r' hr' (heq ▸ List.mem_cons_self)
        · intro r' hr'
          rcases List.mem_cons.mp hr' with rfl | hr'
          · exact hseen
          · exact fun hmem ↦ hfresh r' hr' (List.mem_cons_of_mem _ hmem)
        · rcases hstopped r' hr' with hmem | hmem | hlength
          · rcases List.mem_cons.mp hmem with heq | hmem
            · exact .inr (.inl (by simp [heq]))
            · exact .inl hmem
          · exact .inr (.inl (List.mem_cons_of_mem _ hmem))
          · exact .inr (.inr (congrArg Nat.succ hlength))
    next r r' rest h => exact hstay fun r hr ↦ by simp [h] at hr

namespace Linked

theorem ahead_eq (h : Linked next key chain last) :
    ahead next chain.length key = some last := by
  induction h with
  | nil => rfl
  | cons hr _ ih => simpa [ahead, hr] using ih

theorem ahead_ne {k : PublicKeyHex} (h : Linked next key chain last) (hk : ∀ r ∈ chain, r.new ≠ k) :
    ∀ m ≤ chain.length, 0 < m → ahead next m key ≠ some k := by
  induction h with
  | nil => exact fun m hm hpos ↦ absurd (Nat.le_zero.mp hm) (Nat.ne_of_gt hpos)
  | cons hr _ ih =>
    simp only [List.mem_cons, forall_eq_or_imp] at hk
    intro m hm hpos
    obtain ⟨m, rfl⟩ := Nat.exists_eq_succ_of_ne_zero (Nat.ne_of_gt hpos)
    rw [ahead, hr]
    rcases Nat.eq_zero_or_pos m with rfl | hpos
    · simpa [ahead] using hk.1
    · exact ih hk.2 m (Nat.le_of_succ_le_succ hm) hpos

theorem last_mem (h : Linked next key chain last) : last ∈ key :: chain.map Rotation.new := by
  induction h with
  | nil => exact List.mem_cons_self
  | cons _ _ ih => exact List.mem_cons_of_mem _ ih

theorem sole (h : Linked next key chain last) (hr : r ∈ chain) : ∃ k, next k = [r] := by
  induction h with
  | nil => cases hr
  | cons hnext _ ih =>
    rcases List.mem_cons.mp hr with rfl | hr
    · exact ⟨_, hnext⟩
    · exact ih hr

theorem old_ne_last (hold : ∀ k, ∀ r ∈ next k, r.old = k) (h : Linked next key chain last)
    (hnodup : (key :: chain.map Rotation.new).Nodup) (hr : r ∈ chain) : r.old ≠ last := by
  induction h with
  | nil => cases hr
  | @cons key last r' rest hnext hrest ih =>
    obtain ⟨hkey, htail⟩ := List.nodup_cons.mp hnodup
    rcases List.mem_cons.mp hr with rfl | hr
    · have hkeyold : r.old = key := hold key r (by simp [hnext])
      intro heq
      exact hkey (hkeyold ▸ heq ▸ hrest.last_mem)
    · exact ih htail hr

/-- An entry of the lineage is the last key, open, or a key up to the date of the statement that is
alone in replacing it. -/
theorem entry (h : Linked next key chain last) {e : PartyKey} (he : e ∈ lineageOf key chain) :
    e = ⟨last, none⟩ ∨ ∃ r ∈ chain, next e.key = [r] ∧ e.supersededAt = some r.rotatedAt := by
  induction h with
  | nil => exact .inl (List.mem_singleton.mp he)
  | cons hnext _ ih =>
    rcases List.mem_cons.mp he with rfl | he
    · exact .inr ⟨_, List.mem_cons_self, hnext, rfl⟩
    · exact (ih he).imp_right fun ⟨r, hr, hrest⟩ ↦ ⟨r, List.mem_cons_of_mem _ hr, hrest⟩

end Linked

theorem setSuccessor_of_new {l : List Rotation} (h : ∀ s ∈ l, s.new ≠ r.new) :
    setSuccessor r l = l ++ [r] := by
  induction l with
  | nil => rfl
  | cons s l ih =>
    simp only [List.mem_cons, forall_eq_or_imp] at h
    simp [setSuccessor, h.1, ih h.2]

theorem foldl_setSuccessor {l m : List Rotation}
    (h : (m ++ l).Pairwise fun r s ↦ r.new ≠ s.new) :
    l.foldl (fun next r ↦ setSuccessor r next) m = m ++ l := by
  induction l generalizing m with
  | nil => simp
  | cons r l ih =>
    have hr : setSuccessor r m = m ++ [r] := setSuccessor_of_new fun s hs ↦
      (List.pairwise_append.mp h).2.2 s hs r List.mem_cons_self
    rw [List.foldl_cons, hr, ih (by simpa using h)]
    simp

def genuine (crypto : Crypto) (r : Rotation) : Bool :=
  match verifyRotation crypto false (some r) with
  | .ok .. => true
  | .rejected _ => false

variable {crypto : Crypto} {s : Subtree}

theorem old_ne_new_of_genuine (h : genuine crypto r = true) : r.old ≠ r.new := by
  intro heq
  simp [genuine, verifyRotation, heq] at h

theorem genuine_of_verifyRotation {encoding : RotationEncoding}
    (h : verifyRotation crypto false (some r) = .ok r encoding) : genuine crypto r = true := by
  simp [genuine, h]

theorem verified_map_some (l : List Rotation) :
    verified crypto false (l.map some) = l.filter (genuine crypto) := by
  rw [verified, List.filterMap_map, ← List.filterMap_eq_filter]
  apply List.filterMap_congr
  intro r _
  simp only [Function.comp_apply, genuine]
  cases h : verifyRotation crypto false (some r) with
  | ok r' encoding =>
    obtain rfl : r = r' := Option.some.inj (eq_of_verifyRotation h)
    simp [Option.guard, h]
  | rejected reason => simp [Option.guard, h]

def stored (crypto : Crypto) (s : Subtree) (key : PublicKeyHex) : List Rotation :=
  successors crypto false (s.listRotations.map some) key

theorem stored_eq (key : PublicKeyHex) :
    stored crypto s key =
      (s.rotations.values.filter (genuine crypto)).filter fun r ↦ r.old = key := by
  have hsorted : (s.rotations.values.filter (genuine crypto)).Pairwise
      fun r r' ↦ r.new ≠ r'.new :=
    (s.rotations.sorted.imp fun hlt ↦ ne_of_lt hlt).sublist List.filter_sublist
  unfold stored successors
  rw [Subtree.listRotations, verified_map_some, foldl_setSuccessor]
  · rfl
  · exact hsorted.sublist List.filter_sublist

theorem mem_stored : r ∈ stored crypto s key ↔
    r ∈ s.rotations.values ∧ genuine crypto r = true ∧ r.old = key := by
  simp only [stored_eq, List.mem_filter, decide_eq_true_eq, and_assoc]

theorem stored_nodup (key : PublicKeyHex) : (stored crypto s key).Nodup := by
  have hnodup : s.rotations.values.Nodup :=
    s.rotations.sorted.imp fun hlt heq ↦ absurd (congrArg Rotation.new heq) (ne_of_lt hlt)
  rw [stored_eq]
  exact (hnodup.filter _).filter _

theorem stored_eq_singleton :
    stored crypto s key = [r] ↔ r ∈ stored crypto s key ∧ ∀ r' ∈ stored crypto s key, r' = r := by
  constructor
  · intro h
    simp [h]
  · intro ⟨hr, hall⟩
    have hperm : (stored crypto s key).Perm [r] :=
      (List.perm_ext_iff_of_nodup (stored_nodup key) (List.nodup_singleton r)).mpr fun r' ↦
        ⟨fun h ↦ List.mem_singleton.mpr (hall r' h), fun h ↦ List.mem_singleton.mp h ▸ hr⟩
    exact List.perm_singleton.mp hperm

theorem resolveSuccessor_chain (key : PublicKeyHex) (rotations : List (Option Rotation)) :
    (resolveSuccessor crypto false key rotations).chain =
      (walk (successors crypto false rotations) maxRotationDepth [key] key).1 := by
  rw [resolveSuccessor]

theorem partyLineage_apply (key : PublicKeyHex) : partyLineage crypto s key =
    lineageOf key (walk (stored crypto s) maxRotationDepth [key] key).1 := by
  unfold partyLineage
  split_ifs with h
  · have hnone : stored crypto s key = [] := by
      simp [stored_eq, show s.rotations.values = [] from List.length_eq_zero_iff.mp h]
    simp [noRotations, walk, hnone, lineageOf]
  · exact congrArg (lineageOf key) (resolveSuccessor_chain key _)

theorem walk_head (depth : ℕ) : (walk next (depth + 1) seen key).1.head? =
    match next key with
    | [r] => if r.new ∈ seen then none else some r
    | _ => none := by
  unfold walk
  split
  next h => simp [h]
  next r h => split <;> simp [*]
  next h => simp [h]

theorem heldBy_self (instant : Rfc3339) : heldBy (partyLineage crypto s key) key instant =
    match stored crypto s key with
    | [r] => decide (Date.parse instant < Date.parse r.rotatedAt)
    | _ => true := by
  have hhead (chain : List Rotation) : heldBy (lineageOf key chain) key instant =
      chain.head?.all fun r ↦ decide (Date.parse instant < Date.parse r.rotatedAt) := by
    cases chain <;> simp [lineageOf, heldBy]
  rw [partyLineage_apply, hhead, maxRotationDepth, walk_head]
  split
  next r hr =>
    have hmem : r ∈ stored crypto s key := by simp [hr]
    obtain ⟨-, hgenuine, hold⟩ := mem_stored.mp hmem
    have hne : r.new ≠ key := fun heq ↦ old_ne_new_of_genuine hgenuine (hold.trans heq.symm)
    simp [hne]
  next => rfl

/-- A walk from a party stops at the key that a statement alone replaces: the depth is used up
there, or the statement leads back to where the walk began. -/
def StopsAt (crypto : Crypto) (s : Subtree) (party : PublicKeyHex) (r : Rotation) : Prop :=
  ∃ n ≤ maxRotationDepth, ahead (stored crypto s) n party = some r.old ∧
    (∀ m ≤ n, 0 < m → ahead (stored crypto s) m party ≠ some party) ∧
    (n = maxRotationDepth ∨ party = r.new)

instance (party : PublicKeyHex) (r : Rotation) : Decidable (StopsAt crypto s party r) :=
  inferInstanceAs (Decidable (∃ n ≤ maxRotationDepth, _ ∧ _ ∧ _))

/-- Where one statement replaces a key, every lineage shows that key up to its date, unless the walk
stops there. -/
theorem supersededAt_of_sole {party : PublicKeyHex} {e : PartyKey}
    (hsole : stored crypto s r.old = [r]) (hstops : ¬StopsAt crypto s party r)
    (he : e ∈ partyLineage crypto s party) (hkey : e.key = r.old) :
    e.supersededAt = some r.rotatedAt := by
  rw [partyLineage_apply] at he
  have hw := walked (stored crypto s) maxRotationDepth [party] party
  set chain := (walk (stored crypto s) maxRotationDepth [party] party).1
  rcases hw.linked.entry he with rfl | ⟨r', -, hr', hdate⟩
  · exfalso
    dsimp only at hkey
    have hlinked := hw.linked
    rw [hkey] at hlinked
    have hfresh : ∀ r ∈ chain, r.new ≠ party := fun r hr heq ↦ hw.fresh r hr (by simp [heq])
    have hreaches (h : chain.length = maxRotationDepth ∨ party = r.new) :
        StopsAt crypto s party r :=
      ⟨_, hw.bounded, hlinked.ahead_eq, hlinked.ahead_ne hfresh, h⟩
    rcases hw.stopped r (by rw [hkey]; exact hsole) with hmem | hmem | hlength
    · exact hstops (hreaches (.inr (List.mem_singleton.mp hmem).symm))
    · obtain ⟨r', hr', hnew⟩ := List.mem_map.mp hmem
      obtain ⟨k, hk⟩ := hlinked.sole hr'
      have hr'stored : r' ∈ stored crypto s k := by simp [hk]
      have hrstored : r ∈ stored crypto s r.old := by simp [hsole]
      obtain rfl : r' = r := Directory.name_injOn (mem_stored.mp hr'stored).1
        (mem_stored.mp hrstored).1 hnew
      have hparty : party ∉ chain.map Rotation.new := fun hparty ↦ by
        obtain ⟨r, hr, heq⟩ := List.mem_map.mp hparty
        exact hfresh r hr heq
      exact Linked.old_ne_last (fun k r hr ↦ (mem_stored.mp hr).2.2) hlinked
        (List.nodup_cons.mpr ⟨hparty, hw.nodup⟩) hr' rfl
    · exact hstops (hreaches (.inl hlength))
  · rw [hkey, hsole] at hr'
    obtain rfl : r = r' := by simpa using hr'
    exact hdate

end Servanda.Rotation
