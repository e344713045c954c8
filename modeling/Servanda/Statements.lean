import Servanda.Supersession

namespace Servanda.Statements

open Serve Rotation Supersession

variable (crypto : Crypto)

/-- The statements that a sequence of rotation messages gets accepted, in the order of arrival. -/
def acceptedIn (inbox : Inbox) : List (PublicKeyHex × Option Rotation) → List Rotation
  | [] => []
  | m :: rest =>
    let (next, result) := inbox.ingestRotation crypto m.1 m.2 .empty
    (if result.accepted = [] then [] else m.2.toList) ++ acceptedIn next rest

/-- No two of the statements name one new key, unless they are one statement. -/
def Consistent (l : List Rotation) : Prop := ∀ r ∈ l, ∀ r' ∈ l, r.new = r'.new → r = r'

def resolution (key : PublicKeyHex) (l : List Rotation) :
    List Rotation × PublicKeyHex × SuccessorStop :=
  let found := resolveSuccessor crypto false key (l.map some)
  (found.chain, found.current, found.stoppedBecause)

/-- What a vault reads back of the statements it has accepted: all of them, each fork among them,
and the one resolution they determine in whatever order they are taken. -/
structure Complete (statements : List Rotation) (s : Subtree) : Prop where
  kept : ∀ r ∈ statements, r ∈ s.listRotations
  forks : ∀ key, (resolution crypto key s.listRotations).2.2 = .fork ↔
    ∃ r ∈ statements, ∃ r' ∈ statements, genuine crypto r = true ∧ genuine crypto r' = true ∧
      r.old = (resolution crypto key s.listRotations).2.1 ∧
      r'.old = (resolution crypto key s.listRotations).2.1 ∧ r.new ≠ r'.new
  determined : ∀ l : List Rotation, (∀ r, r ∈ l ↔ r ∈ statements) → ∀ key,
    resolution crypto key s.listRotations = resolution crypto key l

variable {crypto} {r : Rotation} {l m : List Rotation} {key : PublicKeyHex} {s : Subtree}

theorem Consistent.subset (h : Consistent l) (hsub : ∀ r ∈ m, r ∈ l) : Consistent m :=
  fun r hr r' hr' ↦ h r (hsub r hr) r' (hsub r' hr')

theorem setSuccessor_of_mem (h : Consistent l) (hr : r ∈ l) : setSuccessor r l = l := by
  induction l with
  | nil => cases hr
  | cons s l ih =>
    unfold setSuccessor
    split_ifs with hnew
    · rw [h s List.mem_cons_self r hr hnew]
    · have hmem : r ∈ l := (List.mem_cons.mp hr).resolve_left fun heq ↦ hnew (heq ▸ rfl)
      rw [ih (h.subset fun _ ↦ List.mem_cons_of_mem s) hmem]

theorem foldl_setSuccessor_spec (h : Consistent (m ++ l)) (hm : m.Nodup) :
    (l.foldl (fun next r ↦ setSuccessor r next) m).Nodup ∧
      ∀ r, r ∈ l.foldl (fun next r ↦ setSuccessor r next) m ↔ r ∈ m ∨ r ∈ l := by
  induction l generalizing m with
  | nil => simpa using hm
  | cons x l ih =>
    rw [List.foldl_cons]
    by_cases hx : x ∈ m
    · rw [setSuccessor_of_mem (h.subset fun _ ↦ List.mem_append_left _) hx]
      have hsub : ∀ r ∈ m ++ l, r ∈ m ++ x :: l := by
        simp only [List.mem_append, List.mem_cons]
        tauto
      obtain ⟨hnodup, hmem⟩ := ih (h.subset hsub) hm
      refine ⟨hnodup, fun r ↦ (hmem r).trans ?_⟩
      rw [List.mem_cons]
      constructor
      · exact Or.imp_right .inr
      · rintro (hr | rfl | hr)
        · exact .inl hr
        · exact .inl hx
        · exact .inr hr
    · have hset : setSuccessor x m = m ++ [x] := setSuccessor_of_new fun s hs hnew ↦
        hx (h s (by simp [hs]) x (by simp) hnew ▸ hs)
      rw [hset]
      have hnodup : (m ++ [x]).Nodup := by
        rw [List.nodup_append]
        refine ⟨hm, List.nodup_singleton x, fun a ha b hb heq ↦ hx ?_⟩
        rwa [← List.mem_singleton.mp hb, ← heq]
      obtain ⟨hnodup', hmem⟩ := ih (by simpa using h) hnodup
      refine ⟨hnodup', fun r ↦ (hmem r).trans ?_⟩
      simp [or_assoc]

theorem successors_spec (h : Consistent l) (key : PublicKeyHex) :
    (successors crypto false (l.map some) key).Nodup ∧
      ∀ r, r ∈ successors crypto false (l.map some) key ↔
        r ∈ l ∧ genuine crypto r = true ∧ r.old = key := by
  unfold successors
  rw [verified_map_some]
  have hsub : ∀ r ∈ [] ++ (l.filter (genuine crypto)).filter fun r ↦ r.old = key, r ∈ l := by
    intro r hr
    exact List.mem_of_mem_filter (List.mem_of_mem_filter hr)
  obtain ⟨hnodup, hmem⟩ := foldl_setSuccessor_spec (h.subset hsub) List.nodup_nil
  refine ⟨hnodup, fun r ↦ (hmem r).trans ?_⟩
  simp only [List.not_mem_nil, List.mem_filter, decide_eq_true_eq, false_or, and_assoc]

theorem walk_perm {next next' : PublicKeyHex → List Rotation} (h : ∀ k, (next k).Perm (next' k))
    (depth : ℕ) (seen : List PublicKeyHex) (key : PublicKeyHex) :
    walk next depth seen key = walk next' depth seen key := by
  have hcases (k : PublicKeyHex) : next k = [] ∧ next' k = [] ∨
      (∃ r, next k = [r] ∧ next' k = [r]) ∨
        ∃ r r' t u u' v, next k = r :: r' :: t ∧ next' k = u :: u' :: v := by
    have hk := h k
    match hnext : next k with
    | [] => exact .inl ⟨rfl, List.nil_perm.mp (hnext ▸ hk)⟩
    | [r] => exact .inr (.inl ⟨r, rfl, List.perm_singleton.mp (hnext ▸ hk).symm⟩)
    | r :: r' :: t =>
      have hlength := (hnext ▸ hk).length_eq
      match hnext' : next' k with
      | [] | [u] => simp [hnext'] at hlength
      | u :: u' :: v => exact .inr (.inr ⟨r, r', t, u, u', v, rfl, rfl⟩)
  induction depth generalizing seen key with
  | zero =>
    unfold walk
    rcases hcases key with ⟨h₁, h₂⟩ | ⟨r, h₁, h₂⟩ | ⟨r, r', t, u, u', v, h₁, h₂⟩ <;> rw [h₁, h₂]
  | succ depth ih =>
    unfold walk
    rcases hcases key with ⟨h₁, h₂⟩ | ⟨r, h₁, h₂⟩ | ⟨r, r', t, u, u', v, h₁, h₂⟩ <;> rw [h₁, h₂]
    simp only [ih]

/-- Consistent statements have one resolution, in whatever order they are taken. -/
theorem resolution_perm (h : Consistent l) (hmem : ∀ r, r ∈ m ↔ r ∈ l) (key : PublicKeyHex) :
    resolution crypto key l = resolution crypto key m := by
  have hm : Consistent m := h.subset fun r hr ↦ (hmem r).mp hr
  have hperm (k : PublicKeyHex) : (successors crypto false (l.map some) k).Perm
      (successors crypto false (m.map some) k) := by
    obtain ⟨hnodup, hl⟩ := @successors_spec crypto l h k
    obtain ⟨hnodup', hm⟩ := @successors_spec crypto m hm k
    exact (List.perm_ext_iff_of_nodup hnodup hnodup').mpr fun r ↦ by rw [hl, hm, hmem]
  unfold resolution resolveSuccessor
  rw [walk_perm hperm]

theorem walk_fork (next : PublicKeyHex → List Rotation) (depth : ℕ) (seen : List PublicKeyHex)
    (key : PublicKeyHex) : (walk next depth seen key).2.2 = .fork ↔
      2 ≤ (next (walk next depth seen key).2.1).length := by
  induction depth generalizing seen key with
  | zero =>
    unfold walk
    split
    next h => simp [h]
    next r h => split <;> simp [h]
    next r r' rest h => simp [h]
  | succ depth ih =>
    unfold walk
    split
    next h => simp [h]
    next r h =>
      split
      · simp [h]
      · exact ih (r.new :: seen) r.new
    next r r' rest h => simp [h]

theorem resolution_fork (h : Consistent l) (key : PublicKeyHex) :
    (resolution crypto key l).2.2 = .fork ↔
      ∃ r ∈ l, ∃ r' ∈ l, genuine crypto r = true ∧ genuine crypto r' = true ∧
        r.old = (resolution crypto key l).2.1 ∧ r'.old = (resolution crypto key l).2.1 ∧
        r.new ≠ r'.new := by
  have hwalk : resolution crypto key l =
      walk (successors crypto false (l.map some)) maxRotationDepth [key] key := by
    unfold resolution resolveSuccessor
    rfl
  obtain ⟨hnodup, hmem⟩ := @successors_spec crypto l h (resolution crypto key l).2.1
  rw [hwalk] at hnodup hmem ⊢
  rw [walk_fork]
  generalize (walk (successors crypto false (l.map some)) maxRotationDepth [key] key).2.1 = last
    at hnodup hmem ⊢
  constructor
  · intro hlength
    match hnext : successors crypto false (l.map some) last with
    | [] | [r] => simp [hnext] at hlength
    | r :: r' :: rest =>
      obtain ⟨hr, hg, ho⟩ := (hmem r).mp (by simp [hnext])
      obtain ⟨hr', hg', ho'⟩ := (hmem r').mp (by simp [hnext])
      rw [hnext] at hnodup
      exact ⟨r, hr, r', hr', hg, hg', ho, ho', fun heq ↦
        (List.nodup_cons.mp hnodup).1 (h r hr r' hr' heq ▸ List.mem_cons_self)⟩
  · intro ⟨r, hr, r', hr', hg, hg', ho, ho', hne⟩
    have hin := (hmem r).mpr ⟨hr, hg, ho⟩
    have hin' := (hmem r').mpr ⟨hr', hg', ho'⟩
    match hnext : successors crypto false (l.map some) last with
    | [] => simp [hnext] at hin
    | [x] =>
      rw [hnext] at hin hin'
      exact absurd ((List.mem_singleton.mp hin).trans (List.mem_singleton.mp hin').symm ▸ rfl) hne
    | _ :: _ :: _ => simp

variable {inbox : Inbox} {messages : List (PublicKeyHex × Option Rotation)}

/-- What the vault lists after the messages are statements it held or has accepted, and where these
are consistent, all of them. -/
theorem mem_listRotations_after (hconsistent : Consistent
      (inbox.vault.listRotations ++ acceptedIn crypto inbox messages)) :
    r ∈ (after crypto inbox messages).vault.listRotations ↔
      r ∈ inbox.vault.listRotations ++ acceptedIn crypto inbox messages := by
  induction messages generalizing inbox with
  | nil => simp [after, acceptedIn]
  | cons x messages ih =>
    have hcons : after crypto inbox (x :: messages) =
        after crypto (inbox.ingestRotation crypto x.1 x.2 .empty).1 messages := rfl
    rw [hcons]
    rcases @Inbox.ingestRotation_cases crypto inbox x.1 x.2 .empty with
      ⟨reason, hdiscard⟩ | ⟨r', hr', -, -, -, haccept⟩
    · have hacc : acceptedIn crypto inbox (x :: messages) = acceptedIn crypto inbox messages := by
        rw [acceptedIn, hdiscard]
        rfl
      rw [hacc] at hconsistent ⊢
      rw [hdiscard]
      exact ih hconsistent
    · have hacc : acceptedIn crypto inbox (x :: messages) = r' ::
          acceptedIn crypto { inbox with vault := inbox.vault.putRotation r' } messages := by
        rw [acceptedIn, haccept, hr']
        rfl
      rw [hacc] at hconsistent ⊢
      rw [haccept]
      have hput (r₀ : Rotation) : r₀ ∈ (inbox.vault.putRotation r').listRotations ↔
          r₀ = r' ∨ r₀ ∈ inbox.vault.listRotations := by
        refine Directory.mem_values_put.trans (or_congr_right' fun hne ↦ ?_)
        refine and_iff_left_of_imp fun hr₀ hnew ↦ hne ?_
        exact hconsistent r₀ (List.mem_append_left _ hr₀) r' (by simp) hnew
      have hsame (r₀ : Rotation) : r₀ ∈ (inbox.vault.putRotation r').listRotations ++
            acceptedIn crypto { inbox with vault := inbox.vault.putRotation r' } messages ↔
          r₀ ∈ inbox.vault.listRotations ++ r' ::
            acceptedIn crypto { inbox with vault := inbox.vault.putRotation r' } messages := by
        simp only [List.mem_append, List.mem_cons, hput]
        tauto
      rw [ih (hconsistent.subset fun r₀ hr₀ ↦ (hsame r₀).mp hr₀)]
      exact hsame r

/-- A vault reads back all it has accepted exactly when no two of the statements name one new key. -/
theorem complete_iff_consistent (crypto : Crypto) (inbox : Inbox)
    (messages : List (PublicKeyHex × Option Rotation)) :
    Complete crypto (inbox.vault.listRotations ++ acceptedIn crypto inbox messages)
        (after crypto inbox messages).vault ↔
      Consistent (inbox.vault.listRotations ++ acceptedIn crypto inbox messages) := by
  constructor
  · intro h r hr r' hr' hnew
    exact Directory.name_injOn (h.kept r hr) (h.kept r' hr') hnew
  · intro h
    have hmem (r : Rotation) := mem_listRotations_after (r := r) h
    have hlisted : Consistent (after crypto inbox messages).vault.listRotations :=
      h.subset fun r hr ↦ (hmem r).mp hr
    refine ⟨fun r hr ↦ (hmem r).mpr hr, fun key ↦ ?_, fun l hl key ↦ ?_⟩
    · rw [resolution_fork hlisted key]
      simp only [hmem]
    · exact resolution_perm hlisted (fun r ↦ (hl r).trans (hmem r).symm) key

open Sample

/-- The creditor names the owner's next key too: the owner's statement is gone. -/
theorem shared_successor_lost :
    acceptedIn Sample.crypto successorInbox
        [(ownerKey, some ownerRotation), (creditorKey, some sharedRotation)] =
      [ownerRotation, sharedRotation] ∧
    ¬Complete Sample.crypto [ownerRotation, sharedRotation]
      (after Sample.crypto successorInbox
        [(ownerKey, some ownerRotation), (creditorKey, some sharedRotation)]).vault := by
  refine ⟨by rfl, fun h ↦ ?_⟩
  exact absurd (h.kept ownerRotation (by simp)) (by decide +kernel)

end Servanda.Statements
