import Mathlib.Data.List.TakeWhile
import Servanda.EditScript

/-!
The hunks of a script: its stretches of changes, each with the lines around it and its place in both
sequences. Applying them needs no more of the first sequence than they show.
-/

namespace Servanda.EditScript

variable {α β : Type*}

/-- A stretch of a script, with its first line and its number of lines on either side. -/
structure Hunk (α : Type*) where
  oldStart : ℕ
  oldCount : ℕ
  newStart : ℕ
  newCount : ℕ
  body : List (Op α)
  old_length : (old body).length = oldCount
  new_length : (new body).length = newCount

def Hunk.map (f : α → β) (h : Hunk α) : Hunk β where
  oldStart := h.oldStart
  oldCount := h.oldCount
  newStart := h.newStart
  newCount := h.newCount
  body := h.body.map (Op.map f)
  old_length := by rw [old_map, List.length_map, h.old_length]
  new_length := by rw [new_map, List.length_map, h.new_length]

/-- The items shown from an item on that is shown. -/
def stretch (op : Op α) (rest : List (Op α × Bool)) : List (Op α) :=
  op :: (rest.takeWhile Prod.snd).map Prod.fst

/-- The hunks of a script of which some items are shown, from a line of either side on. -/
def hunks (oldLine newLine : ℕ) : List (Op α × Bool) → List (Hunk α)
  | [] => []
  | (op, false) :: rest =>
    hunks (oldLine + op.oldLines) (newLine + op.newLines) rest
  | (op, true) :: rest =>
    ⟨oldLine, (old (stretch op rest)).length, newLine, (new (stretch op rest)).length,
        stretch op rest, rfl, rfl⟩ ::
      hunks (oldLine + (old (stretch op rest)).length) (newLine + (new (stretch op rest)).length)
        (rest.dropWhile Prod.snd)
  termination_by marked => marked.length
  decreasing_by
    · simp
    · have := (List.dropWhile_suffix (l := rest) Prod.snd).length_le
      simp
      omega

/-- Hunks applied to a sequence from one of its lines on: each replaces the lines it shows, which
have to be there. -/
def applyHunks [DecidableEq α] (line : ℕ) : List (Hunk α) → List α → Option (List α)
  | [], r => some r
  | h :: hs, r =>
    let gap := h.oldStart - line
    if line ≤ h.oldStart ∧ gap ≤ r.length ∧ (r.drop gap).take h.oldCount = old h.body then
      (applyHunks (h.oldStart + h.oldCount) hs (r.drop (gap + h.oldCount))).map fun out ↦
        r.take gap ++ (new h.body ++ out)
    else none

/-- A script with the same items, but for the texts of those that are not shown. -/
def Agrees (marked : List (Op α × Bool)) (ops : List (Op α)) : Prop :=
  List.Forall₂ (fun m op ↦ op.kind = m.1.kind ∧ (m.2 = true → op = m.1)) marked ops

section Places

variable {marked : List (Op α × Bool)} {h : Hunk α} {n m : ℕ}

theorem hunks_skip (op : Op α) (marked : List (Op α × Bool)) :
    hunks n m ((op, false) :: marked) = hunks (n + op.oldLines) (m + op.newLines) marked := by
  rw [hunks]

theorem stretch_append (op : Op α) (rest : List (Op α × Bool)) :
    stretch op rest ++ (rest.dropWhile Prod.snd).map Prod.fst =
      ((op, true) :: rest).map Prod.fst := by
  rw [stretch, List.cons_append, ← List.map_append, List.takeWhile_append_dropWhile]
  rfl

theorem hunks_eq_nil_iff : hunks n m marked = [] ↔ ∀ item ∈ marked, item.2 = false := by
  induction n, m, marked using hunks.induct with
  | case1 n m => simp [hunks]
  | case2 n m op rest ih =>
    rw [hunks_skip, ih, List.forall_mem_cons]
    exact (and_iff_right rfl).symm
  | case3 n m op rest ih =>
    rw [hunks]
    exact iff_of_false (List.cons_ne_nil _ _) fun h ↦ by cases h (op, true) List.mem_cons_self

/-- A hunk is a part of the script, and its first lines are where that part starts. -/
theorem exists_of_mem_hunks (hmem : h ∈ hunks n m marked) :
    ∃ before after, marked.map Prod.fst = before ++ (h.body ++ after) ∧
      h.oldStart = n + (old before).length ∧ h.newStart = m + (new before).length := by
  induction n, m, marked using hunks.induct with
  | case1 n m => simp [hunks] at hmem
  | case2 n m op rest ih =>
    rw [hunks_skip] at hmem
    obtain ⟨before, after, hsplit, hold, hnew⟩ := ih hmem
    refine ⟨[op] ++ before, after, by simp [hsplit], ?_, ?_⟩
    · rw [hold, ← length_old_singleton, old_append, List.length_append, Nat.add_assoc]
    · rw [hnew, ← length_new_singleton, new_append, List.length_append, Nat.add_assoc]
  | case3 n m op rest ih =>
    rw [hunks] at hmem
    obtain rfl | hmem := List.mem_cons.1 hmem
    · exact ⟨[], (rest.dropWhile Prod.snd).map Prod.fst, (stretch_append op rest).symm, rfl, rfl⟩
    · obtain ⟨before, after, hsplit, hold, hnew⟩ := ih hmem
      refine ⟨stretch op rest ++ before, after, ?_, ?_, ?_⟩
      · rw [List.append_assoc, ← hsplit, stretch_append]
      · rw [hold, old_append, List.length_append, Nat.add_assoc]
      · rw [hnew, new_append, List.length_append, Nat.add_assoc]

/-- The lines a hunk covers are those it counts, on either side. -/
theorem covers_of_mem_hunks (hmem : h ∈ hunks n m marked) :
    ((old (marked.map Prod.fst)).drop (h.oldStart - n)).take h.oldCount = old h.body ∧
      ((new (marked.map Prod.fst)).drop (h.newStart - m)).take h.newCount = new h.body := by
  obtain ⟨before, after, hsplit, hold, hnew⟩ := exists_of_mem_hunks hmem
  rw [hsplit, hold, hnew, Nat.add_sub_cancel_left, Nat.add_sub_cancel_left, ← h.old_length,
    ← h.new_length]
  simp

theorem map_hunks (f : α → β) (n m : ℕ) (marked : List (Op α × Bool)) :
    (hunks n m marked).map (Hunk.map f) = hunks n m (marked.map (Prod.map (Op.map f) id)) := by
  induction n, m, marked using hunks.induct with
  | case1 n m => simp [hunks]
  | case2 n m op rest ih =>
    rw [hunks_skip, ih]
    exact (hunks_skip (op.map f) _).symm
  | case3 n m op rest ih =>
    have hstretch : stretch (op.map f) (rest.map (Prod.map (Op.map f) id)) =
        (stretch op rest).map (Op.map f) := by
      rw [stretch, List.takeWhile_map, List.map_map, stretch, List.map_cons, List.map_map]
      rfl
    have hdrop : (rest.map (Prod.map (Op.map f) id)).dropWhile Prod.snd =
        (rest.dropWhile Prod.snd).map (Prod.map (Op.map f) id) := by
      rw [List.dropWhile_map]
      rfl
    rw [hunks, List.map_cons, ih, List.map_cons, Prod.map, id, hunks]
    simp only [hstretch, hdrop, old_map, new_map, List.length_map]
    rfl

end Places

section Applying

variable [DecidableEq α] {marked : List (Op α × Bool)} {ops : List (Op α)} {r r' : List α} {n m : ℕ}

/-- A line before every hunk stays. -/
theorem applyHunks_cons {hs : List (Hunk α)} (hstart : ∀ h ∈ hs, n + 1 ≤ h.oldStart) (x : α)
    (r : List α) : applyHunks n hs (x :: r) = (applyHunks (n + 1) hs r).map (x :: ·) := by
  cases hs with
  | nil => rfl
  | cons h hs =>
    have hn := hstart h List.mem_cons_self
    obtain ⟨gap, hgap⟩ : ∃ gap, h.oldStart = n + 1 + gap := ⟨h.oldStart - (n + 1), by omega⟩
    have hfar : h.oldStart - n = gap + 1 := by omega
    have hnear : h.oldStart - (n + 1) = gap := by omega
    have hroom : (n ≤ h.oldStart ∧ gap + 1 ≤ (x :: r).length ∧
        ((x :: r).drop (gap + 1)).take h.oldCount = old h.body) ↔
          n + 1 ≤ h.oldStart ∧ gap ≤ r.length ∧ (r.drop gap).take h.oldCount = old h.body := by
      rw [List.drop_succ_cons, List.length_cons, Nat.add_le_add_iff_right]
      exact and_congr_left fun _ ↦ iff_of_true (by omega) hn
    have hskip : gap + 1 + h.oldCount = gap + h.oldCount + 1 := by omega
    unfold applyHunks
    dsimp only
    rw [hfar, hnear, hskip]
    by_cases hfits : n + 1 ≤ h.oldStart ∧ gap ≤ r.length ∧
        (r.drop gap).take h.oldCount = old h.body
    · rw [if_pos (hroom.2 hfits), if_pos hfits, Option.map_map]
      rfl
    · rw [if_neg fun h ↦ hfits (hroom.1 h), if_neg hfits]
      rfl

omit [DecidableEq α] in
theorem agrees_kept {body : List (Op α × Bool)} (hbody : ∀ m ∈ body, m.2 = true) :
    Agrees (body ++ marked) ops ↔ ∃ rest, ops = body.map Prod.fst ++ rest ∧ Agrees marked rest := by
  induction body generalizing ops with
  | nil => simp
  | cons m body ih =>
    obtain ⟨hm, hbody⟩ := List.forall_mem_cons.1 hbody
    rw [List.cons_append, Agrees, List.forall₂_cons_left_iff]
    constructor
    · rintro ⟨op, tail, ⟨-, hop⟩, htail, rfl⟩
      obtain ⟨rest, rfl, hrest⟩ := (ih hbody).1 htail
      exact ⟨rest, by rw [hop hm]; rfl, hrest⟩
    · rintro ⟨rest, rfl, hrest⟩
      exact ⟨m.1, _, ⟨rfl, fun _ ↦ rfl⟩, (ih hbody).2 ⟨rest, rfl, hrest⟩, rfl⟩

/-- The hunks of a script apply to a sequence exactly where it shows what they do, and leave what
they do not show as it is. -/
theorem applyHunks_iff (hcontext : ∀ m ∈ marked, m.2 = false → m.1.kind = .context)
    (hlength : r.length = (old (marked.map Prod.fst)).length) :
    applyHunks n (hunks n m marked) r = some r' ↔
      ∃ ops, Agrees marked ops ∧ old ops = r ∧ new ops = r' := by
  induction n, m, marked using hunks.induct generalizing r r' with
  | case1 n m =>
    rw [List.length_eq_zero_iff.1 hlength, hunks, applyHunks, Option.some.injEq]
    constructor
    · rintro rfl
      exact ⟨[], .nil, rfl, rfl⟩
    · rintro ⟨ops, hagrees, -, rfl⟩
      cases hagrees
      rfl
  | case2 n m op rest ih =>
    obtain ⟨hop, hrest⟩ := List.forall_mem_cons.1 hcontext
    obtain ⟨kind, x⟩ := op
    obtain rfl : kind = .context := hop rfl
    rw [List.map_cons, old_context, List.length_cons] at hlength
    obtain ⟨y, r, rfl⟩ := List.exists_cons_of_length_eq_add_one hlength
    have hstart : ∀ h ∈ hunks (n + 1) (m + 1) rest, n + 1 ≤ h.oldStart := fun h hmem ↦ by
      obtain ⟨before, -, -, hold, -⟩ := exists_of_mem_hunks hmem
      omega
    have hline : hunks n m ((⟨.context, x⟩, false) :: rest) = hunks (n + 1) (m + 1) rest :=
      hunks_skip _ _
    have hlater : ∀ out, applyHunks (n + 1) (hunks (n + 1) (m + 1) rest) r = some out ↔
        ∃ ops, Agrees rest ops ∧ old ops = r ∧ new ops = out :=
      fun out ↦ ih hrest (Nat.succ.inj hlength)
    rw [hline, applyHunks_cons hstart, Option.map_eq_some_iff]
    simp only [hlater]
    constructor
    · rintro ⟨_, ⟨ops, hagrees, rfl, rfl⟩, rfl⟩
      exact ⟨⟨.context, y⟩ :: ops, .cons ⟨rfl, nofun⟩ hagrees, rfl, rfl⟩
    · rintro ⟨_, hagrees, hold, rfl⟩
      obtain ⟨⟨kind, z⟩, ops, ⟨hkind, -⟩, hops, rfl⟩ := List.forall₂_cons_left_iff.1 hagrees
      obtain rfl : kind = .context := hkind
      obtain ⟨rfl, rfl⟩ := List.cons.inj hold
      exact ⟨new ops, ⟨ops, hops, rfl, rfl⟩, rfl⟩
  | case3 n m op rest ih =>
    have hfront : ∀ m ∈ (op, true) :: rest.takeWhile Prod.snd, m.2 = true :=
      List.forall_mem_cons.2 ⟨rfl, fun m hm ↦ List.mem_takeWhile_imp (p := Prod.snd) hm⟩
    have hmarked : (op, true) :: rest =
        ((op, true) :: rest.takeWhile Prod.snd) ++ rest.dropWhile Prod.snd :=
      congrArg _ List.takeWhile_append_dropWhile.symm
    have hfirst : ((op, true) :: rest.takeWhile Prod.snd).map Prod.fst = stretch op rest := rfl
    have hrest : ∀ m ∈ rest.dropWhile Prod.snd, m.2 = false → m.1.kind = .context := fun m hm ↦
      hcontext m (List.mem_cons_of_mem _ ((List.dropWhile_suffix _).subset hm))
    rw [hmarked, List.map_append, hfirst, old_append, List.length_append] at hlength
    have hdrop : (r.drop (old (stretch op rest)).length).length =
        (old ((rest.dropWhile Prod.snd).map Prod.fst)).length := by
      rw [List.length_drop]
      omega
    have hagrees : ∀ ops, Agrees ((op, true) :: rest) ops ↔
        ∃ ops', ops = stretch op rest ++ ops' ∧ Agrees (rest.dropWhile Prod.snd) ops' := by
      intro ops
      rw [hmarked, agrees_kept hfront, hfirst]
    rw [hunks, applyHunks]
    simp only [Nat.sub_self, List.drop_zero, Nat.zero_add, List.take_zero, List.nil_append,
      le_refl, Nat.zero_le, true_and, hagrees]
    constructor
    · intro h
      split_ifs at h with hfits
      obtain ⟨out, hout, rfl⟩ := Option.map_eq_some_iff.1 h
      obtain ⟨ops, hops, hold, rfl⟩ := (ih hrest hdrop).1 hout
      refine ⟨stretch op rest ++ ops, ⟨ops, rfl, hops⟩, ?_, new_append _ _⟩
      rw [old_append, hold]
      exact (congrArg (· ++ r.drop (old (stretch op rest)).length) hfits.symm).trans
        (List.take_append_drop _ _)
    · rintro ⟨_, ⟨ops, rfl, hops⟩, rfl, rfl⟩
      rw [old_append, List.take_left, if_pos rfl, List.drop_left, new_append,
        (ih hrest (by simpa using hdrop)).2 ⟨ops, hops, by simp, rfl⟩]
      rfl

omit [DecidableEq α] in
theorem agrees_append {front back : List (Op α × Bool)} (h : Agrees (front ++ back) ops) :
    ∃ ops₁ ops₂, ops = ops₁ ++ ops₂ ∧ Agrees front ops₁ ∧ Agrees back ops₂ := by
  induction front generalizing ops with
  | nil => exact ⟨[], ops, rfl, .nil, h⟩
  | cons m front ih =>
    rw [List.cons_append, Agrees, List.forall₂_cons_left_iff] at h
    obtain ⟨op, rest, hop, hrest, rfl⟩ := h
    obtain ⟨ops₁, ops₂, rfl, hfront, hback⟩ := ih hrest
    exact ⟨op :: ops₁, ops₂, rfl, .cons hop hfront, hback⟩

omit [DecidableEq α] in
theorem agrees_self (marked : List (Op α × Bool)) : Agrees marked (marked.map Prod.fst) := by
  rw [Agrees, List.forall₂_map_right_iff]
  exact List.forall₂_same.2 fun m _ ↦ ⟨rfl, fun _ ↦ rfl⟩

omit [DecidableEq α] in
/-- Additions alone take nothing from the first sequence. -/
theorem old_eq_nil_of_agrees (h : Agrees marked ops)
    (hadditions : ∀ m ∈ marked, m.1.kind = .addition) : old ops = [] := by
  induction h with
  | nil => rfl
  | @cons m op marked ops hop hrest ih =>
    obtain ⟨hm, hmarked⟩ := List.forall_mem_cons.1 hadditions
    obtain ⟨kind, x⟩ := op
    obtain rfl : kind = .addition := hop.1.trans hm
    exact ih hmarked

end Applying

end Servanda.EditScript
