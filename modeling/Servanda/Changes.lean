import Mathlib.Data.Finset.Basic
import Mathlib.Data.List.AList

/-!
Changes to a map that are kept apart from it: what is put and what is dropped, the map that they come
to, and changes of one place each that are made one after another.
-/

namespace Servanda.Changes

variable {κ ν : Type}

section Overlays

variable [DecidableEq κ]

/-- What is put at some keys, and the keys that are dropped. -/
structure Overlay (κ ν : Type) [DecidableEq κ] where
  puts : AList fun _ : κ ↦ ν
  drops : Finset κ
  apart : ∀ k ∈ drops, k ∉ puts

def Overlay.empty : Overlay κ ν := ⟨∅, ∅, fun _ h ↦ absurd h (Finset.notMem_empty _)⟩

def Overlay.put (o : Overlay κ ν) (k : κ) (v : ν) : Overlay κ ν where
  puts := o.puts.insert k v
  drops := o.drops.erase k
  apart := by
    intro k' hdrop hput
    obtain ⟨hne, hdrop⟩ := Finset.mem_erase.mp hdrop
    obtain heq | hput := (AList.mem_insert _).mp hput
    · exact hne heq
    · exact o.apart k' hdrop hput

def Overlay.drop (o : Overlay κ ν) (k : κ) : Overlay κ ν where
  puts := o.puts.erase k
  drops := insert k o.drops
  apart := by
    intro k' hdrop hput
    obtain ⟨hne, hput⟩ := AList.mem_erase.mp hput
    obtain heq | hdrop := Finset.mem_insert.mp hdrop
    · exact hne heq
    · exact o.apart k' hdrop hput

/-- The map that an overlay comes to. -/
def Overlay.over (o : Overlay κ ν) (base : κ → Option ν) (k : κ) : Option ν :=
  if k ∈ o.drops then none else (o.puts.lookup k).or (base k)

variable (o : Overlay κ ν) (base : κ → Option ν)

theorem Overlay.over_empty : Overlay.empty.over base = base := by
  funext k
  simp [Overlay.over, empty]

theorem Overlay.over_put (k : κ) (v : ν) :
    (o.put k v).over base = Function.update (o.over base) k (some v) := by
  funext k'
  by_cases heq : k' = k
  · subst heq
    simp [Overlay.over, put]
  · simp [Overlay.over, put, heq]

theorem Overlay.over_drop (k : κ) :
    (o.drop k).over base = Function.update (o.over base) k none := by
  funext k'
  by_cases heq : k' = k
  · subst heq
    simp [Overlay.over, drop]
  · simp [Overlay.over, drop, heq]

variable {o base}

theorem Overlay.over_of_put {k : κ} {v : ν} (h : o.puts.lookup k = some v) :
    o.over base k = some v := by
  have hput : k ∈ o.puts := AList.lookup_isSome.mp (by rw [h]; rfl)
  rw [Overlay.over, if_neg fun hdrop ↦ o.apart k hdrop hput, h, Option.some_or]

theorem Overlay.over_of_drop {k : κ} (h : k ∈ o.drops) : o.over base k = none := if_pos h

/-- An overlay changes nothing elsewhere. -/
theorem Overlay.over_of_notMem {k : κ} (hput : k ∉ o.puts) (hdrop : k ∉ o.drops) :
    o.over base k = base k := by
  rw [Overlay.over, if_neg hdrop, AList.lookup_eq_none.mpr hput, Option.none_or]

end Overlays

/-- A change of what a map has at one key, where it can be made. -/
structure Patch (κ ν : Type) where
  key : κ
  change : Option ν → Option (Option ν)

section Patches

variable [DecidableEq κ]

def Patch.apply (p : Patch κ ν) (m : κ → Option ν) : Option (κ → Option ν) :=
  (p.change (m p.key)).map (Function.update m p.key)

/-- Changes made one after another. -/
def applyAll (ps : List (Patch κ ν)) (m : κ → Option ν) : Option (κ → Option ν) :=
  ps.foldlM (fun m p ↦ p.apply m) m

/-- Changes at keys that differ do not see one another. -/
theorem applyAll_eq_some_iff {ps : List (Patch κ ν)} (hkeys : (ps.map Patch.key).Nodup)
    {m m' : κ → Option ν} : applyAll ps m = some m' ↔
      (∀ p ∈ ps, p.change (m p.key) = some (m' p.key)) ∧ ∀ k ∉ ps.map Patch.key, m' k = m k := by
  induction ps generalizing m with
  | nil =>
    simp only [applyAll, List.foldlM_nil, List.map_nil, List.not_mem_nil, not_false_eq_true,
      true_implies, false_implies, implies_true, true_and]
    exact ⟨fun h k ↦ congrFun (Option.some.inj h).symm k, fun h ↦ congrArg some (funext h).symm⟩
  | cons p ps ih =>
    rw [List.map_cons, List.nodup_cons] at hkeys
    obtain ⟨hfirst, hrest⟩ := hkeys
    have hne {q : Patch κ ν} (hq : q ∈ ps) : q.key ≠ p.key := fun heq ↦
      hfirst (heq ▸ List.mem_map_of_mem hq)
    have hstep : applyAll (p :: ps) m = (p.apply m).bind (applyAll ps) := List.foldlM_cons
    rw [hstep, Patch.apply]
    cases hchange : p.change (m p.key) with
    | none =>
      refine iff_of_false nofun fun h ↦ ?_
      rw [h.1 p List.mem_cons_self] at hchange
      cases hchange
    | some v =>
      rw [Option.map_some, Option.bind_some, ih hrest, List.forall_mem_cons, hchange,
        Option.some.injEq]
      constructor
      · rintro ⟨hchanges, hothers⟩
        refine ⟨⟨?_, fun q hq ↦ ?_⟩, fun k hk ↦ ?_⟩
        · rw [hothers p.key hfirst, Function.update_self]
        · rw [← hchanges q hq, Function.update_of_ne (hne hq)]
        · rw [List.map_cons, List.mem_cons, not_or] at hk
          rw [hothers k hk.2, Function.update_of_ne hk.1]
      · rintro ⟨⟨rfl, hchanges⟩, hothers⟩
        refine ⟨fun q hq ↦ ?_, fun k hk ↦ ?_⟩
        · rw [Function.update_of_ne (hne hq), hchanges q hq]
        · by_cases heq : k = p.key
          · rw [heq, Function.update_self]
          · rw [Function.update_of_ne heq]
            exact hothers k fun hmem ↦ (List.mem_cons.mp hmem).elim heq hk

end Patches

end Servanda.Changes
