import Servanda.Register
import Servanda.StableSort

namespace Servanda.Brief

open ServandaNode StableSort

variable (crypto : Crypto) (now : Rfc3339)

def slotsOf (persona : PublicKeyHex) (out : BriefOutput) : List BriefSlot :=
  out.slots.filter fun slot ↦ slot.persona = persona

/-- What a key tells besides the record it stands for, with the shadow that an edge casts on it. -/
def exposed (node : ServandaNode) (key : OrderingKey) :
    OrderingKind × Rfc3339 × Option Rfc3339 × ℕ × Bool :=
  (key.kind, key.since, key.due, key.blockingCount, node.supersededByAnEdge key)

/-- Two nodes with the same records of one persona, and with ordering keys of every other that
differ in the records they stand for alone. -/
structure AgreeFor (persona : PublicKeyHex) (node₁ node₂ : ServandaNode) : Prop where
  personas : node₁.personas = node₂.personas
  own : node₁.vault persona = node₂.vault persona
  others : ∀ other, other ≠ persona → (node₁.listOrderingKeys other).map (exposed node₁) =
    (node₂.listOrderingKeys other).map (exposed node₂)

/-- Two keys of one persona that tell the same, and of the persona in question the same key. -/
structure Alike (persona : PublicKeyHex) (node₁ node₂ : ServandaNode) (key₁ key₂ : OrderingKey) :
    Prop where
  holder : key₁.persona = key₂.persona
  told : exposed node₁ key₁ = exposed node₂ key₂
  own : key₁.persona = persona → key₁ = key₂

variable {crypto now} {node node₁ node₂ : ServandaNode} {persona : PublicKeyHex} {key : OrderingKey}

theorem rank_congr {key₁ key₂ : OrderingKey} (hsince : key₁.since = key₂.since)
    (hdue : key₁.due = key₂.due) (hcount : key₁.blockingCount = key₂.blockingCount) :
    rank key₁ now = rank key₂ now := by
  unfold rank
  rw [hsince, hdue, hcount]

theorem persona_of_mem_listOrderingKeys (h : key ∈ node.listOrderingKeys persona) :
    key.persona = persona := by
  simp only [listOrderingKeys, Subtree.listOrderingKeys, List.mem_append, List.mem_map] at h
  obtain (⟨_, _, rfl⟩ | ⟨_, _, rfl⟩) | ⟨_, _, rfl⟩ := h <;> rfl

theorem persona_of_slotFor {slot : BriefSlot} (h : node.slotFor crypto now key = some slot) :
    slot.persona = key.persona := by
  unfold slotFor at h
  split at h <;>
  · obtain ⟨_, _, rfl⟩ := Option.map_eq_some_iff.mp h
    rfl

theorem slotFor_congr (h : node₁.vault key.persona = node₂.vault key.persona) :
    node₁.slotFor crypto now key = node₂.slotFor crypto now key := by
  simp only [slotFor, edgeActions, edgeState, acceptanceWindowElapsed, h]

theorem filter_filterMap_slotFor (keys : List OrderingKey) :
    (keys.filterMap (node.slotFor crypto now)).filter (fun slot ↦ slot.persona = persona) =
      (keys.filter fun key ↦ key.persona = persona).filterMap (node.slotFor crypto now) := by
  induction keys with
  | nil => rfl
  | cons key keys ih =>
    cases hslot : node.slotFor crypto now key with
    | none =>
      rw [List.filterMap_cons_none hslot, ih, List.filter_cons]
      split_ifs
      · rw [List.filterMap_cons_none hslot]
      · rfl
    | some slot =>
      have hpersona := persona_of_slotFor hslot
      rw [List.filterMap_cons_some hslot, List.filter_cons, List.filter_cons, ih, hpersona]
      split_ifs
      · rw [List.filterMap_cons_some hslot]
      · rfl

theorem filter_listOrderingKeysAcrossPersonas (h : persona ∈ node.personas) :
    (node.listOrderingKeysAcrossPersonas.filter fun key ↦ key.persona = persona) =
      node.listOrderingKeys persona := by
  have hown (other : PublicKeyHex) :
      ((node.listOrderingKeys other).filter fun key ↦ key.persona = persona) =
        if other = persona then node.listOrderingKeys persona else [] := by
    split_ifs with ho
    · subst ho
      exact List.filter_eq_self.mpr fun key hk ↦ by simpa using persona_of_mem_listOrderingKeys hk
    · apply List.filter_eq_nil_iff.mpr
      intro key hk
      simpa [persona_of_mem_listOrderingKeys hk] using ho
  have hmerge (personas : List PublicKeyHex) (hnodup : personas.Nodup) (hmem : persona ∈ personas) :
      ((personas.flatMap node.listOrderingKeys).filter fun key ↦ key.persona = persona) =
        node.listOrderingKeys persona := by
    obtain ⟨before, after, rfl⟩ := List.append_of_mem hmem
    have hnone {others : List PublicKeyHex} (ho : persona ∉ others) :
        ((others.flatMap node.listOrderingKeys).filter fun key ↦ key.persona = persona) = [] := by
      apply List.filter_eq_nil_iff.mpr
      intro key hk
      obtain ⟨other, hother, hk⟩ := List.mem_flatMap.mp hk
      rw [decide_eq_true_eq, persona_of_mem_listOrderingKeys hk]
      rintro rfl
      exact ho hother
    have hbefore : persona ∉ before := fun hb ↦
      List.disjoint_of_nodup_append hnodup hb List.mem_cons_self
    have hafter : persona ∉ after :=
      (List.nodup_cons.mp (List.Nodup.of_append_right hnodup)).1
    rw [List.flatMap_append, List.filter_append, hnone hbefore, List.flatMap_cons,
      List.filter_append, hnone hafter, hown, if_pos rfl]
    simp
  exact hmerge node.personas node.personas_nodup h

instance : Std.Total fun a b : OrderingKey ↦ (rank b now).score ≤ (rank a now).score :=
  ⟨fun _ _ ↦ le_total _ _⟩

instance : IsTrans OrderingKey fun a b ↦ (rank b now).score ≤ (rank a now).score :=
  ⟨fun _ _ _ hab hbc ↦ hbc.trans hab⟩

theorem filter_ranked (keys : List OrderingKey) :
    ((node.ranked now keys).filter fun key ↦ key.persona = persona) =
      node.ranked now (keys.filter fun key ↦ key.persona = persona) := by
  rw [ranked, ranked, filter_insertionSort, List.filter_filter, List.filter_filter]
  simp only [Bool.and_comm]

/-- The slots of one persona in the brief of all are a prefix of its own brief's. -/
theorem filter_slots_isPrefix (briefSlots : ℕ) (keys : List OrderingKey) :
    ((node.slots crypto now briefSlots keys).filter fun slot ↦ slot.persona = persona) <+:
      node.slots crypto now briefSlots (keys.filter fun key ↦ key.persona = persona) := by
  rw [slots, slots, filter_filterMap_slotFor, ← filter_ranked]
  exact (filter_take_isPrefix _ briefSlots _).filterMap _

namespace AgreeFor

variable (h : AgreeFor persona node₁ node₂)

include h

theorem alike_listOrderingKeys (other : PublicKeyHex) :
    List.Forall₂ (Alike persona node₁ node₂) (node₁.listOrderingKeys other)
      (node₂.listOrderingKeys other) := by
  by_cases ho : other = persona
  · subst ho
    have hkeys : node₂.listOrderingKeys other = node₁.listOrderingKeys other := by
      simp only [listOrderingKeys, h.own]
    rw [hkeys, List.forall₂_same]
    intro key hk
    have hvault : node₁.vault key.persona = node₂.vault key.persona := by
      rw [persona_of_mem_listOrderingKeys hk, h.own]
    exact ⟨rfl, by simp only [exposed, supersededByAnEdge, hvault], fun _ ↦ rfl⟩
  · have hexposed : List.Forall₂ (fun key₁ key₂ ↦ exposed node₁ key₁ = exposed node₂ key₂)
        (node₁.listOrderingKeys other) (node₂.listOrderingKeys other) := by
      have heq := h.others other ho
      rwa [← List.forall₂_eq_eq_eq, List.forall₂_map_left_iff, List.forall₂_map_right_iff] at heq
    rw [List.forall₂_iff_get] at hexposed ⊢
    obtain ⟨hlength, hget⟩ := hexposed
    refine ⟨hlength, fun i h₁ h₂ ↦ ?_⟩
    have hp₁ := persona_of_mem_listOrderingKeys (List.get_mem (node₁.listOrderingKeys other) ⟨i, h₁⟩)
    have hp₂ := persona_of_mem_listOrderingKeys (List.get_mem (node₂.listOrderingKeys other) ⟨i, h₂⟩)
    exact ⟨hp₁.trans hp₂.symm, hget i h₁ h₂, fun hown ↦ absurd (hp₁.symm.trans hown) ho⟩

theorem alike_listOrderingKeysAcrossPersonas :
    List.Forall₂ (Alike persona node₁ node₂) node₁.listOrderingKeysAcrossPersonas
      node₂.listOrderingKeysAcrossPersonas := by
  unfold listOrderingKeysAcrossPersonas
  rw [h.personas]
  induction node₂.personas with
  | nil => exact .nil
  | cons other others ih => exact List.rel_append (h.alike_listOrderingKeys other) ih

omit h in
theorem alike_ranked {keys₁ keys₂ : List OrderingKey}
    (hkeys : List.Forall₂ (Alike persona node₁ node₂) keys₁ keys₂) :
    List.Forall₂ (Alike persona node₁ node₂) (node₁.ranked now keys₁) (node₂.ranked now keys₂) := by
  refine forall₂_insertionSort ?_ (List.rel_filter ?_ hkeys)
  · intro a b c d hab hcd
    obtain ⟨-, hsince, hdue, hcount, -⟩ := by simpa only [exposed, Prod.mk.injEq] using hab.told
    obtain ⟨-, hsince', hdue', hcount', -⟩ := by
      simpa only [exposed, Prod.mk.injEq] using hcd.told
    rw [rank_congr hsince hdue hcount, rank_congr hsince' hdue' hcount']
  · intro a b hab
    obtain ⟨-, -, -, -, hshadow⟩ := by simpa only [exposed, Prod.mk.injEq] using hab.told
    dsimp only
    rw [hshadow]

/-- The slots of the persona do not depend on what the others' records say. -/
theorem filter_slots_eq (briefSlots : ℕ) {keys₁ keys₂ : List OrderingKey}
    (hkeys : List.Forall₂ (Alike persona node₁ node₂) keys₁ keys₂) :
    (node₁.slots crypto now briefSlots keys₁).filter (fun slot ↦ slot.persona = persona) =
      (node₂.slots crypto now briefSlots keys₂).filter fun slot ↦ slot.persona = persona := by
  have hranked : List.Forall₂ (Alike persona node₁ node₂) (node₁.ranked now keys₁)
    (node₂.ranked now keys₂) := alike_ranked hkeys
  have htake := List.forall₂_take briefSlots hranked
  rw [slots, slots, filter_filterMap_slotFor, filter_filterMap_slotFor]
  generalize (node₁.ranked now keys₁).take briefSlots = best₁ at htake ⊢
  generalize (node₂.ranked now keys₂).take briefSlots = best₂ at htake ⊢
  induction htake with
  | nil => rfl
  | @cons key₁ key₂ _ _ hkey _ ih =>
    rw [List.filter_cons, List.filter_cons, ← hkey.holder]
    split_ifs with hown
    · rw [decide_eq_true_eq] at hown
      have hslot : node₁.slotFor crypto now key₁ = node₂.slotFor crypto now key₁ :=
        slotFor_congr (by rw [hown, h.own])
      rw [← hkey.own hown, List.filterMap_cons, List.filterMap_cons, ih, hslot]
    · exact ih

end AgreeFor

theorem slots_of_stranger {briefSlots : ℕ} {keys : List OrderingKey}
    (h : ∀ key ∈ keys, key.persona ≠ persona) :
    (node.slots crypto now briefSlots keys).filter (fun slot ↦ slot.persona = persona) = [] := by
  have hnone : keys.filter (fun key ↦ key.persona = persona) = [] := by simpa using h
  have hprefix := @filter_slots_isPrefix crypto now node persona briefSlots keys
  rw [hnone] at hprefix
  exact List.prefix_nil.mp (by simpa [slots, ranked] using hprefix)

theorem slotsOf_isPrefix (briefSlots : ℕ) (persona : PublicKeyHex) (node : ServandaNode) :
    (node.slots crypto now briefSlots node.listOrderingKeysAcrossPersonas).filter
        (fun slot ↦ slot.persona = persona) <+:
      node.slots crypto now briefSlots (node.listOrderingKeys persona) := by
  by_cases hmem : persona ∈ node.personas
  · rw [← filter_listOrderingKeysAcrossPersonas hmem]
    exact filter_slots_isPrefix briefSlots _
  · rw [slots_of_stranger]
    · exact List.nil_prefix
    · intro key hk
      obtain ⟨other, hother, hk⟩ := List.mem_flatMap.mp hk
      rw [persona_of_mem_listOrderingKeys hk]
      rintro rfl
      exact hmem hother

/-- The brief of all personas merges their own briefs and mixes nothing. -/
theorem brief_merges (crypto : Crypto) (now : Rfc3339) (briefSlots : ℕ) (persona : PublicKeyHex) :
    (∀ node : ServandaNode, ∃ merged own, node.brief crypto now briefSlots none = some merged ∧
      node.brief crypto now briefSlots (some (.key persona)) = some own ∧
      slotsOf persona merged <+: own.slots) ∧
    ∀ node₁ node₂ : ServandaNode, AgreeFor persona node₁ node₂ →
      ∃ merged₁ merged₂, node₁.brief crypto now briefSlots none = some merged₁ ∧
        node₂.brief crypto now briefSlots none = some merged₂ ∧
        slotsOf persona merged₁ = slotsOf persona merged₂ := by
  refine ⟨fun node ↦ ⟨_, _, rfl, rfl, slotsOf_isPrefix briefSlots persona node⟩, ?_⟩
  intro node₁ node₂ h
  exact ⟨_, _, rfl, rfl, h.filter_slots_eq briefSlots h.alike_listOrderingKeysAcrossPersonas⟩

section TwoPersonas

open Sample

def said (words : String) : Expectation := ⟨words, .persona nextKey, date 3 1 9, none, .opened⟩

/-- A node with two personas, each with one expectation of the same date. -/
def twoPersonas (words : String) : ServandaNode where
  activePersona := ownerKey
  personas := [ownerKey, creditorKey]
  label _ := "me"
  vault persona := Subtree.empty.putExpectation evidence
    (said (if persona = ownerKey then "the answer" else words))
  pending _ := []

theorem words_unseen : ∃ merged₁ merged₂,
    (twoPersonas "the draft").brief Sample.crypto (date 3 2 9) 1 none = some merged₁ ∧
      (twoPersonas "the deck").brief Sample.crypto (date 3 2 9) 1 none = some merged₂ ∧
      slotsOf ownerKey merged₁ = slotsOf ownerKey merged₂ := by
  have hagree : AgreeFor ownerKey (twoPersonas "the draft") (twoPersonas "the deck") :=
    ⟨rfl, rfl, fun other _ ↦ rfl⟩
  exact (brief_merges Sample.crypto (date 3 2 9) 1 ownerKey).2 _ _ hagree

end TwoPersonas

end Servanda.Brief
