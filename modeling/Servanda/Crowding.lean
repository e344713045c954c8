import Servanda.Bounding
import Servanda.Parse

/-!
A payload array with more items than an envelope has octets is dropped, and with it every member whose
name comes after its own.
-/

namespace Servanda

open Unicode FirstFit

theorem Members.eq_of_only {ms : Members} {key : Text} {value : Json} (hnodup : ms.keys.Nodup)
    (h : ∀ k v, ms.get? k = some v → k = key ∧ v = value) : ms = [] ∨ ms = [(key, value)] := by
  have hall : ∀ m ∈ ms, m = (key, value) := by
    intro m hm
    obtain ⟨hkey, hvalue⟩ := h m.1 m.2 (Members.get?_of_mem hnodup hm)
    exact Prod.ext hkey hvalue
  cases ms with
  | nil => exact .inl rfl
  | cons m ms =>
    obtain ⟨hfirst, hrest⟩ := List.forall_mem_cons.1 hall
    cases ms with
    | nil => exact .inr (by rw [hfirst])
    | cons m' ms =>
      have hsame : m' = m := (hrest m' List.mem_cons_self).trans hfirst.symm
      rw [hsame] at hnodup
      simp [Members.keys] at hnodup

section Written

variable {depth : ℕ} {cs : List Char} {items : List Json} {members : Members} {m : Text × Json}

theorem length_le_octets_array (h : write depth (.arr items) = some cs) :
    items.length ≤ octetsOf cs := by
  rw [write] at h
  split at h
  · cases h
  · obtain ⟨pieces, hpieces, rfl⟩ := Option.map_eq_some_iff.1 h
    have hlength : pieces.length = items.length := by
      rw [(writeItems_eq_some hpieces).1, List.length_map]
    have hopen : octetsOf ['['] = 1 := by decide
    have hclose : octetsOf [']'] = 1 := by decide
    rw [octetsOf_append, octetsOf_cons, octetsOf_commas, hopen, hclose]
    omega

theorem octets_member_le (h : write depth (.obj members) = some cs) (hm : m ∈ members) :
    ∃ piece, write (depth + 1) m.2 = some piece ∧ octetsOf piece ≤ octetsOf cs := by
  rw [write] at h
  split at h
  · cases h
  · obtain ⟨pieces, hpieces, rfl⟩ := Option.map_eq_some_iff.1 h
    obtain ⟨hwritten, hall⟩ := writeMembers_eq_some hpieces
    refine ⟨_, hall m hm, ?_⟩
    have hmem : (m.1, written (depth + 1) m.2) ∈ pieces := by
      rw [hwritten]
      exact List.mem_map_of_mem hm
    have hsum := List.single_le_sum (fun _ _ ↦ Nat.zero_le _) _
      (List.mem_map_of_mem (f := fun m ↦ octetsOf (writeMember m)) hmem)
    have hvalue : octetsOf (written (depth + 1) m.2) ≤
        octetsOf (writeMember (m.1, written (depth + 1) m.2)) := by
      rw [writeMember, octetsOf_append, octetsOf_cons]
      dsimp only
      omega
    rw [octetsOf_object]
    omega

end Written

namespace UnidentifiedEnvelope

variable {candidate e : UnidentifiedEnvelope} {key k : Text} {items : List Json} {bytes : List UInt8}

theorem length_le_canonicalBytes (h : canonicalBytes e.toJson = some bytes)
    (hget : e.payload.get? key = some (.arr items)) : items.length ≤ bytes.length := by
  obtain ⟨cs, hcs, rfl⟩ := Option.map_eq_some_iff.1 h
  have hpayload : (text "payload", Json.obj e.payload) ∈
      (text "v", Json.str protocolVersion) :: (text "type", .str (text "envelope")) :: e.described := by
    simp [described]
  obtain ⟨piece, hpiece, hle⟩ := octets_member_le hcs hpayload
  obtain ⟨piece', hpiece', hle'⟩ := octets_member_le hpiece (Members.mem_of_get? hget)
  exact (length_le_octets_array hpiece').trans (hle'.trans hle)

/-- How far the names are dropped: not at all, or from the end of their order to somewhere. -/
theorem reduction_cases : candidate.reduction.dropped = [] ∨
    candidate.reduction.allowance = 64 ∧ candidate.reduction.dropped <+: candidate.dropOrder := by
  have hmem : candidate.reduction ∈ candidate.memberBounds ::
    (candidate.allowanceCuts ++ candidate.memberCuts ++ candidate.refCuts) := choose_mem
  obtain ⟨r, hr⟩ : ∃ r, candidate.reduction = r := ⟨_, rfl⟩
  rw [hr] at hmem ⊢
  simp only [allowanceCuts, memberCuts, refCuts, List.mem_cons, List.mem_append, List.mem_map] at hmem
  obtain rfl | (⟨n, -, rfl⟩ | ⟨dropped, hdropped, rfl⟩) | ⟨refs, -, rfl⟩ := hmem
  · exact .inl rfl
  · exact .inl rfl
  · exact .inr ⟨rfl, (List.mem_inits _ _).1 (List.mem_of_mem_tail hdropped)⟩
  · exact .inr ⟨rfl, List.prefix_rfl⟩

theorem mem_dropOrder {v : Json} (hnodup : candidate.payload.keys.Nodup)
    (hproto : key ≠ Members.protoKey) (hkey : ∀ k, key ≠ lengthKey k)
    (hget : candidate.payload.get? key = some v) : key ∈ candidate.dropOrder := by
  have hbounded := @get?_boundMembers_plain 64 1 candidate.payload false key hnodup hproto hkey
  rw [hget] at hbounded
  rw [dropOrder, List.mem_reverse, List.mem_insertionSort]
  exact List.mem_map_of_mem (f := Prod.fst) (Members.mem_of_get? hbounded)

theorem reduction_refs : candidate.reduction.refs <+: candidate.boundedRefs := by
  have hmem : candidate.reduction ∈ candidate.memberBounds ::
    (candidate.allowanceCuts ++ candidate.memberCuts ++ candidate.refCuts) := choose_mem
  obtain ⟨r, hr⟩ : ∃ r, candidate.reduction = r := ⟨_, rfl⟩
  rw [hr] at hmem ⊢
  simp only [allowanceCuts, memberCuts, refCuts, List.mem_cons, List.mem_append, List.mem_map] at hmem
  obtain rfl | (⟨n, -, rfl⟩ | ⟨dropped, -, rfl⟩) | ⟨refs, hrefs, rfl⟩ := hmem
  · exact List.prefix_rfl
  · exact List.prefix_rfl
  · exact List.prefix_rfl
  · exact (List.mem_inits _ _).1 (List.mem_reverse.1 (List.mem_of_mem_tail hrefs))

/-- An array too long for any envelope is dropped. -/
theorem mem_dropped_of_crowded (hnodup : candidate.payload.keys.Nodup)
    (hproto : key ≠ Members.protoKey) (hkey : ∀ k, key ≠ lengthKey k)
    (hget : candidate.payload.get? key = some (.arr items))
    (hcrowd : maxEnvelopeOctets < items.length) : key ∈ candidate.reduction.dropped := by
  cases hbig : (candidate.reduced candidate.reduction).tooBig with
  | true =>
    have hlast := @reduction_last candidate (by rw [fits, hbig]; rfl)
    rw [hlast]
    exact mem_dropOrder hnodup hproto hkey hget
  | false =>
    by_contra hkept
    have hdropped : ¬Dropped candidate.reduction.dropped key := by
      rintro ⟨k, hk, rfl | hlength⟩
      · exact hkept hk
      · exact hkey k hlength
    obtain ⟨bytes, hbytes, hle⟩ := (tooBig_eq_false_iff reduced_within).1 hbig
    have hreduced : (candidate.reduced candidate.reduction).payload.get? key =
        some (.arr (boundItems candidate.reduction.allowance 2 items).1) := by
      have hbound := get?_bound hnodup hproto hkey
      rw [bound_eq, if_neg hdropped, hget] at hbound
      exact hbound
    have hlength := length_le_canonicalBytes hbytes hreduced
    rw [boundItems_eq, List.length_map] at hlength
    omega

/-- What is dropped from the end of an order holds all that comes after any of it. -/
theorem mem_prefix_of_le {dropped order : List Text} (horder : order.Pairwise (· ≥ ·))
    (hdropped : dropped <+: order) (hkey : key ∈ dropped) (hk : k ∈ order) (hle : key ≤ k) :
    k ∈ dropped := by
  obtain ⟨rest, rfl⟩ := hdropped
  obtain hdropped | hrest := List.mem_append.1 hk
  · exact hdropped
  · have hge : key ≥ k := (List.pairwise_append.1 horder).2.2 key hkey k hrest
    exact le_antisymm hle hge ▸ hkey

theorem dropOrder_pairwise : candidate.dropOrder.Pairwise (· ≥ ·) := by
  rw [dropOrder, List.pairwise_reverse]
  exact List.pairwise_insertionSort _ _

/-- With an array that is too long goes every member whose name comes after its own. -/
theorem get?_bound_of_crowded {v : Json} (hnodup : candidate.payload.keys.Nodup)
    (hproto : key ≠ Members.protoKey) (hkey : ∀ k, key ≠ lengthKey k)
    (hget : candidate.payload.get? key = some (.arr items))
    (hcrowd : maxEnvelopeOctets < items.length)
    (h : (bound candidate).payload.get? k = some v) :
    k < key ∧ (boundObject 64 candidate.payload).1.get? k = some v := by
  have hmem := mem_dropped_of_crowded hnodup hproto hkey hget hcrowd
  obtain hnone | ⟨hallowance, hprefix⟩ := @reduction_cases candidate
  · rw [hnone] at hmem
    cases hmem
  · rw [payload_bound, Members.get?_without, hallowance] at h
    split at h
    · cases h
    · next hkept =>
      refine ⟨lt_of_not_ge fun hle ↦ hkept ⟨k, ?_, .inl rfl⟩, h⟩
      refine mem_prefix_of_le dropOrder_pairwise hprefix hmem ?_ hle
      rw [dropOrder, List.mem_reverse, List.mem_insertionSort]
      exact List.mem_map_of_mem (f := Prod.fst) (Members.mem_of_get? h)

end UnidentifiedEnvelope

end Servanda
