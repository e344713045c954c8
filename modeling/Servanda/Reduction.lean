import Servanda.FirstFit
import Servanda.Seal

/-!
The reduction as a choice: of the ways a candidate can be cut, in a fixed order, the first that
fits.
-/

namespace Servanda

open Unicode FirstFit

/-- A name goes with the names that are dropped. -/
def Dropped (dropped : List Text) (key : Text) : Prop :=
  ∃ k ∈ dropped, key = k ∨ key = lengthKey k

instance (dropped : List Text) (key : Text) : Decidable (Dropped dropped key) :=
  inferInstanceAs (Decidable (∃ k ∈ dropped, key = k ∨ key = lengthKey k))

namespace Members

variable {ms : Members} {key k : Text} {value : Json} {dropped : List Text}

theorem get?_delete : get? (ms.delete key) k = if k = key then none else get? ms k := by
  induction ms with
  | nil => simp [delete, get?]
  | cons m ms ih =>
    obtain ⟨name, v⟩ := m
    by_cases hname : name = key
    · have hdrop : delete ((name, v) :: ms) key = delete ms key := by simp [delete, hname]
      rw [hdrop, ih, get?_cons, hname]
      split <;> rfl
    · have hkeep : delete ((name, v) :: ms) key = (name, v) :: delete ms key := by
        simp [delete, hname]
      rw [hkeep, get?_cons, get?_cons, ih]
      by_cases hk : k = name
      · rw [if_pos hk, if_pos hk, if_neg (hk ▸ hname)]
      · rw [if_neg hk, if_neg hk]

theorem eq_nil_of_get? (h : ∀ key, get? ms key = none) : ms = [] := by
  cases ms with
  | nil => rfl
  | cons m ms =>
    have hm := h m.1
    rw [get?_cons, if_pos rfl] at hm
    cases hm

theorem get?_eq_none_iff : get? ms key = none ↔ key ∉ ms.keys := by
  rw [get?, List.lookup_eq_none_iff]
  constructor
  · intro h hmem
    obtain ⟨m, hm, rfl⟩ := List.mem_map.1 hmem
    simpa using h m hm
  · intro h m hm
    have hne : key ≠ m.1 := fun heq ↦ h (heq ▸ List.mem_map_of_mem hm)
    simpa using hne

/-- The members that are left when those under some names go, each with its `_length` sibling. -/
def without (ms : Members) (dropped : List Text) : Members :=
  dropped.foldl (fun ms key ↦ (ms.delete key).delete (lengthKey key)) ms

theorem get?_without :
    get? (ms.without dropped) key = if Dropped dropped key then none else get? ms key := by
  induction dropped generalizing ms with
  | nil => rw [if_neg (by simp [Dropped])]; rfl
  | cons k dropped ih =>
    have hcons : Dropped (k :: dropped) key ↔
        (key = k ∨ key = lengthKey k) ∨ Dropped dropped key := by simp [Dropped]
    have hstep : ms.without (k :: dropped) =
        ((ms.delete k).delete (lengthKey k)).without dropped := rfl
    rw [hstep, ih, get?_delete, get?_delete]
    by_cases hdropped : Dropped dropped key
    · rw [if_pos hdropped, if_pos (hcons.2 (.inr hdropped))]
    · rw [if_neg hdropped]
      by_cases hlength : key = lengthKey k
      · rw [if_pos hlength, if_pos (hcons.2 (.inl (.inr hlength)))]
      · rw [if_neg hlength]
        by_cases hk : key = k
        · rw [if_pos hk, if_pos (hcons.2 (.inl (.inl hk)))]
        · rw [if_neg hk, if_neg fun h ↦ (hcons.1 h).elim (·.elim hk hlength) hdropped]

theorem without_keys (h : ∀ key ∈ ms.keys, key ∈ dropped) : ms.without dropped = [] := by
  refine eq_nil_of_get? fun key ↦ ?_
  rw [get?_without]
  split
  · rfl
  · next hkept => exact get?_eq_none_iff.2 fun hmem ↦ hkept ⟨key, h key hmem, .inl rfl⟩

end Members

/-- A way to cut a candidate: how many octets its payload strings may have, the payload members that
are dropped, and the refs that are left. -/
structure Reduction where
  allowance : ℕ
  dropped : List Text
  refs : List EnvelopeRef

namespace UnidentifiedEnvelope

variable (candidate : UnidentifiedEnvelope)

def reduced (r : Reduction) : UnidentifiedEnvelope :=
  { candidate with
    actor := (boundActor candidate.actor).1
    payload := (boundObject r.allowance candidate.payload).1.without r.dropped
    refs := r.refs }

def boundedRefs : List EnvelopeRef := (boundRefs candidate.refs).1

/-- The allowances that come after the first. -/
def allowances : List ℕ := [4096, 2048, 1024, 512, 256, 128, 64]

/-- The names of the payload members at the last allowance, from the end of their order. -/
def dropOrder : List Text :=
  ((boundObject 64 candidate.payload).1.keys.insertionSort (· ≤ ·)).reverse

/-- The members bounds, and nothing else. -/
def memberBounds : Reduction := ⟨maxPayloadText, [], candidate.boundedRefs⟩

/-- Smaller allowances. -/
def allowanceCuts : List Reduction :=
  allowances.map fun allowance ↦ ⟨allowance, [], candidate.boundedRefs⟩

/-- Fewer and fewer payload members. -/
def memberCuts : List Reduction :=
  candidate.dropOrder.inits.tail.map fun dropped ↦ ⟨64, dropped, candidate.boundedRefs⟩

/-- Fewer and fewer refs. -/
def refCuts : List Reduction :=
  candidate.boundedRefs.inits.reverse.tail.map fun refs ↦ ⟨64, candidate.dropOrder, refs⟩

def fits (e : UnidentifiedEnvelope) : Bool := !e.tooBig

/-- The first cut whose canonical form fits, before it gets the marker. -/
def reduction : Reduction :=
  choose (fun r ↦ fits (candidate.reduced r)) candidate.memberBounds
    (candidate.allowanceCuts ++ candidate.memberCuts ++ candidate.refCuts)

end UnidentifiedEnvelope

namespace UnidentifiedEnvelope

variable {candidate out : UnidentifiedEnvelope} {payload : Members} {budget : ℕ}

/-- The allowances that halving a budget gives. -/
def halvings (budget : ℕ) : List ℕ :=
  if 64 < budget then budget / 2 :: halvings (budget / 2) else []
termination_by budget

theorem halvings_max : halvings maxPayloadText = allowances := by
  simp [halvings, maxPayloadText, allowances]

theorem tighten_eq (clipped : Bool) (h : out.payload = (boundObject budget payload).1) :
    (tighten payload budget out clipped).1 = choose fits out
      ((halvings budget).map fun n ↦ { out with payload := (boundObject n payload).1 }) := by
  induction budget using Nat.strong_induction_on generalizing out clipped with
  | _ n ih =>
    rw [halvings, tighten]
    by_cases hbudget : 64 < n
    · rw [if_pos hbudget, List.map_cons]
      cases hbig : out.tooBig with
      | true =>
        rw [if_pos ⟨rfl, hbudget⟩, choose_cons_of_not _ (by simp [fits, hbig])]
        exact ih (n / 2) (by omega) true rfl
      | false =>
        rw [if_neg (by simp), choose_of_fits (by simp [fits, hbig])]
    · rw [if_neg hbudget, if_neg fun h ↦ hbudget h.2]
      rfl

theorem inits_eq {α : Type*} (l : List α) : l.inits = [] :: l.inits.tail := by
  cases l <;> simp

theorem inits_reverse_eq {α : Type*} (l : List α) :
    l.inits.reverse = l :: l.inits.reverse.tail := by
  cases l using List.reverseRecOn <;> simp [List.inits_append]

theorem getLast_inits {α β : Type*} (f : List α → β) (l : List α) :
    (f [] :: l.inits.tail.map f).getLast (List.cons_ne_nil _ _) = f l := by
  have hmap : f [] :: l.inits.tail.map f = l.inits.map f := by
    rw [← List.map_cons, ← inits_eq]
  simp only [hmap, List.getLast_map]
  cases l using List.reverseRecOn <;> simp [List.inits_append]

theorem getLast_inits_reverse {α β : Type*} (f : List α → β) (l : List α) :
    (f l :: l.inits.reverse.tail.map f).getLast (List.cons_ne_nil _ _) = f [] := by
  have hmap : f l :: l.inits.reverse.tail.map f = l.inits.reverse.map f := by
    rw [← List.map_cons, ← inits_reverse_eq]
  simp only [hmap, List.getLast_map]
  cases l <;> simp

theorem dropMembers_eq (clipped : Bool) (keys : List Text) :
    (dropMembers out clipped keys).1 = choose fits out
      (keys.inits.tail.map fun dropped ↦ { out with payload := out.payload.without dropped }) := by
  induction keys generalizing out clipped with
  | nil => rfl
  | cons key keys ih =>
    rw [dropMembers, List.inits_cons, List.tail_cons]
    cases hbig : out.tooBig with
    | false => rw [if_neg (by simp), choose_of_fits (by simp [fits, hbig])]
    | true =>
      rw [if_pos rfl, ih, inits_eq keys, List.map_cons, List.map_cons,
        choose_cons_of_not _ (by simp [fits, hbig]), List.map_map]
      rfl

theorem dropRefs_eq (clipped : Bool) : (dropRefs out clipped).1 = choose fits out
    (out.refs.inits.reverse.tail.map fun refs ↦ { out with refs }) := by
  obtain ⟨refs, hrefs⟩ : ∃ refs, out.refs = refs := ⟨_, rfl⟩
  rw [hrefs]
  induction refs using List.reverseRecOn generalizing out clipped with
  | nil =>
    rw [dropRefs, dif_neg (by simp [hrefs])]
    rfl
  | append_singleton refs ref ih =>
    have hinits : (refs ++ [ref]).inits.reverse.tail = refs.inits.reverse := by
      simp [List.inits_append]
    have hne := inits_reverse_eq refs
    rw [dropRefs, hinits]
    cases hbig : out.tooBig with
    | false => rw [dif_neg (by simp), choose_of_fits (by simp [fits, hbig])]
    | true =>
      have hdropped : out.refs.dropLast = refs := by rw [hrefs, List.dropLast_concat]
      rw [dif_pos ⟨rfl, by simp [hrefs]⟩, hne, List.map_cons,
        choose_cons_of_not _ (by simp [fits, hbig]), hdropped]
      exact ih true rfl

section Stages

variable (candidate)

/-- The first smaller allowance that fits, or the smallest. -/
def tightened : Reduction :=
  choose (fun r ↦ fits (candidate.reduced r)) candidate.memberBounds candidate.allowanceCuts

/-- The first that fits with fewer members, or with none. -/
def thinned : Reduction :=
  choose (fun r ↦ fits (candidate.reduced r)) candidate.tightened candidate.memberCuts

theorem reduction_eq : candidate.reduction =
    choose (fun r ↦ fits (candidate.reduced r)) candidate.thinned candidate.refCuts := by
  rw [thinned, tightened, ← choose_append, ← choose_append]
  rfl

variable {candidate}

theorem tightened_last (h : fits (candidate.reduced candidate.tightened) = false) :
    candidate.tightened = ⟨64, [], candidate.boundedRefs⟩ := by
  obtain hfits | hlast := @choose_fits_or_last _ (fun r ↦ fits (candidate.reduced r))
    candidate.memberBounds candidate.allowanceCuts
  · exact absurd hfits (by simpa [tightened] using h)
  · exact hlast

theorem thinned_last (h : fits (candidate.reduced candidate.thinned) = false) :
    candidate.thinned = ⟨64, candidate.dropOrder, candidate.boundedRefs⟩ := by
  cases hfits : fits (candidate.reduced candidate.tightened) with
  | true =>
    have hsame : candidate.thinned = candidate.tightened := by
      rw [thinned]
      exact choose_of_fits hfits
    rw [hsame, hfits] at h
    cases h
  | false =>
    obtain hfits | hlast := @choose_fits_or_last _ (fun r ↦ fits (candidate.reduced r))
      candidate.tightened candidate.memberCuts
    · exact absurd hfits (by simpa [thinned] using h)
    · refine hlast.trans ?_
      simp only [tightened_last hfits, memberCuts]
      exact getLast_inits (fun dropped ↦ Reduction.mk 64 dropped candidate.boundedRefs) _

/-- Where no cut fits, everything has been dropped. -/
theorem reduction_last (h : fits (candidate.reduced candidate.reduction) = false) :
    candidate.reduction = ⟨64, candidate.dropOrder, []⟩ := by
  rw [reduction_eq] at h ⊢
  cases hfits : fits (candidate.reduced candidate.thinned) with
  | true =>
    have hsame : choose (fun r ↦ fits (candidate.reduced r)) candidate.thinned candidate.refCuts =
        candidate.thinned := choose_of_fits hfits
    rw [hsame, hfits] at h
    cases h
  | false =>
    obtain hfits | hlast := @choose_fits_or_last _ (fun r ↦ fits (candidate.reduced r))
      candidate.thinned candidate.refCuts
    · rw [hfits] at h
      cases h
    · refine hlast.trans ?_
      simp only [thinned_last hfits, refCuts]
      exact getLast_inits_reverse (fun refs ↦ Reduction.mk 64 candidate.dropOrder refs) _

end Stages

variable (candidate) in
/-- The reduction cuts a candidate the first way that fits, and sets the marker or not. -/
theorem bound_reduced : ∃ clipped,
    bound candidate = { candidate.reduced candidate.reduction with clipped } := by
  obtain ⟨⟨out₁, cut₁⟩, h₁⟩ : ∃ r, candidate.boundEach = r := ⟨_, rfl⟩
  obtain ⟨⟨out₂, cut₂⟩, h₂⟩ : ∃ r, tighten candidate.payload maxPayloadText out₁ cut₁ = r := ⟨_, rfl⟩
  obtain ⟨⟨out₃, cut₃⟩, h₃⟩ : ∃ r, (if out₂.tooBig then
    dropMembers out₂ cut₂ (out₂.payload.keys.insertionSort (· ≤ ·)).reverse
    else (out₂, cut₂)) = r := ⟨_, rfl⟩
  obtain ⟨⟨out₄, cut₄⟩, h₄⟩ : ∃ r, dropRefs out₃ cut₃ = r := ⟨_, rfl⟩
  have hbound : bound candidate = if cut₄ then { out₄ with clipped := true } else out₄ := by
    simp only [bound, h₁, h₂, h₃, h₄]
  have hout₁ : out₁ = candidate.reduced candidate.memberBounds := (congrArg Prod.fst h₁).symm
  have hout₂ : out₂ = candidate.reduced candidate.tightened := by
    have hpayload : out₁.payload = (boundObject maxPayloadText candidate.payload).1 :=
      congrArg payload hout₁
    have htighten := (congrArg Prod.fst h₂).symm.trans (tighten_eq cut₁ hpayload)
    refine htighten.trans ?_
    rw [halvings_max, tightened, hout₁, ← choose_map candidate.reduced, allowanceCuts, List.map_map]
    rfl
  have hout₃ : out₃ = candidate.reduced candidate.thinned := by
    rw [thinned, ← choose_map candidate.reduced]
    cases hbig : out₂.tooBig with
    | true =>
      have hunfit : fits (candidate.reduced candidate.tightened) = false := by
        rw [← hout₂, fits, hbig]
        rfl
      have hlast := tightened_last hunfit
      have horder : (out₂.payload.keys.insertionSort (· ≤ ·)).reverse = candidate.dropOrder := by
        rw [hout₂, hlast]
        rfl
      rw [if_pos hbig, horder] at h₃
      have hdrop := (congrArg Prod.fst h₃).symm.trans (dropMembers_eq cut₂ candidate.dropOrder)
      refine hdrop.trans ?_
      rw [hout₂, memberCuts, List.map_map, hlast]
      rfl
    | false =>
      rw [if_neg (by simp [hbig]), Prod.mk.injEq] at h₃
      rw [← h₃.1, hout₂, choose_of_fits (by rw [← hout₂, fits, hbig]; rfl)]
  have hout₄ : out₄ = candidate.reduced candidate.reduction := by
    have hrefs := (congrArg Prod.fst h₄).symm.trans (dropRefs_eq cut₃)
    refine hrefs.trans ?_
    rw [reduction_eq, ← choose_map candidate.reduced]
    cases hbig : fits (candidate.reduced candidate.thinned) with
    | true => rw [hout₃, choose_of_fits hbig, choose_of_fits hbig]
    | false =>
      rw [hout₃, thinned_last hbig, refCuts, List.map_map]
      rfl
  rw [hbound, hout₄]
  split
  · exact ⟨true, rfl⟩
  · exact ⟨candidate.clipped, rfl⟩

theorem bound_eq : bound candidate =
    { candidate.reduced candidate.reduction with clipped := (bound candidate).clipped } := by
  obtain ⟨clipped, h⟩ := bound_reduced candidate
  rw [h]

theorem reduced_exhausted (h : (candidate.reduced candidate.reduction).tooBig = true) :
    (candidate.reduced candidate.reduction).payload = [] ∧
      (candidate.reduced candidate.reduction).refs = [] := by
  have hlast := @reduction_last candidate (by rw [fits, h]; rfl)
  rw [hlast]
  refine ⟨Members.without_keys fun key hkey ↦ ?_, rfl⟩
  rw [dropOrder, List.mem_reverse, List.mem_insertionSort]
  exact hkey

theorem reduced_within : (candidate.reduced candidate.reduction).Within := by
  have hwithin := bound_within candidate
  rw [bound_eq] at hwithin
  exact { hwithin with }

theorem bound_protoless : (Json.obj (bound candidate).payload).Protoless :=
  (bound_assigned candidate).imp fun _ h ↦ h.2

theorem bound_distinct : (Json.obj (bound candidate).payload).Distinct :=
  (bound_assigned candidate).imp fun _ h ↦ h.1

/-- What the marker adds to a canonical form: its name, its value and a comma. -/
def markerOctets : ℕ := 15

/-- The canonical form leaves room for so many octets. -/
def RoomFor (room : ℕ) (e : UnidentifiedEnvelope) : Prop :=
  ∃ bytes, canonicalBytes e.toJson = some bytes ∧ bytes.length + room ≤ maxEnvelopeOctets

theorem tooBig_eq_false_iff (h : out.Within) : out.tooBig = false ↔ RoomFor 0 out := by
  obtain ⟨bytes, hbytes⟩ := canonicalBytes_of_within h
  rw [tooBig, RoomFor, hbytes]
  simp

theorem canonicalBytes_marked {bytes : List UInt8} (hclipped : out.clipped = false)
    (h : canonicalBytes out.toJson = some bytes) : ∃ bytes',
      canonicalBytes { out with clipped := true }.toJson = some bytes' ∧
        bytes'.length = bytes.length + markerOctets := by
  obtain ⟨front, back, hfront, hunmarked, hmarked⟩ : ∃ front back, front ≠ [] ∧
      out.toJson = .obj (front ++ back) ∧ { out with clipped := true }.toJson =
        .obj (front ++ (text "clipped", .bool true) :: back) :=
    ⟨(text "v", .str protocolVersion) :: (text "type", .str (text "envelope")) ::
      out.described.take 7, [(text "persona", .str out.persona.val)], List.cons_ne_nil _ _,
      by simp [toJson, described, hclipped], by simp [toJson, described]⟩
  have hwrite : write 1 (.bool true) = some "true".toList := by rw [write, if_neg (by decide)]; rfl
  have hoctets : octetsOf (writeMember (text "clipped", "true".toList)) + 1 = markerOctets := by
    decide
  rw [hunmarked] at h
  obtain ⟨bytes', hbytes', hlength⟩ := canonicalBytes_insert front (text "clipped") hfront hwrite h
  exact ⟨bytes', hmarked ▸ hbytes', by rw [hlength, add_assoc, hoctets]⟩

/-- The marker fits exactly where the form without it leaves room. -/
theorem marked_fits_iff (h : out.Within) : tooBig { out with clipped := true } = false ↔
    RoomFor (if out.clipped then 0 else markerOctets) out := by
  cases hclipped : out.clipped with
  | true =>
    have hsame : { out with clipped := true } = out := by rw [← hclipped]
    rw [hsame, if_pos rfl]
    exact tooBig_eq_false_iff h
  | false =>
    rw [if_neg (by simp)]
    obtain ⟨bytes, hbytes⟩ := canonicalBytes_of_within h
    obtain ⟨bytes', hbytes', hlength⟩ := canonicalBytes_marked hclipped hbytes
    rw [tooBig, RoomFor, hbytes, hbytes']
    simp [hlength]

/-- A bounded candidate fits exactly where nothing needed a cut, or the first cut that fits leaves
room for the marker. -/
theorem bound_fits_iff (hdistinct : (Json.obj candidate.payload).Distinct) :
    (bound candidate).tooBig = false ↔ (candidate.Cut →
      RoomFor (if candidate.clipped then 0 else markerOctets)
        (candidate.reduced candidate.reduction)) := by
  cases hclipped : (bound candidate).clipped with
  | false =>
    obtain ⟨-, hfits, hbound⟩ := bound_unmarked hclipped
    refine iff_of_true (by rw [hbound, hfits]) fun hcut ↦ ?_
    rw [(bound_marked_iff hdistinct).2 hcut] at hclipped
    cases hclipped
  | true =>
    have hcut := (bound_marked_iff hdistinct).1 hclipped
    have hmarked := marked_fits_iff (@reduced_within candidate)
    rw [bound_eq, hclipped]
    exact hmarked.trans ⟨fun h _ ↦ h, fun h ↦ h hcut⟩

theorem bound_of_bounded (h : (bound candidate).tooBig = false) :
    bound (bound candidate) = bound candidate := by
  have heach := boundEach_within bound_distinct (bound_within candidate)
  have hpayload : Json.membersWithoutProto (bound candidate).payload = (bound candidate).payload :=
    Json.obj.inj (Json.withoutProto_of_protoless bound_protoless)
  rw [hpayload] at heach
  rw [bound_of_fits (by rw [heach]) (by rw [heach]; exact h), heach]

theorem bound_of_empty (hwithin : out.Within) (hpayload : out.payload = []) (hrefs : out.refs = [])
    (hclipped : out.clipped = true) : bound out = out := by
  have hdistinct : (Json.obj out.payload).Distinct := by
    rw [hpayload]
    exact .obj List.nodup_nil (List.forall_mem_nil _)
  have heach := boundEach_within hdistinct hwithin
  have hempty : { out with payload := [], clipped := true } = out := by
    rw [← hpayload, ← hclipped]
  have hbound : { bound out with clipped := true } = out := by
    refine bound_induction (P := fun e ↦ { e with clipped := true } = out) ?_ ?_ ?_ ?_ ?_
    · rw [heach, hpayload]
      exact hempty
    · intro e n _ he
      have hpayload' : (boundObject n out.payload).1 = e.payload := by
        rw [(congrArg payload he).trans hpayload, hpayload]
        rfl
      rw [hpayload']
      exact he
    · intro e key he
      have hpayload' : e.payload.delete key = e.payload := by
        rw [(congrArg payload he).trans hpayload]
        rfl
      rw [hpayload']
      exact he
    · intro e he
      have hrefs' : e.refs.dropLast = e.refs := by
        rw [(congrArg refs he).trans hrefs]
        rfl
      rw [hrefs']
      exact he
    · exact fun _ he ↦ he
  rwa [← (bound_marked_iff hdistinct).2 (.inl hclipped)] at hbound

/-- Bounding again changes nothing exactly where the bounded candidate fits, or holds nothing that
could be dropped. -/
theorem bound_idempotent_iff :
    bound (bound candidate) = bound candidate ↔ (bound candidate).tooBig = false ∨
      (bound candidate).payload = [] ∧ (bound candidate).refs = [] := by
  constructor
  · intro h
    cases hbig : (bound candidate).tooBig with
    | false => exact .inl rfl
    | true =>
      have hsame : (bound candidate).reduced (bound candidate).reduction = bound candidate := by
        have hbound := @bound_eq (bound candidate)
        rw [h] at hbound
        exact hbound.symm
      rw [← hsame] at hbig
      have hexhausted := reduced_exhausted hbig
      rw [hsame] at hexhausted
      exact .inr hexhausted
  · rintro (hfits | ⟨hpayload, hrefs⟩)
    · exact bound_of_bounded hfits
    cases hbig : (bound candidate).tooBig with
    | false => exact bound_of_bounded hbig
    | true =>
      have hmarked : (bound candidate).clipped = true := by
        by_contra hunmarked
        obtain ⟨-, hfits, hbound⟩ := bound_unmarked (by simpa using hunmarked)
        rw [hbound, hfits] at hbig
        cases hbig
      exact bound_of_empty (bound_within candidate) hpayload hrefs hmarked

/-- Nothing is taken out unmarked exactly where nothing stands under `__proto__`, or something needed
a cut. -/
theorem bound_unchanged_iff (hdistinct : (Json.obj candidate.payload).Distinct) :
    ((bound candidate).clipped = false → bound candidate = candidate) ↔
      (Json.obj candidate.payload).Protoless ∨ candidate.Cut := by
  have hmarked := bound_marked_iff hdistinct
  by_cases hcut : candidate.Cut
  · refine iff_of_true (fun hunmarked ↦ ?_) (.inr hcut)
    rw [hmarked.2 hcut] at hunmarked
    cases hunmarked
  · have hunmarked : (bound candidate).clipped = false := by simpa using mt hmarked.1 hcut
    rw [bound_of_not_cut hdistinct hcut] at hunmarked ⊢
    constructor
    · intro h
      by_contra hproto
      have hlost := lost_withoutProto hdistinct fun h ↦ hproto (.inl h)
      have hpayload : Json.membersWithoutProto candidate.payload = candidate.payload :=
        congrArg payload (h hunmarked)
      rw [Json.withoutProto, hpayload] at hlost
      exact lost_irrefl _ hlost
    · rintro (hproto | hcut') -
      · have hpayload : Json.membersWithoutProto candidate.payload = candidate.payload :=
          Json.obj.inj (Json.withoutProto_of_protoless hproto)
        rw [hpayload]
      · exact absurd hcut' hcut

theorem allowance_bounds : 64 ≤ candidate.reduction.allowance ∧
    candidate.reduction.allowance ≤ maxPayloadText := by
  have hmem : candidate.reduction ∈ candidate.memberBounds ::
    (candidate.allowanceCuts ++ candidate.memberCuts ++ candidate.refCuts) := choose_mem
  obtain ⟨r, hr⟩ : ∃ r, candidate.reduction = r := ⟨_, rfl⟩
  have hfirst : 64 ≤ maxPayloadText ∧ maxPayloadText ≤ maxPayloadText := by decide
  have hallowances : ∀ n ∈ allowances, 64 ≤ n ∧ n ≤ maxPayloadText := by decide
  have hlast : 64 ≤ 64 ∧ 64 ≤ maxPayloadText := by decide
  rw [hr] at hmem ⊢
  simp only [allowanceCuts, memberCuts, refCuts, List.mem_cons, List.mem_append, List.mem_map] at hmem
  obtain rfl | (⟨n, hn, rfl⟩ | ⟨dropped, -, rfl⟩) | ⟨refs, -, rfl⟩ := hmem
  · exact hfirst
  · exact hallowances n hn
  · exact hlast
  · exact hlast

theorem reduction_of_fits (h : (candidate.reduced candidate.memberBounds).tooBig = false) :
    candidate.reduction = candidate.memberBounds := by
  refine choose_of_fits ?_
  rw [fits, h]
  rfl

end UnidentifiedEnvelope

end Servanda
