import Servanda.Parse

/-!
Canonical text against the values it is written for: two values have one text where they are equal
up to the order of their members.
-/

namespace Servanda

open Unicode JsonRpc

namespace Json

/-- Equal as JSON values: objects have the same names, and under each of them equal values. -/
inductive Same : Json → Json → Prop
  | null : Same .null .null
  | bool (b : Bool) : Same (.bool b) (.bool b)
  | num (n : JsNumber) : Same (.num n) (.num n)
  | str (s : Text) : Same (.str s) (.str s)
  | arr {vs ws : List Json} (hlength : vs.length = ws.length)
      (h : ∀ p ∈ vs.zip ws, Same p.1 p.2) : Same (.arr vs) (.arr ws)
  | obj {ms ns : Members} (hkeys : ∀ key, key ∈ ms.keys ↔ key ∈ ns.keys)
      (h : ∀ m ∈ ms, ∀ n ∈ ns, m.1 = n.1 → Same m.2 n.2) : Same (.obj ms) (.obj ns)

end Json

namespace Jcs

open Json

theorem keys_map {f : Json → Json} (ms : Members) :
    Members.keys (ms.map fun m ↦ (m.1, f m.2)) = ms.keys := by
  rw [Members.keys, List.map_map]
  rfl

theorem keys_sortKeys_perm (ms : Members) : (Members.keys (sortKeys ms)).Perm ms.keys :=
  (sortKeys_perm ms).map Prod.fst

theorem sortKeys_pairwise {α : Type} (ms : List (Text × α)) :
    (sortKeys ms).Pairwise fun m m' ↦ m.1 ≤ m'.1 := by
  have : Std.Total fun m m' : Text × α ↦ m.1 ≤ m'.1 := ⟨fun m m' ↦ le_total m.1 m'.1⟩
  have : IsTrans (Text × α) fun m m' ↦ m.1 ≤ m'.1 := ⟨fun _ _ _ ↦ le_trans⟩
  exact List.pairwise_insertionSort _ _

theorem sortKeys_sortKeys {α : Type} (ms : List (Text × α)) :
    sortKeys (sortKeys ms) = sortKeys ms := (sortKeys_pairwise ms).insertionSort_eq

/-- Members with different names have one order. -/
theorem sortKeys_of_perm {ms ns : Members} (hnodup : ns.keys.Nodup) (h : ms.Perm ns) :
    sortKeys ms = sortKeys ns := by
  refine List.Perm.eq_of_pairwise (fun a b ha hb hab hba ↦ ?_) (sortKeys_pairwise ms)
    (sortKeys_pairwise ns) (((sortKeys_perm ms).trans h).trans (sortKeys_perm ns).symm)
  have ha' := h.mem_iff.mp ((sortKeys_perm ms).mem_iff.mp ha)
  have hb' := (sortKeys_perm ns).mem_iff.mp hb
  exact List.inj_on_of_nodup_map hnodup ha' hb' (le_antisymm hab hba)

theorem distinct_sorted {v : Json} (h : v.Distinct) : v.sorted.Distinct := by
  induction v using Json.induction with
  | null | bool b | num n | str s => exact h
  | arr items ih =>
    rw [sorted, sortedItems_eq]
    refine .arr fun w hw ↦ ?_
    obtain ⟨v, hv, rfl⟩ := List.mem_map.mp hw
    exact ih v hv (h.items v hv)
  | obj ms ih =>
    rw [sorted, sortedMembers_eq]
    refine .obj ?_ fun n hn ↦ ?_
    · rw [(keys_sortKeys_perm _).nodup_iff, keys_map]
      exact h.keys
    · obtain ⟨m, hm, rfl⟩ := List.mem_map.mp ((sortKeys_perm _).mem_iff.mp hn)
      exact ih m hm (h.members m hm)

theorem sorted_sorted (v : Json) : v.sorted.sorted = v.sorted := by
  induction v using Json.induction with
  | null | bool b | num n | str s => rfl
  | arr items ih =>
    rw [sorted, sorted, sortedItems_eq, sortedItems_eq, List.map_map]
    exact congrArg Json.arr (List.map_congr_left ih)
  | obj ms ih =>
    rw [sorted, sorted, sortedMembers_eq, sortedMembers_eq, sortKeys_map, sortKeys_map, sortKeys_map,
      sortKeys_sortKeys, List.map_map]
    refine congrArg Json.obj (List.map_congr_left fun m hm ↦ ?_)
    exact congrArg (m.1, ·) (ih m ((sortKeys_perm ms).mem_iff.mp hm))

/-- What is equal up to the order of members is equal once they are sorted. -/
theorem sorted_of_same {u v : Json} (hu : u.Distinct) (hv : v.Distinct) (h : Same u v) :
    u.sorted = v.sorted := by
  induction h with
  | null | bool b | num n | str s => rfl
  | @arr vs ws hlength h ih =>
    rw [sorted, sorted, sortedItems_eq, sortedItems_eq]
    refine congrArg Json.arr (List.ext_getElem (by simpa using hlength) fun i hi hi' ↦ ?_)
    rw [List.length_map] at hi hi'
    rw [List.getElem_map, List.getElem_map]
    have hmem : (vs[i], ws[i]) ∈ vs.zip ws :=
      List.mem_iff_getElem.mpr ⟨i, by simpa using ⟨hi, hi'⟩, List.getElem_zip⟩
    exact ih _ hmem (hu.items _ (List.getElem_mem hi)) (hv.items _ (List.getElem_mem hi'))
  | @obj ms ns hkeys h ih =>
    rw [sorted, sorted, sortedMembers_eq, sortedMembers_eq]
    have hnodup (ls : Members) (hls : ls.keys.Nodup) :
        (ls.map fun m ↦ (m.1, m.2.sorted)).Nodup :=
      List.Nodup.of_map Prod.fst (by rw [List.map_map]; exact hls)
    have hperm : (ms.map fun m ↦ (m.1, m.2.sorted)).Perm (ns.map fun m ↦ (m.1, m.2.sorted)) := by
      refine (List.perm_ext_iff_of_nodup (hnodup ms hu.keys) (hnodup ns hv.keys)).mpr fun p ↦ ?_
      have hsame {m n : Text × Json} (hm : m ∈ ms) (hn : n ∈ ns) (hkey : m.1 = n.1) :
          (m.1, m.2.sorted) = (n.1, n.2.sorted) :=
        Prod.ext hkey (ih m hm n hn hkey (hu.members m hm) (hv.members n hn))
      simp only [List.mem_map]
      constructor
      · rintro ⟨m, hm, rfl⟩
        obtain ⟨n, hn, hkey⟩ := List.mem_map.mp ((hkeys m.1).mp (List.mem_map.mpr ⟨m, hm, rfl⟩))
        exact ⟨n, hn, (hsame hm hn hkey.symm).symm⟩
      · rintro ⟨n, hn, rfl⟩
        obtain ⟨m, hm, hkey⟩ := List.mem_map.mp ((hkeys n.1).mpr (List.mem_map.mpr ⟨n, hn, rfl⟩))
        exact ⟨m, hm, hsame hm hn hkey⟩
    refine congrArg Json.obj (sortKeys_of_perm ?_ hperm)
    rw [keys_map]
    exact hv.keys

theorem same_of_sorted {u v : Json} (hv : v.Distinct) (h : u.sorted = v.sorted) : Same u v := by
  induction u using Json.induction generalizing v with
  | null =>
    cases v <;> simp only [sorted, reduceCtorEq] at h
    exact .null
  | bool b =>
    cases v <;> simp only [sorted, reduceCtorEq, Json.bool.injEq] at h
    exact h ▸ .bool b
  | num n =>
    cases v <;> simp only [sorted, reduceCtorEq, Json.num.injEq] at h
    exact h ▸ .num n
  | str s =>
    cases v <;> simp only [sorted, reduceCtorEq, Json.str.injEq] at h
    exact h ▸ .str s
  | arr vs ih =>
    cases v with
    | null | bool b | num n | str s | obj ms => simp [sorted] at h
    | arr ws =>
      rw [sorted, sorted, sortedItems_eq, sortedItems_eq, Json.arr.injEq] at h
      have hlength : vs.length = ws.length := by simpa using congrArg List.length h
      refine .arr hlength fun p hp ↦ ?_
      obtain ⟨i, hi, rfl⟩ := List.mem_iff_getElem.mp hp
      rw [List.length_zip, lt_min_iff] at hi
      rw [List.getElem_zip]
      have hsorted := List.getElem_of_eq h (i := i) (by simpa using hi.1)
      rw [List.getElem_map, List.getElem_map] at hsorted
      exact ih _ (List.getElem_mem hi.1) (hv.items _ (List.getElem_mem hi.2)) hsorted
  | obj ms ih =>
    cases v with
    | null | bool b | num n | str s | arr items => simp [sorted] at h
    | obj ns =>
      rw [sorted, sorted, sortedMembers_eq, sortedMembers_eq, Json.obj.injEq] at h
      have hperm : (ms.map fun m ↦ (m.1, m.2.sorted)).Perm (ns.map fun m ↦ (m.1, m.2.sorted)) :=
        (sortKeys_perm _).symm.trans (h ▸ sortKeys_perm _)
      have hkeys : (Members.keys ms).Perm (Members.keys ns) := by
        have := hperm.map Prod.fst
        rw [List.map_map, List.map_map] at this
        exact this
      refine .obj (fun key ↦ hkeys.mem_iff) fun m hm n hn hkey ↦ ?_
      obtain ⟨n', hn', heq⟩ := List.mem_map.mp
        (hperm.mem_iff.mp (List.mem_map.mpr ⟨m, hm, rfl⟩))
      rw [Prod.mk.injEq] at heq
      obtain rfl : n' = n := List.inj_on_of_nodup_map hv.keys hn' hn (heq.1.trans hkey)
      exact ih m hm (hv.members n' hn) heq.2.symm

/-- The order of the members does not show in the text. -/
theorem write_sorted {v : Json} {depth : ℕ} {cs : List Char} (h : write depth v = some cs) :
    write depth v.sorted = some cs := by
  induction v using Json.induction generalizing depth cs with
  | null | bool b | num n | str s => exact h
  | arr items ih =>
    rw [write, Option.ite_none_left_eq_some] at h
    obtain ⟨hdepth, h⟩ := h
    obtain ⟨pieces, hpieces, rfl⟩ := Option.map_eq_some_iff.mp h
    obtain ⟨rfl, hall⟩ := writeItems_eq_some hpieces
    have hwrite (ws : List Json) (hws : ∀ v ∈ ws, v ∈ items) :
        writeItems (depth + 1) (ws.map sorted) = some (ws.map (written (depth + 1))) := by
      induction ws with
      | nil => rfl
      | cons v ws ihs =>
        obtain ⟨hv, hws⟩ := List.forall_mem_cons.mp hws
        rw [List.map_cons, writeItems, ih v hv (hall v hv), ihs hws]
        rfl
    rw [sorted, sortedItems_eq, write, if_neg hdepth, hwrite items fun _ ↦ id]
    rfl
  | obj ms ih =>
    rw [write, Option.ite_none_left_eq_some] at h
    obtain ⟨hdepth, h⟩ := h
    obtain ⟨pieces, hpieces, rfl⟩ := Option.map_eq_some_iff.mp h
    obtain ⟨rfl, hall⟩ := writeMembers_eq_some hpieces
    have hwrite (ns : Members) (hns : ∀ m ∈ ns, m ∈ ms) :
        writeMembers (depth + 1) (ns.map fun m ↦ (m.1, m.2.sorted)) =
          some (ns.map fun m ↦ (m.1, written (depth + 1) m.2)) := by
      induction ns with
      | nil => rfl
      | cons m ns ihs =>
        obtain ⟨hm, hns⟩ := List.forall_mem_cons.mp hns
        rw [List.map_cons, writeMembers, ih m hm (hall m hm), ihs hns]
        rfl
    rw [sorted, sortedMembers_eq, sortKeys_map, write, if_neg hdepth,
      hwrite _ fun m hm ↦ (sortKeys_perm ms).mem_iff.mp hm, Option.map_some, sortKeys_map,
      sortKeys_map, sortKeys_sortKeys]

/-- Numerals told apart by their texts alone. -/
def texts (cs : List Char) : Option Value :=
  if h : cs ≠ [] ∧ ∀ c ∈ cs, c.isDigit ∨ c ∈ ['.', '+', '-', 'e'] then some (.num ⟨cs, h⟩) else none

theorem texts_digits (n : JsNumber) : texts n.digits = some (.num n) := dif_pos n.numeric

theorem numbers_of_forall {P : JsNumber → Prop} (h : ∀ n, P n) (v : Json) : v.Numbers P := by
  induction v using Json.induction with
  | null => exact .null
  | bool b => exact .bool b
  | num n => exact .num (h n)
  | str s => exact .str s
  | arr items ih => exact .arr ih
  | obj ms ih => exact .obj ih

theorem ofJson_injective : Function.Injective Value.ofJson := by
  intro u
  induction u using Json.induction with
  | null | bool b | num n | str s =>
    intro v h
    cases v <;> simp_all [Value.ofJson]
  | arr items ih =>
    intro v h
    cases v with
    | null | bool b | num n | str s | obj ms => simp [Value.ofJson] at h
    | arr items' =>
      rw [Value.ofJson, Value.ofJson, JsonParse.ofItems_eq, JsonParse.ofItems_eq,
        Value.arr.injEq] at h
      have hlength : items.length = items'.length := by simpa using congrArg List.length h
      refine congrArg Json.arr (List.ext_getElem hlength fun i hi hi' ↦ ?_)
      have hi := List.getElem_of_eq h (i := i) (by simpa using hi)
      rw [List.getElem_map, List.getElem_map] at hi
      exact ih _ (List.getElem_mem _) hi
  | obj ms ih =>
    intro v h
    cases v with
    | null | bool b | num n | str s | arr items => simp [Value.ofJson] at h
    | obj ms' =>
      rw [Value.ofJson, Value.ofJson, JsonParse.ofMembers_eq, JsonParse.ofMembers_eq,
        Value.obj.injEq] at h
      have hlength : ms.length = ms'.length := by simpa using congrArg List.length h
      refine congrArg Json.obj (List.ext_getElem hlength fun i hi hi' ↦ ?_)
      have hi := List.getElem_of_eq h (i := i) (by simpa using hi)
      rw [List.getElem_map, List.getElem_map, Prod.mk.injEq] at hi
      exact Prod.ext hi.1 (ih _ (List.getElem_mem _) hi.2)

/-- Equal texts come of equal values. -/
theorem same_of_canonicalize {u v : Json} (hu : u.Distinct) (hv : v.Distinct) {cs : List Char}
    (hcs : canonicalize u = some cs) (hcs' : canonicalize v = some cs) : Same u v := by
  have hparse := JsonParse.parse_canonicalize hu (numbers_of_forall texts_digits u) hcs
  rw [JsonParse.parse_canonicalize hv (numbers_of_forall texts_digits v) hcs'] at hparse
  exact same_of_sorted hv (ofJson_injective (Option.some.inj hparse)).symm

theorem canonicalize_of_same {u v : Json} (hu : u.Distinct) (hv : v.Distinct) (h : Same u v)
    {cs : List Char} (hcs : canonicalize u = some cs) (hdepth : v.height ≤ maxCanonicalizationDepth) :
    canonicalize v = some cs := by
  have hsome := (write_isSome_iff v 0).mpr (by omega)
  obtain ⟨cs', hcs'⟩ := Option.isSome_iff_exists.mp hsome
  have hsorted := write_sorted hcs
  rw [sorted_of_same hu hv h] at hsorted
  exact hcs'.trans (((write_sorted hcs').symm).trans hsorted)

theorem canonicalize_eq_none_iff (v : Json) :
    canonicalize v = none ↔ maxCanonicalizationDepth < v.height := by
  rw [← Option.not_isSome_iff_eq_none, canonicalize, write_isSome_iff]
  omega

theorem same_sorted {v : Json} (h : v.Distinct) : v.Same v.sorted :=
  same_of_sorted (distinct_sorted h) (sorted_sorted v).symm

/-- Canonical form is canonical: of values that are not too deep it is one text for each value up to
the order of members, it parses to that value, and it is its own canonical form. Deeper values have
none. `numerals` is what the engine makes of a numeral. -/
theorem canonical_form (numerals : JsonParse.Numerals) {u v : Json} (hu : u.Distinct)
    (hv : v.Distinct) :
    (u.height ≤ maxCanonicalizationDepth → v.height ≤ maxCanonicalizationDepth →
      (canonicalize u = canonicalize v ↔ u.Same v)) ∧
    (v.height ≤ maxCanonicalizationDepth →
      v.Numbers (fun n ↦ numerals n.digits = some (.num n)) →
      ∃ cs w, canonicalize v = some cs ∧
        JsonParse.parse numerals (units cs) = some (.ofJson w) ∧ v.Same w ∧
        canonicalize w = some cs) ∧
    (maxCanonicalizationDepth < v.height → canonicalize v = none) := by
  have hsome {w : Json} (h : w.height ≤ maxCanonicalizationDepth) :
      ∃ cs, canonicalize w = some cs :=
    Option.isSome_iff_exists.mp ((write_isSome_iff w 0).mpr (by omega))
  refine ⟨fun hudepth hvdepth ↦ ?_, fun hvdepth hnumbers ↦ ?_, (canonicalize_eq_none_iff v).mpr⟩
  · obtain ⟨cs, hcs⟩ := hsome hudepth
    constructor
    · intro h
      exact same_of_canonicalize hu hv hcs (h ▸ hcs)
    · intro h
      rw [hcs, canonicalize_of_same hu hv h hcs hvdepth]
  · obtain ⟨cs, hcs⟩ := hsome hvdepth
    exact ⟨cs, v.sorted, hcs, JsonParse.parse_canonicalize hv hnumbers hcs, same_sorted hv,
      write_sorted hcs⟩

theorem canonical_form_swapped :
    canonicalize (.obj [(text "b", .null), (text "a", .bool true)]) =
      canonicalize (.obj [(text "a", .bool true), (text "b", .null)]) := by
  have hdistinct (ms : Members) (hms : ms.Perm [(text "b", .null), (text "a", .bool true)]) :
      Distinct (.obj ms) := by
    refine .obj ((hms.map Prod.fst).nodup_iff.mpr (by decide)) fun m hm ↦ ?_
    obtain rfl | rfl := List.mem_pair.mp (hms.mem_iff.mp hm)
    · exact .null
    · exact .bool true
  refine ((canonical_form texts (hdistinct _ (.refl _)) (hdistinct _ (.swap _ _ _))).1
    (by decide) (by decide)).mpr (.obj (fun key ↦ by simp [Members.keys, or_comm]) ?_)
  rintro m hm n hn hkey
  obtain rfl | rfl := List.mem_pair.mp hm <;> obtain rfl | rfl := List.mem_pair.mp hn
  · exact absurd hkey (by decide)
  · exact .null
  · exact .bool true
  · exact absurd hkey (by decide)

end Jcs

end Servanda
