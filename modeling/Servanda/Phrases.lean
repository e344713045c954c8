import Servanda.Capture

/-!
A sender's name in front of its address: what decoded encoded words can do to the reading of an
address list.
-/

namespace Servanda.Mime

open Unicode Scan

/-- A `From` value: a phrase, and an address in angle brackets. -/
def fromValue (phrase address : Text) : Text := phrase ++ unit '<' :: address ++ [unit '>']

/-- One entry is read, with the address in the brackets, and that is the one the capture takes.
Under limits that allow no address at all none is read. -/
structure OneAddress (platform : Platform) (phrase address : Text) : Prop where
  entry : ∀ limits, 1 ≤ limits.maxAddresses →
    ∃ m, parseAddressList platform (some (fromValue phrase address)) limits = [m] ∧
      m.address = some address
  taken : ∀ limits, 1 ≤ limits.maxAddresses →
    addressOf (parseAddressList platform (some (fromValue phrase address)) limits) = some address

/-- Where a place in an address list is. -/
structure Reading where
  quoted : Bool
  angle : Bool
  deriving DecidableEq

namespace Reading

def outside : Reading := ⟨false, false⟩

def step (r : Reading) (c : CodeUnit) : Reading :=
  if c = quote ∧ !r.angle then { r with quoted := !r.quoted }
  else if c = unit '<' ∧ !r.quoted then { r with angle := true }
  else if c = unit '>' ∧ !r.quoted then { r with angle := false }
  else r

def after (r : Reading) (s : Text) : Reading := s.foldl step r

end Reading

/-- No comma of a text is outside quotes and angle brackets. -/
def UnseparatedFrom (r : Reading) (s : Text) : Prop :=
  ∀ front back, s = front ++ unit ',' :: back → r.after front ≠ .outside

/-- The first angle bracket and the next closing one enclose an address. -/
def Encloses (s address : Text) : Prop :=
  ∃ before inside after, s = before ++ unit '<' :: (inside ++ unit '>' :: after) ∧
    unit '<' ∉ before ∧ unit '>' ∉ inside ∧ trim inside = address

/-- Nothing but white space and commas stands before the last comma that separates, and the first
brackets after it enclose the address. -/
def Undisturbed (s address : Text) : Prop :=
  ∃ lead item, s = lead ++ item ∧ (∀ u ∈ lead, isSpace u = true ∨ u = unit ',') ∧
    UnseparatedFrom .outside item ∧ Encloses item address

section Separation

variable {r : Reading} {s front back buf : Text} {c : CodeUnit}

theorem Reading.after_cons : r.after (c :: s) = (r.step c).after s := rfl

theorem Reading.after_append : r.after (front ++ back) = (r.after front).after back :=
  List.foldl_append

theorem Reading.step_comma (r : Reading) : r.step (unit ',') = r := by
  have hquote : unit ',' ≠ quote := by decide
  have hopen : unit ',' ≠ unit '<' := by decide
  have hclose : unit ',' ≠ unit '>' := by decide
  simp [Reading.step, hquote, hopen, hclose]

theorem Reading.step_space (r : Reading) (h : isSpace c = true) : r.step c = r := by
  have hquote : c ≠ quote := by rintro rfl; exact absurd h (by decide)
  have hopen : c ≠ unit '<' := by rintro rfl; exact absurd h (by decide)
  have hclose : c ≠ unit '>' := by rintro rfl; exact absurd h (by decide)
  simp [Reading.step, hquote, hopen, hclose]

/-- White space and commas leave a reading as it was. -/
theorem Reading.after_lead (h : ∀ u ∈ s, isSpace u = true ∨ u = unit ',') : r.after s = r := by
  induction s with
  | nil => rfl
  | cons c s ih =>
    obtain ⟨hc, hs⟩ := List.forall_mem_cons.1 h
    have hstep : r.step c = r := by
      obtain hspace | rfl := hc
      · exact r.step_space hspace
      · exact r.step_comma
    rw [Reading.after_cons, hstep, ih hs]

theorem splitCommas_cons : splitCommas buf r.quoted r.angle (c :: s) =
    if c = unit ',' ∧ r.step c = .outside then
      buf :: splitCommas [] (r.step c).quoted (r.step c).angle s
    else splitCommas (buf ++ [c]) (r.step c).quoted (r.step c).angle s := by
  have hquoted : (if c = quote ∧ !r.angle then !r.quoted else r.quoted) = (r.step c).quoted := by
    unfold Reading.step
    split_ifs
    all_goals rfl
  have hangle : (if c = quote ∧ !r.angle then r.angle else if c = unit '<' ∧ !r.quoted then true
      else if c = unit '>' ∧ !r.quoted then false else r.angle) = (r.step c).angle := by
    unfold Reading.step
    split_ifs
    all_goals rfl
  have houtside : r.step c = .outside ↔
      (!(r.step c).quoted) = true ∧ (!(r.step c).angle) = true := by
    obtain ⟨quoted, angle⟩ := r.step c
    cases quoted <;> cases angle <;> decide
  rw [splitCommas, hquoted, hangle]
  simp only [houtside]

theorem unseparated_nil (r : Reading) : UnseparatedFrom r [] := fun _ _ h ↦
  absurd h.symm (List.append_ne_nil_of_right_ne_nil _ (List.cons_ne_nil _ _))

theorem unseparatedFrom_cons : UnseparatedFrom r (c :: s) ↔
    ¬(c = unit ',' ∧ r = .outside) ∧ UnseparatedFrom (r.step c) s := by
  constructor
  · intro h
    refine ⟨?_, fun front back hs ↦ h (c :: front) back (by rw [hs, List.cons_append])⟩
    rintro ⟨rfl, rfl⟩
    exact h [] s rfl rfl
  · rintro ⟨hc, hs⟩ front back heq
    cases front with
    | nil =>
      obtain ⟨rfl, rfl⟩ := List.cons.inj heq
      exact fun hr ↦ hc ⟨rfl, hr⟩
    | cons d front =>
      obtain ⟨rfl, rfl⟩ := List.cons.inj heq
      exact hs front back rfl

theorem splitCommas_unseparated (h : UnseparatedFrom r s) :
    splitCommas buf r.quoted r.angle s = [buf ++ s] := by
  induction s generalizing r buf with
  | nil => rw [splitCommas, List.append_nil]
  | cons c s ih =>
    obtain ⟨hc, hs⟩ := unseparatedFrom_cons.1 h
    have hkept : ¬(c = unit ',' ∧ r.step c = .outside) := by
      rintro ⟨rfl, hr⟩
      rw [r.step_comma] at hr
      exact hc ⟨rfl, hr⟩
    rw [splitCommas_cons, if_neg hkept, ih hs, List.append_assoc, List.singleton_append]

/-- A text is cut at the first comma outside quotes and brackets. -/
theorem splitCommas_separated (h : UnseparatedFrom r front) (hr : r.after front = .outside) :
    splitCommas buf r.quoted r.angle (front ++ unit ',' :: back) =
      (buf ++ front) :: splitCommas [] false false back := by
  induction front generalizing r buf with
  | nil =>
    obtain rfl : r = .outside := hr
    rw [List.nil_append, splitCommas_cons, Reading.step_comma, if_pos ⟨rfl, rfl⟩, List.append_nil]
    rfl
  | cons c front ih =>
    obtain ⟨hc, hfront⟩ := unseparatedFrom_cons.1 h
    have hkept : ¬(c = unit ',' ∧ r.step c = .outside) := by
      rintro ⟨rfl, hr'⟩
      rw [r.step_comma] at hr'
      exact hc ⟨rfl, hr'⟩
    rw [List.cons_append, splitCommas_cons, if_neg hkept, ih hfront hr, List.append_assoc,
      List.singleton_append]

/-- A text has no comma that separates, or a first one. -/
theorem unseparated_or (r : Reading) (s : Text) : UnseparatedFrom r s ∨
    ∃ front back, s = front ++ unit ',' :: back ∧ UnseparatedFrom r front ∧
      r.after front = .outside := by
  induction s generalizing r with
  | nil => exact .inl (unseparated_nil r)
  | cons c s ih =>
    by_cases hc : c = unit ',' ∧ r = .outside
    · obtain ⟨rfl, rfl⟩ := hc
      exact .inr ⟨[], s, rfl, unseparated_nil _, rfl⟩
    · obtain hs | ⟨front, back, rfl, hfront, hr⟩ := ih (r.step c)
      · exact .inl (unseparatedFrom_cons.2 ⟨hc, hs⟩)
      · exact .inr ⟨c :: front, back, rfl, unseparatedFrom_cons.2 ⟨hc, hfront⟩, hr⟩

theorem splitAddressList_unseparated (h : UnseparatedFrom .outside s) :
    splitAddressList s = [trim s].filter (· ≠ []) := by
  have hcut := @splitCommas_unseparated .outside s [] h
  change splitCommas [] false false s = _ at hcut
  rw [splitAddressList, hcut]
  rfl

theorem splitAddressList_separated (h : UnseparatedFrom .outside front)
    (hr : Reading.outside.after front = .outside) :
    splitAddressList (front ++ unit ',' :: back) =
      [trim front].filter (· ≠ []) ++ splitAddressList back := by
  have hcut := @splitCommas_separated .outside front back [] h hr
  change splitCommas [] false false (front ++ unit ',' :: back) = _ at hcut
  rw [splitAddressList, hcut, List.map_cons, splitAddressList, ← List.filter_append]
  rfl

end Separation

section Brackets

variable {s t address before inside : Text} {c : CodeUnit}

theorem takeWhile_ne_append (h : c ∉ s) (t : Text) :
    (s ++ c :: t).takeWhile (· ≠ c) = s := by
  induction s with
  | nil => simp
  | cons u s ih =>
    have hu : u ≠ c := fun heq ↦ h (heq ▸ List.mem_cons_self)
    rw [List.cons_append, List.takeWhile_cons_of_pos (by simpa using hu),
      ih fun hmem ↦ h (List.mem_cons_of_mem u hmem)]

theorem notMem_takeWhile_ne (s : Text) (c : CodeUnit) : c ∉ s.takeWhile (· ≠ c) := fun h ↦ by
  simpa using List.mem_takeWhile_imp h

/-- A text up to the first of a code unit, and from there on. -/
theorem exists_first (h : c ∈ s) : ∃ t, s = s.takeWhile (· ≠ c) ++ c :: t := by
  induction s with
  | nil => exact absurd h List.not_mem_nil
  | cons u s ih =>
    by_cases hu : u = c
    · exact ⟨s, by simp [hu]⟩
    · obtain ⟨t, ht⟩ := ih ((List.mem_cons.1 h).resolve_left fun heq ↦ hu heq.symm)
      refine ⟨t, ?_⟩
      rw [List.takeWhile_cons_of_pos (by simpa using hu), List.cons_append, ← ht]

theorem angleOf_eq_some_iff : angleOf s = some (before, inside) ↔ ∃ after,
    s = before ++ unit '<' :: (inside ++ unit '>' :: after) ∧ unit '<' ∉ before ∧
      unit '>' ∉ inside := by
  unfold angleOf
  constructor
  · intro h
    dsimp only at h
    split at h
    · cases h
    · next c rest hrest =>
      split_ifs at h with hlength
      rw [Option.some.injEq, Prod.mk.injEq] at h
      obtain ⟨hbefore, hinside⟩ := h
      have hopen : unit '<' ∈ s := by
        by_contra hnone
        have hall : s.takeWhile (· ≠ unit '<') = s :=
          List.takeWhile_eq_self_iff.2 fun u hu ↦ by
            simpa using fun heq : u = unit '<' ↦ hnone (heq ▸ hu)
        rw [hall, List.drop_length] at hrest
        cases hrest
      obtain ⟨t, ht⟩ := exists_first hopen
      have hdrop : s.drop (s.takeWhile (· ≠ unit '<')).length = unit '<' :: t := by
        conv_lhs => rw [ht]
        rw [takeWhile_ne_append (notMem_takeWhile_ne _ _), List.drop_left]
      rw [hdrop] at hrest
      obtain ⟨rfl, rfl⟩ := List.cons.inj hrest
      have hclose : unit '>' ∈ t := by
        by_contra hnone
        have hall : t.takeWhile (· ≠ unit '>') = t :=
          List.takeWhile_eq_self_iff.2 fun u hu ↦ by
            simpa using fun heq : u = unit '>' ↦ hnone (heq ▸ hu)
        rw [hall] at hlength
        exact lt_irrefl _ hlength
      obtain ⟨after, hafter⟩ := exists_first hclose
      refine ⟨after, ?_, ?_, ?_⟩
      · rw [← hbefore, ← hinside, ← hafter, ← ht]
      · rw [← hbefore]
        exact notMem_takeWhile_ne _ _
      · rw [← hinside]
        exact notMem_takeWhile_ne _ _
  · rintro ⟨after, rfl, hbefore, hinside⟩
    have hdrop : (before ++ unit '<' :: (inside ++ unit '>' :: after)).drop before.length =
        unit '<' :: (inside ++ unit '>' :: after) := List.drop_left
    rw [takeWhile_ne_append hbefore]
    simp only [hdrop, takeWhile_ne_append hinside]
    rw [if_pos (by simp)]

theorem encloses_iff : Encloses s address ↔
    ∃ before inside, angleOf s = some (before, inside) ∧ trim inside = address := by
  constructor
  · rintro ⟨before, inside, after, hs, hbefore, hinside, htrim⟩
    exact ⟨before, inside, angleOf_eq_some_iff.2 ⟨after, hs, hbefore, hinside⟩, htrim⟩
  · rintro ⟨before, inside, h, htrim⟩
    obtain ⟨after, hs, hbefore, hinside⟩ := angleOf_eq_some_iff.1 h
    exact ⟨before, inside, after, hs, hbefore, hinside, htrim⟩

theorem not_isSpace_bracket : isSpace (unit '<') = false ∧ isSpace (unit '>') = false := by decide

/-- A text whose last unit is a closing bracket is trimmed at its front alone. -/
theorem trim_closed (t : Text) :
    trim (t ++ [unit '>']) = (t ++ [unit '>']).dropWhile isSpace := by
  obtain ⟨front, hfront⟩ : ∃ front, (t ++ [unit '>']).dropWhile isSpace = front ++ [unit '>'] := by
    induction t with
    | nil => exact ⟨[], rfl⟩
    | cons u t ih =>
      rw [List.cons_append, List.dropWhile_cons]
      split_ifs
      · exact ih
      · exact ⟨u :: t, rfl⟩
  rw [trim, hfront, List.rdropWhile_concat_neg _ _ _ (by rw [not_isSpace_bracket.2]; decide)]

theorem encloses_dropWhile : Encloses (s.dropWhile isSpace) address ↔ Encloses s address := by
  have hopen := not_isSpace_bracket.1
  constructor
  · rintro ⟨before, inside, after, hs, hbefore, hinside, htrim⟩
    refine ⟨s.takeWhile isSpace ++ before, inside, after, ?_, ?_, hinside, htrim⟩
    · rw [List.append_assoc, ← hs, List.takeWhile_append_dropWhile]
    · intro hmem
      obtain hmem | hmem := List.mem_append.1 hmem
      · rw [List.mem_takeWhile_imp hmem] at hopen
        cases hopen
      · exact hbefore hmem
  · rintro ⟨before, inside, after, rfl, hbefore, hinside, htrim⟩
    refine ⟨before.dropWhile isSpace, inside, after, ?_, ?_, hinside, htrim⟩
    · rw [List.dropWhile_append, List.dropWhile_cons_of_neg (by rw [hopen]; decide)]
      split
      · next hnil => rw [List.isEmpty_iff.1 hnil, List.nil_append]
      · rfl
    · exact fun hmem ↦ hbefore ((List.dropWhile_suffix _).subset hmem)

theorem not_isAddress_of_bracket (h : unit '>' ∈ s) : isAddress s = false := by
  unfold isAddress
  split
  · next mailbox domain hsplit =>
    have hjoin : [unit '@'].intercalate (s.splitOn (unit '@')) = s :=
      List.intercalate_splitOn (unit '@')
    rw [hsplit] at hjoin
    have hmem : unit '>' ∈ mailbox ++ domain := by
      have hs : s = mailbox ++ unit '@' :: domain := by
        rw [← hjoin]
        simp [List.intercalate]
      rw [hs] at h
      obtain hm | hm := List.mem_append.1 h
      · exact List.mem_append_left _ hm
      · obtain heq | hm := List.mem_cons.1 hm
        · exact absurd heq (by decide)
        · exact List.mem_append_right _ hm
    rw [Bool.and_eq_false_iff]
    refine .inr (List.all_eq_false.2 ⟨_, hmem, by decide⟩)
  · rfl

theorem mem_dropWhile {p : CodeUnit → Bool} (h : c ∈ s) (hc : p c = false) : c ∈ s.dropWhile p := by
  rw [← @List.takeWhile_append_dropWhile _ p s] at h
  obtain hmem | hmem := List.mem_append.1 h
  · rw [List.mem_takeWhile_imp hmem] at hc
    cases hc
  · exact hmem

theorem mem_trim (h : c ∈ s) (hc : isSpace c = false) : c ∈ trim s :=
  List.mem_reverse.2 (mem_dropWhile (List.mem_reverse.2 (mem_dropWhile h hc)) hc)

theorem mem_stripQuotes (h : c ∈ s) (hc : c ≠ quote) : c ∈ stripQuotes s := by
  have htail : c ∈ (if s.head? = some quote then s.tail else s) := by
    split_ifs with hhead
    · obtain ⟨rest, rfl⟩ := List.head?_eq_some_iff.1 hhead
      exact (List.mem_cons.1 h).resolve_left hc
    · exact h
  unfold stripQuotes
  generalize (if s.head? = some quote then s.tail else s) = rest at htail
  dsimp only
  split_ifs with hlast
  · obtain ⟨front, rfl⟩ := List.getLast?_eq_some_iff.1 hlast
    rw [List.dropLast_concat]
    exact (List.mem_append.1 htail).resolve_right fun hmem ↦ hc (List.mem_singleton.1 hmem)
  · exact htail

theorem trim_eq_nil_iff : trim s = [] ↔ ∀ u ∈ s, isSpace u = true := by
  constructor
  · intro h u hu
    by_contra hspace
    have hmem := mem_trim hu (Bool.not_eq_true _ ▸ hspace)
    rw [h] at hmem
    exact absurd hmem List.not_mem_nil
  · intro h
    rw [trim, List.dropWhile_eq_nil_iff.2 h]
    rfl

/-- The entry of an item that ends in a closing bracket has the address its first brackets
enclose. -/
theorem mailAddress_closed (haddress : isAddress address = true) :
    (mailAddress (trim (t ++ [unit '>']))).address = some address ↔
      Encloses (t ++ [unit '>']) address := by
  rw [← encloses_dropWhile, ← trim_closed, encloses_iff]
  unfold mailAddress
  cases hangle : angleOf (trim (t ++ [unit '>'])) with
  | none =>
    have hclosed : unit '>' ∈ trim (t ++ [unit '>']) :=
      mem_trim (List.mem_append_right t List.mem_cons_self) not_isSpace_bracket.2
    have hbare := not_isAddress_of_bracket
      (mem_trim (mem_stripQuotes hclosed (by decide)) not_isSpace_bracket.2)
    simp only [hbare, Bool.false_eq_true, and_false, if_false, reduceCtorEq, false_and,
      exists_false]
  | some found =>
    obtain ⟨before, inside⟩ := found
    simp only [Option.some.injEq, Prod.mk.injEq]
    constructor
    · intro h
      split_ifs at h
      exact ⟨before, inside, ⟨rfl, rfl⟩, Option.some.inj h⟩
    · rintro ⟨_, _, ⟨rfl, rfl⟩, rfl⟩
      rw [if_pos haddress]

end Brackets

section Items

variable {s t front back address : Text}

theorem exists_closed (h : t ++ [unit '>'] = front ++ unit ',' :: back) :
    ∃ rest, back = rest ++ [unit '>'] ∧ rest.length < t.length := by
  obtain rfl | ⟨rest, u, rfl⟩ := List.eq_nil_or_concat back
  · exact absurd (List.append_inj' h rfl).2 (by decide)
  · have hsplit : front ++ unit ',' :: (rest ++ [u]) = (front ++ unit ',' :: rest) ++ [u] := by simp
    rw [List.concat_eq_append, hsplit] at h
    obtain ⟨hfront, hlast⟩ := List.append_inj' h rfl
    refine ⟨rest, ?_, ?_⟩
    · rw [List.concat_eq_append, hlast]
    · rw [hfront, List.length_append, List.length_cons]
      omega

theorem trim_closed_ne_nil (t : Text) : trim (t ++ [unit '>']) ≠ [] :=
  List.ne_nil_of_mem (mem_trim (List.mem_append_right t List.mem_cons_self) not_isSpace_bracket.2)

theorem filter_trim_closed (t : Text) :
    [trim (t ++ [unit '>'])].filter (· ≠ []) = [trim (t ++ [unit '>'])] :=
  List.filter_cons_of_pos (decide_eq_true (trim_closed_ne_nil t))

/-- A list that ends in a closing bracket has items. -/
theorem splitAddressList_ne_nil (t : Text) : splitAddressList (t ++ [unit '>']) ≠ [] := by
  induction hn : t.length using Nat.strong_induction_on generalizing t with
  | _ n ih =>
    obtain h | ⟨front, back, hsplit, hfront, hr⟩ := unseparated_or .outside (t ++ [unit '>'])
    · rw [splitAddressList_unseparated h, filter_trim_closed]
      exact List.cons_ne_nil _ _
    · obtain ⟨rest, rfl, hlength⟩ := exists_closed hsplit
      rw [hsplit, splitAddressList_separated hfront hr]
      exact List.append_ne_nil_of_right_ne_nil _ (ih rest.length (hn ▸ hlength) rest rfl)

/-- Before the first comma that separates, white space and commas are white space. -/
theorem isSpace_of_unseparated (h : ∀ u ∈ front, isSpace u = true ∨ u = unit ',')
    (hfront : UnseparatedFrom .outside front) : ∀ u ∈ front, isSpace u = true := by
  intro u hu
  refine (h u hu).resolve_right ?_
  rintro rfl
  obtain ⟨before, after, rfl⟩ := List.append_of_mem hu
  refine hfront before after rfl (Reading.after_lead fun u hu ↦ h u ?_)
  exact List.mem_append_left _ hu

theorem undisturbed_unseparated (h : UnseparatedFrom .outside s) :
    Undisturbed s address ↔ Encloses s address := by
  constructor
  · rintro ⟨lead, item, rfl, hlead, -, hitem⟩
    have hspace : ∀ u ∈ lead, isSpace u = true := by
      refine isSpace_of_unseparated hlead fun before after heq ↦ ?_
      exact h before (after ++ item) (by rw [heq, List.append_assoc, List.cons_append])
    obtain ⟨before, inside, after, rfl, hbefore, hinside, htrim⟩ := hitem
    refine ⟨lead ++ before, inside, after, (List.append_assoc _ _ _).symm, ?_, hinside, htrim⟩
    intro hmem
    obtain hmem | hmem := List.mem_append.1 hmem
    · exact absurd (hspace _ hmem) (by decide)
    · exact hbefore hmem
  · exact fun hitem ↦ ⟨[], s, rfl, List.forall_mem_nil _, h, hitem⟩

theorem undisturbed_separated (hfront : UnseparatedFrom .outside front)
    (hr : Reading.outside.after front = .outside) :
    Undisturbed (front ++ unit ',' :: back) address ↔
      (∀ u ∈ front, isSpace u = true) ∧ Undisturbed back address := by
  constructor
  · rintro ⟨lead, item, hsplit, hlead, hunseparated, hitem⟩
    obtain ⟨rest, rfl, hrest⟩ | ⟨rest, rfl, hrest⟩ := List.append_eq_append_iff.1 hsplit
    · obtain ⟨rfl, rfl⟩ | ⟨rest, rfl, rfl⟩ := List.cons_eq_append_iff.1 hrest
      · exact absurd rfl (hunseparated [] back rfl)
      · refine ⟨isSpace_of_unseparated (fun u hu ↦ hlead u (List.mem_append_left _ hu)) hfront,
          rest, item, rfl, fun u hu ↦ hlead u ?_, hunseparated, hitem⟩
        exact List.mem_append_right _ (List.mem_cons_of_mem _ hu)
    · rw [Reading.after_append, Reading.after_lead hlead] at hr
      exact absurd hr (hunseparated rest back hrest)
  · rintro ⟨hspace, lead, item, rfl, hlead, hunseparated, hitem⟩
    refine ⟨front ++ unit ',' :: lead, item, by simp, fun u hu ↦ ?_, hunseparated, hitem⟩
    obtain hu | hu := List.mem_append.1 hu
    · exact .inl (hspace u hu)
    · obtain rfl | hu := List.mem_cons.1 hu
      · exact .inr rfl
      · exact hlead u hu

/-- A list that ends in a closing bracket has one item, with the address, exactly where the list is
undisturbed. -/
theorem one_item_iff (haddress : isAddress address = true) (t : Text) :
    (∃ token, splitAddressList (t ++ [unit '>']) = [token] ∧
      (mailAddress token).address = some address) ↔ Undisturbed (t ++ [unit '>']) address := by
  induction hn : t.length using Nat.strong_induction_on generalizing t with
  | _ n ih =>
    obtain h | ⟨front, back, hsplit, hfront, hr⟩ := unseparated_or .outside (t ++ [unit '>'])
    · rw [splitAddressList_unseparated h, filter_trim_closed, undisturbed_unseparated h,
        ← mailAddress_closed haddress]
      constructor
      · rintro ⟨token, htoken, htaken⟩
        rwa [List.cons.inj htoken |>.1]
      · exact fun htaken ↦ ⟨_, rfl, htaken⟩
    · obtain ⟨rest, rfl, hlength⟩ := exists_closed hsplit
      rw [hsplit, splitAddressList_separated hfront hr, undisturbed_separated hfront hr,
        ← ih rest.length (hn ▸ hlength) rest rfl, ← trim_eq_nil_iff]
      by_cases hblank : trim front = []
      · simp [hblank]
      · have hkept : [trim front].filter (· ≠ []) = [trim front] :=
          List.filter_cons_of_pos (decide_eq_true hblank)
        refine iff_of_false ?_ fun h ↦ hblank h.1
        rintro ⟨token, htoken, -⟩
        rw [hkept, List.singleton_append] at htoken
        exact splitAddressList_ne_nil rest (List.cons.inj htoken).2

end Items

section Decoding

variable {platform : Platform} {s rest w after : Text} {u : CodeUnit}

theorem append_of_dropWord (h : dropWord w s = some after) : s = w ++ after := by
  induction w generalizing s with
  | nil => exact Option.some.inj h
  | cons c w ih =>
    cases s with
    | nil => cases h
    | cons v s =>
      rw [dropWord] at h
      split_ifs at h with heq
      rw [heq, ih h, List.cons_append]

theorem not_suffix_closed (s : Text) : ¬text "?=" <:+ s ++ [unit '>'] := by
  rintro ⟨front, hfront⟩
  have hsplit : (front ++ [unit '?']) ++ [unit '='] = s ++ [unit '>'] := by
    rw [← hfront, List.append_assoc]
    rfl
  exact absurd (List.append_inj' hsplit rfl).2 (by decide)

/-- An encoded word ends before a closing bracket at the end of the text. -/
theorem encodedWord_length {out : Text} {n : ℕ}
    (h : encodedWord platform (s ++ [unit '>']) = some (out, n)) : n ≤ s.length := by
  unfold encodedWord at h
  obtain ⟨rest, hrest, h⟩ := Option.bind_eq_some_iff.1 h
  obtain ⟨-, -, h⟩ := Option.bind_eq_some_iff.1 h
  split at h
  · next head enc mark rest' hdrop =>
    obtain ⟨-, -, h⟩ := Option.bind_eq_some_iff.1 h
    obtain ⟨-, -, h⟩ := Option.bind_eq_some_iff.1 h
    obtain ⟨after, hafter, h⟩ := Option.bind_eq_some_iff.1 h
    have hlength := congrArg Prod.snd (Option.some.inj h)
    have hne : after ≠ [] := by
      rintro rfl
      refine not_suffix_closed s ?_
      have hword := append_of_dropWord hafter
      rw [List.append_nil] at hword
      rw [← hword]
      refine (List.drop_suffix _ _).trans (List.IsSuffix.trans ?_ (hdrop ▸ List.drop_suffix _ _ :
        head :: enc :: mark :: rest' <:+ rest) |>.trans ?_)
      · exact ((List.suffix_cons _ _).trans (List.suffix_cons _ _)).trans (List.suffix_cons _ _)
      · exact ⟨_, (append_of_dropWord hrest).symm⟩
    have hpos := List.length_pos_of_ne_nil hne
    simp only [List.length_take, List.length_append, List.length_singleton] at hlength
    omega
  · cases h

theorem encodedWord_closing : encodedWord platform [unit '>'] = none := rfl

theorem scan_closed (skip : ℕ) (hskip : skip ≤ s.length) :
    ∃ front, scan (encodedWord platform) skip (s ++ [unit '>']) = front ++ [.inr (unit '>')] := by
  induction s generalizing skip with
  | nil =>
    obtain rfl : skip = 0 := Nat.le_zero.1 hskip
    exact ⟨[], by rw [List.nil_append, scan, encodedWord_closing]; rfl⟩
  | cons u s ih =>
    cases skip with
    | succ skip =>
      obtain ⟨front, hfront⟩ := ih skip (Nat.le_of_succ_le_succ hskip)
      exact ⟨front, by rw [List.cons_append, scan, hfront]⟩
    | zero =>
      rw [List.cons_append, scan]
      cases hmatch : encodedWord platform (u :: (s ++ [unit '>'])) with
      | none =>
        obtain ⟨front, hfront⟩ := ih 0 (Nat.zero_le _)
        exact ⟨.inr u :: front, by rw [hfront]; rfl⟩
      | some found =>
        have hlength := @encodedWord_length platform (u :: s) found.1 found.2 hmatch
        obtain ⟨front, hfront⟩ := ih (found.2 - 1) (by rw [List.length_cons] at hlength; omega)
        exact ⟨.inl found.1 :: front, by dsimp only; rw [hfront]; rfl⟩

/-- What encoded words are decoded to, a closing bracket at the end stays. -/
theorem decodeEncodedWords_closed (s : Text) :
    ∃ t, decodeEncodedWords platform (s ++ [unit '>']) = t ++ [unit '>'] := by
  obtain ⟨front, hfront⟩ := @scan_closed platform s 0 (Nat.zero_le _)
  refine ⟨front.flatMap (Sum.elim id fun u ↦ [u]), ?_⟩
  rw [decodeEncodedWords, replaceAll, hfront, List.flatMap_append]
  rfl

/-- One entry comes of a name and an address exactly where what the name's encoded words are decoded
to leaves the address list undisturbed. -/
theorem oneAddress_iff (platform : Platform) {phrase address : Text}
    (haddress : isAddress address = true) : OneAddress platform phrase address ↔
      Undisturbed (decodeEncodedWords platform (fromValue phrase address)) address := by
  obtain ⟨t, ht⟩ := @decodeEncodedWords_closed platform (phrase ++ unit '<' :: address)
  have hvalue : decodeEncodedWords platform (fromValue phrase address) = t ++ [unit '>'] := ht
  have hlist : ∀ limits, parseAddressList platform (some (fromValue phrase address)) limits =
      ((splitAddressList (t ++ [unit '>'])).take limits.maxAddresses).map mailAddress := by
    intro limits
    rw [← hvalue]
    rfl
  rw [hvalue, ← one_item_iff haddress]
  constructor
  · intro h
    obtain ⟨m, hm, htaken⟩ := h.entry defaultLimits (by decide)
    rw [hlist] at hm
    obtain ⟨token, htokens, rfl⟩ := List.map_eq_singleton_iff.1 hm
    have hlength := congrArg List.length htokens
    rw [List.length_take, List.length_singleton] at hlength
    have hmax : defaultLimits.maxAddresses = 64 := rfl
    have hall : (splitAddressList (t ++ [unit '>'])).take defaultLimits.maxAddresses =
        splitAddressList (t ++ [unit '>']) := List.take_of_length_le (by omega)
    exact ⟨token, hall.symm.trans htokens, htaken⟩
  · rintro ⟨token, htoken, htaken⟩
    have hone : ∀ limits : MimeLimits, 1 ≤ limits.maxAddresses →
        parseAddressList platform (some (fromValue phrase address)) limits =
          [mailAddress token] := by
      intro limits hlimits
      rw [hlist, htoken, List.take_of_length_le hlimits]
      rfl
    refine ⟨fun limits hlimits ↦ ⟨_, hone limits hlimits, htaken⟩, fun limits hlimits ↦ ?_⟩
    rw [hone limits hlimits]
    simp [addressOf, htaken]

end Decoding

/-- A phrase holds no delimiter of an address list that is not encoded. -/
def isPhrase (phrase : Text) : Bool :=
  phrase.all fun u ↦ u ≠ unit ',' ∧ u ≠ quote ∧ u ≠ unit '<' ∧ u ≠ unit '>'

section Plain

variable {name address : Text}

theorem unseparated_phrase {s : Text} (h : isPhrase name = true) (hs : UnseparatedFrom .outside s) :
    UnseparatedFrom .outside (name ++ s) := by
  induction name with
  | nil => exact hs
  | cons c name ih =>
    rw [isPhrase, List.all_cons, Bool.and_eq_true] at h
    obtain ⟨hc, hname⟩ := h
    obtain ⟨hcomma, hquote, hopen, hclose⟩ := of_decide_eq_true hc
    have hstep : Reading.outside.step c = .outside := by
      simp [Reading.step, hquote, hopen, hclose]
    refine unseparatedFrom_cons.2 ⟨fun hc ↦ hcomma hc.1, ?_⟩
    rw [hstep]
    exact ih hname

theorem unseparated_inside {s : Text} (h : unit '>' ∉ address)
    (hs : UnseparatedFrom ⟨false, true⟩ s) : UnseparatedFrom ⟨false, true⟩ (address ++ s) := by
  induction address with
  | nil => exact hs
  | cons c address ih =>
    rw [List.mem_cons, not_or] at h
    have hstep : (⟨false, true⟩ : Reading).step c = ⟨false, true⟩ := by
      simp [Reading.step, Ne.symm h.1]
    refine unseparatedFrom_cons.2 ⟨fun hc ↦ absurd hc.2 (by decide), ?_⟩
    rw [hstep]
    exact ih h.2

theorem isAddress_units (h : isAddress address = true) :
    ∀ u ∈ address, isSpace u = false ∧ u ≠ unit '<' ∧ u ≠ unit '>' := by
  unfold isAddress at h
  split at h
  · next mailbox domain hsplit =>
    have hjoin : [unit '@'].intercalate (address.splitOn (unit '@')) = address :=
      List.intercalate_splitOn (unit '@')
    have haddress : address = mailbox ++ unit '@' :: domain := by
      rw [← hjoin, hsplit]
      simp [List.intercalate]
    have hall := List.all_eq_true.1 (Bool.and_eq_true_iff.1 h).2
    intro u hu
    have hmem : u ∈ mailbox ++ domain ∨ u = unit '@' := by
      rw [haddress, List.mem_append, List.mem_cons] at hu
      rw [List.mem_append]
      tauto
    obtain hmem | rfl := hmem
    · simpa [and_assoc] using hall u hmem
    · decide
  · cases h

/-- A name that is decoded to no delimiter disturbs nothing. -/
theorem undisturbed_of_phrase (hname : isPhrase name = true) (haddress : isAddress address = true) :
    Undisturbed (fromValue name address) address := by
  have hunits := isAddress_units haddress
  have hclose : unit '>' ∉ address := fun hmem ↦ (hunits _ hmem).2.2 rfl
  have hopen : unit '<' ∉ name := fun hmem ↦
    (of_decide_eq_true (List.all_eq_true.1 hname _ hmem)).2.2.1 rfl
  have htrim : trim address = address := by
    have hspace : ∀ l : Text, (∀ u ∈ l, isSpace u = false) → l.dropWhile isSpace = l := by
      intro l hl
      cases l with
      | nil => rfl
      | cons u l => exact List.dropWhile_cons_of_neg (by simp [hl u List.mem_cons_self])
    rw [trim, hspace address fun u hu ↦ (hunits u hu).1, List.rdropWhile,
      hspace _ fun u hu ↦ (hunits u (List.mem_reverse.1 hu)).1, List.reverse_reverse]
  have hsplit : fromValue name address = name ++ unit '<' :: (address ++ unit '>' :: []) := by
    simp [fromValue]
  rw [hsplit]
  refine ⟨[], _, rfl, List.forall_mem_nil _, unseparated_phrase hname ?_, name, address, [], rfl,
    hopen, hclose, htrim⟩
  refine unseparatedFrom_cons.2 ⟨fun hc ↦ absurd hc.1 (by decide), ?_⟩
  have hstep : Reading.outside.step (unit '<') = ⟨false, true⟩ := by decide
  rw [hstep]
  refine unseparated_inside hclose (unseparatedFrom_cons.2 ⟨fun hc ↦ absurd hc.1 (by decide), ?_⟩)
  exact unseparated_nil _

end Plain

/-- A name outside ASCII is decoded, and the address behind it stays the sender's. -/
theorem oneAddress_umlaut :
    OneAddress Sample.asciiPlatform (text "=?utf-8?q?J=C3=B6rg?= ") (text "a@b.c") := by
  have hdecoded : decodeEncodedWords Sample.asciiPlatform
      (fromValue (text "=?utf-8?q?J=C3=B6rg?= ") (text "a@b.c")) =
        fromValue (text "J\u00F6rg ") (text "a@b.c") := by decide +kernel
  have haddress : isAddress (text "a@b.c") = true := by decide +kernel
  have hname : isPhrase (text "J\u00F6rg ") = true := by decide +kernel
  have hplain := undisturbed_of_phrase hname haddress
  rw [← hdecoded] at hplain
  exact (oneAddress_iff Sample.asciiPlatform haddress).2 hplain

/-- A comma in an encoded word makes two entries of one, and the first is the name's. -/
theorem name_taken : ¬∀ platform phrase address, isPhrase phrase = true → isAddress address = true →
    OneAddress platform phrase address := by
  intro h
  have hphrase : isPhrase (text "=?utf-8?q?evil=40x=2C?= ") = true := by decide +kernel
  have haddress : isAddress (text "real@y") = true := by decide +kernel
  have htaken := (h Sample.asciiPlatform _ _ hphrase haddress).taken defaultLimits (by decide)
  have hname : addressOf (parseAddressList Sample.asciiPlatform
      (some (fromValue (text "=?utf-8?q?evil=40x=2C?= ") (text "real@y"))) defaultLimits) =
        some (text "evil@x") := by decide +kernel
  rw [hname] at htaken
  exact absurd htaken (by decide +kernel)

end Servanda.Mime
