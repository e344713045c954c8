import Servanda.Instant
import Servanda.Register
import Servanda.Scan

/-!
What a card says a promise comes to if nothing is done: a sentence, and the tone it is said in.
-/

namespace Servanda.Consequence

open Calendar Unicode Scan

inductive ConsequenceTone
  | plain | passed | settled
  deriving DecidableEq, Repr

/-- The sentences, each said of one's own promise or of one that is waited for. -/
inductive Sentence
  | settled | contested | disputed
  | today | tomorrow
  | inDays (n : ℕ)
  | passedToday
  | passedDays (n : ℕ)
  | noDate (days : ℕ)
  deriving DecidableEq, Repr

def decimal (n : ℕ) : Text := text n.repr

def Sentence.text (waiting : Bool) : Sentence → Text
  | settled => Servanda.text "Nothing further."
  | contested => Servanda.text
      "Both of you ended it, differently. It stands until you agree or the window runs out."
  | disputed => Servanda.text "Disagreed. It stands until you agree or replace it."
  | today => if waiting then Servanda.text "Their date is today." else Servanda.text "Due today."
  | tomorrow =>
    if waiting then Servanda.text "Their date is tomorrow." else Servanda.text "Due tomorrow."
  | inDays n =>
    if waiting then Servanda.text "They have " ++ decimal n ++ Servanda.text " days left."
    else Servanda.text "Due in " ++ decimal n ++ Servanda.text " days."
  | passedToday =>
    if waiting then Servanda.text "Their date passed today."
    else Servanda.text "The date passed today."
  | passedDays n =>
    let whose := if waiting then Servanda.text "Their" else Servanda.text "The"
    if n = 1 then whose ++ Servanda.text " date passed yesterday."
    else whose ++ Servanda.text " date passed " ++ decimal n ++ Servanda.text " days ago."
  | noDate days =>
    let how := if waiting then Servanda.text "Waiting" else Servanda.text "Open"
    if days = 1 then Servanda.text "No date. " ++ how ++ Servanda.text " 1 day."
    else Servanda.text "No date. " ++ how ++ Servanda.text " " ++ decimal days ++
      Servanda.text " days."

/-- What the sentence is made from, of all that an item carries. -/
structure LoopItem where
  state : ItemState
  due : Option Text
  ageDays : ℚ

/-- The state by its word on the wire; `vault-local` is none of an edge's. -/
def wireState : ItemState → Option EffectiveState
  | .vaultLocal => none
  | .edge state => some state
  | .expectation .opened => some .opened
  | .expectation .closed => some .closed

/-- The day of an instant, counted from the epoch. -/
def dayOf (t : ℤ) : ℤ := t / msPerDay

/-- `Date.UTC`: the years 0 to 99 are taken for those of the twentieth century. -/
def utc (y m d : ℤ) : ℤ := makeDay (if 0 ≤ y ∧ y ≤ 99 then 1900 + y else y) m d * msPerDay

def startOfDay (t : ℤ) : ℤ :=
  utc (yearFromDay (dayOf t)) (monthFromDay (dayOf t)) (dateFromDay (dayOf t))

def daysBetween (start finish : ℤ) : ℤ := (startOfDay finish - startOfDay start) / msPerDay

/-- What is said of a date, read at an instant. -/
def dated (due now : ℤ) : Sentence × ConsequenceTone :=
  let delta := daysBetween now due
  if delta = 0 then
    if now ≤ due then (.today, .plain) else (.passedToday, .passed)
  else if delta = 1 then (.tomorrow, .plain)
  else if 1 < delta then (.inDays delta.toNat, .plain)
  else (.passedDays delta.natAbs, .passed)

/-- `Date.parse` is the runtime's, `none` for `NaN`. -/
def consequence (dateParse : Text → Option ℤ) (item : LoopItem) (now : Text) :
    Sentence × ConsequenceTone :=
  match wireState item.state with
  | some .closed | some .released | some .expired => (.settled, .settled)
  | some .contestedClosure => (.contested, .passed)
  | some .disputed => (.disputed, .passed)
  | _ =>
    match item.due.bind dateParse, dateParse now with
    | some due, some now => dated due now
    | _, _ => (.noDate ⌊item.ageDays⌋.toNat, .plain)

def consequenceFor (dateParse : Text → Option ℤ) (item : LoopItem) (now : Text) (waiting : Bool) :
    Text × ConsequenceTone :=
  ((consequence dateParse item now).1.text waiting, (consequence dateParse item now).2)

/-- What a sentence says of the days from today to the date, where both can be read, and of the
whole age in days. -/
def Sentence.Holds (between : Option ℤ) (age : ℕ) : Sentence → Prop
  | settled | contested | disputed => True
  | today | passedToday => between = some 0
  | tomorrow => between = some 1
  | inDays n => between = some (n : ℤ)
  | passedDays n => between = some (-(n : ℤ))
  | noDate days => between = none ∧ days = age

def Terminal (state : ItemState) : Prop := ∃ s ∈ terminalStates, wireState state = some s

def Disagreed (state : ItemState) : Prop :=
  wireState state = some .disputed ∨ wireState state = some .contestedClosure

/-- The date and the instant it is read at, where both can be read. -/
def readable (dateParse : Text → Option ℤ) (item : LoopItem) (now : Text) : Option (ℤ × ℤ) :=
  match item.due.bind dateParse, dateParse now with
  | some due, some now => some (due, now)
  | _, _ => none

/-- The card states only what is so of the date. -/
structure StatesTruly (dateParse : Text → Option ℤ) (item : LoopItem) (now : Text)
    (waiting : Bool) : Prop where
  settled : (consequenceFor dateParse item now waiting).2 = .settled ↔ Terminal item.state
  passed : (consequenceFor dateParse item now waiting).2 = .passed ↔ Disagreed item.state ∨
    ¬Terminal item.state ∧ ∃ due time, readable dateParse item now = some (due, time) ∧ due < time
  said : ∃ sentence : Sentence, sentence = (consequence dateParse item now).1 ∧
    (consequenceFor dateParse item now waiting).1 = sentence.text waiting ∧
    sentence.Holds ((readable dateParse item now).map fun (due, time) ↦ dayOf due - dayOf time)
      ⌊item.ageDays⌋.toNat

/-- How far `Date.UTC` moves a date: the year 0 has a leap day and 1900 has none. -/
inductive Era
  | early | twoDigit | other
  deriving DecidableEq

def eraOf (t : ℤ) : Era :=
  if 0 ≤ yearFromDay (dayOf t) ∧ yearFromDay (dayOf t) ≤ 99 then
    if dayOf t < makeDay 0 2 1 then .early else .twoDigit
  else .other

def Era.shift : Era → ℤ
  | early => 693961
  | twoDigit => 693960
  | other => 0

theorem Era.shift_injective : Function.Injective Era.shift := by
  intro a b h
  cases a <;> cases b <;> first | rfl | cases h

theorem makeDay_of_month {y m d : ℤ} (hm : 0 ≤ m ∧ m ≤ 11) :
    makeDay y m d = dayFromYear y + daysBeforeMonth (isLeap y) m + (d - 1) := by
  have hcarry : m / 12 = 0 := by omega
  have hmonth : m % 12 = m := by omega
  simp only [makeDay, hcarry, hmonth, add_zero]

/-- A day is that of its own year, month and date. -/
theorem makeDay_fromDay (day : ℤ) :
    makeDay (yearFromDay day) (monthFromDay day) (dateFromDay day) = day := by
  rw [makeDay_of_month (monthFromDay_bound day), dateFromDay]
  ring

/-- From March on, the year 0 is past its leap day. -/
theorem two_le_monthFromDay {day : ℤ} (h : yearFromDay day = 0) :
    2 ≤ monthFromDay day ↔ makeDay 0 2 1 ≤ day := by
  have hmarch : makeDay 0 2 1 = dayFromYear 0 + 60 := by decide
  have hone : daysBeforeMonth (isLeap 0) 1 = 31 := by decide
  have htwo : daysBeforeMonth (isLeap 0) 2 = 60 := by decide
  have hlater : ∀ m ∈ ([2, 3, 4, 5, 6, 7, 8, 9, 10, 11] : List ℤ),
      60 ≤ daysBeforeMonth (isLeap 0) m := by decide
  unfold monthFromDay
  dsimp only
  rw [h, hmarch, List.filter_cons]
  by_cases hday : dayFromYear 0 + 60 ≤ day
  · refine iff_of_true ?_ hday
    rw [if_pos (decide_eq_true (by omega)), List.filter_cons,
      if_pos (decide_eq_true (by omega)), List.length_cons, List.length_cons]
    push_cast
    omega
  · have hnone : ([2, 3, 4, 5, 6, 7, 8, 9, 10, 11] : List ℤ).filter (fun m ↦
        decide (daysBeforeMonth (isLeap 0) m ≤ day - dayFromYear 0)) = [] := by
      refine List.filter_eq_nil_iff.mpr fun m hm ↦ ?_
      have := hlater m hm
      rw [decide_eq_true_eq]
      omega
    refine iff_of_false ?_ hday
    rw [hnone]
    split_ifs <;> simp

theorem makeDay_early (m d : ℤ) (hm : 0 ≤ m ∧ m ≤ 11) :
    makeDay 1900 m d = makeDay 0 m d + 693961 - if 2 ≤ m then 1 else 0 := by
  have hyears : dayFromYear 1900 = dayFromYear 0 + 693961 := by decide
  have hleap : isLeap 1900 = false ∧ isLeap 0 = true := by decide
  rw [makeDay_of_month hm, makeDay_of_month hm, hyears, hleap.1, hleap.2]
  unfold daysBeforeMonth
  by_cases h : 2 ≤ m <;> simp [h] <;> ring

theorem makeDay_twoDigit {y m : ℤ} (d : ℤ) (hy : 1 ≤ y ∧ y ≤ 99) (hm : 0 ≤ m ∧ m ≤ 11) :
    makeDay (1900 + y) m d = makeDay y m d + 693960 := by
  have hyears : dayFromYear (1900 + y) = dayFromYear y + 693960 := by
    unfold dayFromYear
    omega
  have hleap : isLeap (1900 + y) = isLeap y := by
    have hfour : (1900 + y) % 4 = y % 4 := by omega
    have hcentury : (y % 100 != 0) = true := bne_iff_ne.mpr (by omega)
    have hcentury' : ((1900 + y) % 100 != 0) = true := bne_iff_ne.mpr (by omega)
    rw [isLeap, isLeap, hfour, hcentury, hcentury', Bool.true_or, Bool.true_or]
  rw [makeDay_of_month hm, makeDay_of_month hm, hyears, hleap]
  ring

/-- The start of a day, moved where its year has two digits. -/
theorem startOfDay_eq (t : ℤ) : startOfDay t = (dayOf t + (eraOf t).shift) * msPerDay := by
  have hmonth := monthFromDay_bound (dayOf t)
  have hday := makeDay_fromDay (dayOf t)
  unfold startOfDay utc eraOf
  by_cases hy : 0 ≤ yearFromDay (dayOf t) ∧ yearFromDay (dayOf t) ≤ 99
  · rw [if_pos hy, if_pos hy]
    congr 1
    by_cases hzero : yearFromDay (dayOf t) = 0
    · have hmarch := two_le_monthFromDay hzero
      rw [hzero] at hday ⊢
      rw [add_zero, makeDay_early _ _ hmonth, hday]
      by_cases hearly : dayOf t < makeDay 0 2 1
      · rw [if_pos hearly, if_neg (hmarch.not.mpr (not_le.mpr hearly))]
        exact sub_zero _
      · rw [if_neg hearly, if_pos (hmarch.mpr (not_lt.mp hearly)), Era.shift]
        ring
    · -- The years after the first have their leap days where those of the century have them.
      have hone : 1 ≤ yearFromDay (dayOf t) := by omega
      have hspec := (yearFromDay_spec (dayOf t)).1
      have hmono := dayFromYear_mono hone
      have hmarch : makeDay 0 2 1 < dayFromYear 1 := by decide
      rw [makeDay_twoDigit _ ⟨hone, hy.2⟩ hmonth, hday, if_neg (by omega)]
      rfl
  · rw [if_neg hy, if_neg hy, hday, Era.shift, add_zero]

theorem daysBetween_eq (start finish : ℤ) : daysBetween start finish =
    dayOf finish - dayOf start + ((eraOf finish).shift - (eraOf start).shift) := by
  have hms : msPerDay ≠ 0 := by decide
  rw [daysBetween, startOfDay_eq, startOfDay_eq, ← sub_mul, Int.mul_ediv_cancel _ hms]
  ring

section Dated

variable {due now : ℤ} {age : ℕ}

/-- What is said of a date holds of as many days as it was made from, and of no others. -/
theorem dated_holds_iff {between : ℤ} :
    (dated due now).1.Holds (some between) age ↔ daysBetween now due = between := by
  unfold dated
  dsimp only
  split_ifs with hzero htoday hone hlater
  · simp only [Sentence.Holds, Option.some.injEq, hzero]
    exact eq_comm
  · simp only [Sentence.Holds, Option.some.injEq, hzero]
    exact eq_comm
  · simp only [Sentence.Holds, Option.some.injEq, hone]
    exact eq_comm
  · simp only [Sentence.Holds, Option.some.injEq]
    omega
  · simp only [Sentence.Holds, Option.some.injEq]
    omega

theorem dated_not_settled : (dated due now).2 ≠ .settled := by
  unfold dated
  dsimp only
  split_ifs <;> exact ConsequenceTone.noConfusion

/-- Where the days are counted right, the tone says whether the date is behind. -/
theorem dated_passed_iff (hdays : daysBetween now due = dayOf due - dayOf now) :
    (dated due now).2 = .passed ↔ due < now := by
  have hms : msPerDay = 86400000 := rfl
  unfold dayOf at hdays
  rw [hms] at hdays
  unfold dated
  dsimp only
  split_ifs with hzero htoday hone hlater
  · exact iff_of_false (by decide) (not_lt.mpr htoday)
  · exact iff_of_true rfl (not_le.mp htoday)
  · exact iff_of_false (by decide) (by omega)
  · exact iff_of_false (by decide) (by omega)
  · exact iff_of_true rfl (by omega)

end Dated

variable {dateParse : Text → Option ℤ} {item : LoopItem} {now : Text} {waiting : Bool}

/-- No early return is taken, and the date decides. -/
def Live (state : ItemState) : Prop :=
  ¬Disagreed state ∧ wireState state ∉ [some .closed, some .released, some .expired]

theorem consequence_live (h : Live item.state) : consequence dateParse item now =
    match readable dateParse item now with
    | some (due, now) => dated due now
    | none => (.noDate ⌊item.ageDays⌋.toNat, .plain) := by
  obtain ⟨hagreed, hsettled⟩ := h
  unfold Disagreed at hagreed
  unfold consequence readable
  split
  · next h => simp [h] at hsettled
  · next h => simp [h] at hsettled
  · next h => simp [h] at hsettled
  · next h => simp [h] at hagreed
  · next h => simp [h] at hagreed
  · cases item.due.bind dateParse <;> cases dateParse now <;> rfl

/-- The date and the instant are moved alike. -/
def MovedAlike (dateParse : Text → Option ℤ) (item : LoopItem) (now : Text) : Prop :=
  ∀ due time, readable dateParse item now = some (due, time) → eraOf due = eraOf time

theorem live_cases (state : ItemState) : Live state ∨ Disagreed state ∨
    wireState state ∈ [some .closed, some .released, some .expired] := by
  by_cases hagreed : Disagreed state
  · exact .inr (.inl hagreed)
  · by_cases hsettled : wireState state ∈ [some .closed, some .released, some .expired]
    · exact .inr (.inr hsettled)
    · exact .inl ⟨hagreed, hsettled⟩

theorem not_terminal_of_live (h : Live item.state)
    (hreplaced : wireState item.state ≠ some .superseded) : ¬Terminal item.state := by
  rintro ⟨s, hs, hstate⟩
  have hsettled := h.2
  simp only [terminalStates, List.mem_cons, List.not_mem_nil, or_false] at hs
  obtain rfl | rfl | rfl | rfl := hs
  · simp [hstate] at hsettled
  · simp [hstate] at hsettled
  · simp [hstate] at hsettled
  · exact hreplaced hstate

/-- Nothing that is live is called settled. -/
theorem not_settled_of_live (h : Live item.state) :
    (consequence dateParse item now).2 ≠ .settled := by
  rw [consequence_live h]
  cases readable dateParse item now with
  | none => exact ConsequenceTone.noConfusion
  | some dates => exact dated_not_settled

theorem statesTruly_of_unreadable (h : Live item.state) (hterminal : ¬Terminal item.state)
    (hread : readable dateParse item now = none) : StatesTruly dateParse item now waiting := by
  have hlive := @consequence_live dateParse item now h
  rw [hread] at hlive
  refine ⟨iff_of_false ?_ hterminal, iff_of_false ?_ ?_, _, by rw [hlive], rfl, ?_⟩
  · exact not_settled_of_live h
  · rw [consequenceFor, hlive]
    exact ConsequenceTone.noConfusion
  · rintro (hagreed | ⟨-, due, time, hdates, -⟩)
    · exact h.1 hagreed
    · cases hread.symm.trans hdates
  · rw [hlive, hread]
    exact ⟨rfl, rfl⟩

theorem statesTruly_of_readable {due time : ℤ} (h : Live item.state)
    (hterminal : ¬Terminal item.state) (hread : readable dateParse item now = some (due, time)) :
    StatesTruly dateParse item now waiting ↔ daysBetween time due = dayOf due - dayOf time := by
  have hlive := @consequence_live dateParse item now h
  rw [hread] at hlive
  dsimp only at hlive
  constructor
  · rintro ⟨-, -, sentence, hsentence, -, hholds⟩
    rw [hsentence, hlive, hread] at hholds
    exact dated_holds_iff.mp hholds
  · intro hdays
    refine ⟨iff_of_false (not_settled_of_live h) hterminal, ?_, (dated due time).1,
      by rw [hlive], by rw [consequenceFor, hlive], ?_⟩
    · rw [consequenceFor, hlive]
      refine (dated_passed_iff hdays).trans ⟨fun hlt ↦ .inr ⟨hterminal, due, time, hread, hlt⟩, ?_⟩
      rintro (hagreed | ⟨-, due', time', hdates, hlt⟩)
      · exact absurd hagreed h.1
      · cases hread.symm.trans hdates
        exact hlt
    · rw [hread]
      exact dated_holds_iff.mpr hdays

theorem statesTruly_of_live (h : Live item.state)
    (hreplaced : wireState item.state ≠ some .superseded) :
    StatesTruly dateParse item now waiting ↔ MovedAlike dateParse item now := by
  have hterminal := not_terminal_of_live h hreplaced
  unfold MovedAlike
  cases hread : readable dateParse item now with
  | none =>
    refine iff_of_true (statesTruly_of_unreadable h hterminal hread) ?_
    intro due time hdates
    cases hdates
  | some dates =>
    obtain ⟨due, time⟩ := dates
    rw [statesTruly_of_readable h hterminal hread, daysBetween_eq]
    constructor
    · rintro hdays due' time' hdates
      cases hdates
      refine Era.shift_injective ?_
      omega
    · intro halike
      rw [halike due time rfl]
      omega

theorem statesTruly_of_disagreed (h : Disagreed item.state) :
    StatesTruly dateParse item now waiting := by
  have hterminal : ¬Terminal item.state := by
    rintro ⟨s, hs, hstate⟩
    unfold Disagreed at h
    rw [hstate] at h
    obtain h | h := h <;> cases h <;> simp [terminalStates] at hs
  have htone : (consequence dateParse item now).2 = .passed := by
    unfold consequence
    obtain h | h := h <;> rw [h]
  refine ⟨?_, ?_, _, rfl, rfl, ?_⟩
  · rw [consequenceFor, htone]
    exact iff_of_false (by decide) hterminal
  · rw [consequenceFor, htone]
    exact iff_of_true rfl (.inl h)
  · unfold consequence
    obtain h | h := h <;> rw [h] <;> trivial

theorem statesTruly_of_settled
    (h : wireState item.state ∈ [some .closed, some .released, some .expired]) :
    StatesTruly dateParse item now waiting := by
  have hterminal : Terminal item.state := by
    simp only [List.mem_cons, List.not_mem_nil, or_false] at h
    obtain h | h | h := h
    · exact ⟨_, by decide, h⟩
    · exact ⟨_, by decide, h⟩
    · exact ⟨_, by decide, h⟩
  have htone : consequence dateParse item now = (.settled, .settled) := by
    unfold consequence
    simp only [List.mem_cons, List.not_mem_nil, or_false] at h
    obtain h | h | h := h <;> rw [h]
  refine ⟨?_, ?_, _, rfl, rfl, ?_⟩
  · rw [consequenceFor, htone]
    exact iff_of_true rfl hterminal
  · rw [consequenceFor, htone]
    refine iff_of_false (fun heq ↦ by cases heq) ?_
    rintro (hagreed | ⟨hlive, -⟩)
    · obtain hagreed | hagreed := hagreed <;> rw [hagreed] at h <;> simp at h
    · exact hlive hterminal
  · rw [htone]
    trivial

/-- The card states only what is so of the date, but of a promise that was replaced, and but where
`Date.UTC` takes one year for another and not both dates are moved as far. -/
theorem consequenceFor_true_iff (dateParse : Text → Option ℤ) (item : LoopItem) (now : Text)
    (waiting : Bool) : StatesTruly dateParse item now waiting ↔
      wireState item.state ≠ some .superseded ∧
        (Live item.state → MovedAlike dateParse item now) := by
  by_cases hreplaced : wireState item.state = some .superseded
  · refine iff_of_false (fun htrue ↦ ?_) fun h ↦ h.1 hreplaced
    have hlive : Live item.state := by
      refine ⟨?_, ?_⟩
      · rintro (h | h) <;> cases hreplaced.symm.trans h
      · rw [hreplaced]
        decide
    exact not_settled_of_live hlive (htrue.settled.mpr ⟨_, by decide, hreplaced⟩)
  · rw [and_iff_right hreplaced]
    obtain hlive | hagreed | hsettled := live_cases item.state
    · rw [statesTruly_of_live hlive hreplaced]
      exact ⟨fun halike _ ↦ halike, fun h ↦ h hlive⟩
    · exact iff_of_true (statesTruly_of_disagreed hagreed) fun hlive ↦ absurd hagreed hlive.1
    · exact iff_of_true (statesTruly_of_settled hsettled) fun hlive ↦ absurd hsettled hlive.2

/-- A reading of the instants the server writes. -/
def instants (s : Text) : Option ℤ := (Rfc3339.ofText? (scalars s)).map Date.parse

/-- The card of a promise that was replaced calls it open. -/
theorem replaced_called_open : ¬StatesTruly instants ⟨.edge .superseded, none, 3⟩
    (text "2026-03-01T09:00:00Z") false := by
  intro htrue
  have hsettled := htrue.settled.mpr ⟨.superseded, by decide, rfl⟩
  cases hsettled

end Servanda.Consequence
