import Servanda.Inbox
import Mathlib.Algebra.Order.Ring.WithTop
import Mathlib.Data.NNRat.Floor

/-!
The proposal budget over whole runs: what a sender, and what all unknown senders, are admitted.
-/

namespace Servanda.AntiSpam

variable {σ : Type} [DecidableEq σ]

/-- A number that is not negative, or infinite. -/
abbrev Amount := WithTop ℚ≥0

def below (elapsed : ℚ) : Amount → Bool
  | none => true
  | some amount => elapsed < amount

def atMost (elapsed : ℚ) : Amount → Bool
  | none => true
  | some amount => elapsed ≤ amount

structure ProposalBudget (σ : Type) where
  cap : ℕ
  perSender : Amount
  windowMs : Amount
  recent : σ → List ℤ
  surfacedLevelZero : ℕ

structure Call (σ : Type) where
  sender : σ
  level : VerificationLevel
  now : ℤ

namespace ProposalBudget

variable (budget : ProposalBudget σ)

def seen (sender : σ) (now : ℤ) : List ℤ :=
  (budget.recent sender).filter fun t ↦ below (now - t) budget.windowMs

def remember (sender : σ) (seen : List ℤ) : ProposalBudget σ :=
  { budget with recent := Function.update budget.recent sender seen }

/-- May a proposal be surfaced? Counts are only advanced on an answer that is no suppression. -/
def admits (c : Call σ) : ProposalBudget σ × Option Suppression :=
  if c.level ≠ .zero then (budget, none)
  else
    let seen := budget.seen c.sender c.now
    if budget.perSender ≤ seen.length then (budget.remember c.sender seen, some .rateLimited)
    else if budget.cap ≤ budget.surfacedLevelZero then
      (budget.remember c.sender seen, some .levelZeroCapReached)
    else
      ({ budget.remember c.sender (seen ++ [c.now]) with
        surfacedLevelZero := budget.surfacedLevelZero + 1 }, none)

/-- The answers to calls in turn. -/
def answers : ProposalBudget σ → List (Call σ) → List (Option Suppression)
  | _, [] => []
  | budget, c :: calls => (budget.admits c).2 :: answers (budget.admits c).1 calls

/-- The calls at level zero that are admitted. -/
def admissions : ProposalBudget σ → List (Call σ) → List (Call σ)
  | _, [] => []
  | budget, c :: calls =>
    let rest := admissions (budget.admits c).1 calls
    if c.level = .zero ∧ (budget.admits c).2 = none then c :: rest else rest

/-- What the constructor makes of a cap it accepts. -/
def new (cap : ℕ) (perSender windowMs : Amount) : ProposalBudget σ where
  cap
  perSender
  windowMs
  recent _ := []
  surfacedLevelZero := 0

end ProposalBudget

/-- A half-open interval, closed at one of its ends. -/
inductive Interval
  | from (start : ℚ)
  | after (start : ℚ)

def Interval.holds (length : Amount) : Interval → ℚ → Bool
  | .from start, t => start ≤ t && below (t - start) length
  | .after start, t => start < t && atMost (t - start) length

/-- The clock does not go back from one call to the next. -/
def NonDecreasing (calls : List (Call σ)) : Prop := calls.Pairwise fun c c' ↦ c.now ≤ c'.now

/-- The budget of a node whose limit and window are whole numbers, as one of these. -/
def ofNode (budget : Servanda.ProposalBudget) : ProposalBudget PublicKeyHex where
  cap := budget.cap
  perSender := (budget.perSender.toNat : ℚ≥0)
  windowMs := (budget.windowMs.toNat : ℚ≥0)
  recent := budget.recent
  surfacedLevelZero := budget.surfacedLevelZero

/-- What a budget promises over every run. -/
structure Holds (σ : Type) [DecidableEq σ] (cap : ℕ) (limit window : Amount) : Prop where
  total : ∀ calls : List (Call σ), NonDecreasing calls →
    ((ProposalBudget.new cap limit window).admissions calls).length ≤ cap
  perSender : ∀ calls : List (Call σ), NonDecreasing calls → ∀ sender (interval : Interval),
    ((((ProposalBudget.new cap limit window).admissions calls).filter fun c ↦
      c.sender = sender && interval.holds window c.now).length : Amount) ≤ limit
  refused : ∀ (before : List (Call σ)) c after, NonDecreasing (before ++ c :: after) →
    ∀ suppression,
    ((ProposalBudget.new cap limit window).answers (before ++ c :: after))[before.length]? =
        some (some suppression) →
      (ProposalBudget.new cap limit window).answers (before ++ after) =
        ((ProposalBudget.new cap limit window).answers (before ++ c :: after)).eraseIdx
          before.length
  otherLevels : ∀ (before : List (Call σ)) c after, NonDecreasing (before ++ c :: after) →
    c.level ≠ .zero →
    (ProposalBudget.new cap limit window).answers (before ++ after) =
      ((ProposalBudget.new cap limit window).answers (before ++ c :: after)).eraseIdx before.length

theorem below_natCast (elapsed : ℤ) (n : ℕ) :
    below elapsed ((n : ℚ≥0) : Amount) = decide (elapsed < n) := by
  refine decide_eq_decide.2 ?_
  rw [NNRat.cast_natCast, ← Int.cast_natCast, Int.cast_lt]

/-- A node admits what these budgets admit. -/
theorem admits_ofNode {budget : Servanda.ProposalBudget} (hwindow : 0 ≤ budget.windowMs)
    (sender : PublicKeyHex) (level : VerificationLevel) (now : ℤ) :
    (ofNode budget).admits ⟨sender, level, now⟩ =
      (ofNode (budget.admission now sender level).1, (budget.admission now sender level).2) := by
  have hbelow : ∀ t : ℤ, below (now - t) (ofNode budget).windowMs =
      decide (now - t < budget.windowMs) := by
    intro t
    have hcast : ((now : ℚ) - t) = ((now - t : ℤ) : ℚ) := (Int.cast_sub now t).symm
    rw [hcast, ofNode, below_natCast, Int.toNat_of_nonneg hwindow]
  have hseen : (ofNode budget).seen sender now =
      (budget.recent sender).filter fun t ↦ decide (now - t < budget.windowMs) :=
    List.filter_congr fun t _ ↦ hbelow t
  have hlimit : ∀ n : ℕ, (ofNode budget).perSender ≤ n ↔ budget.perSender ≤ n := by
    intro n
    rw [← Int.toNat_le]
    exact WithTop.coe_le_coe.trans Nat.cast_le
  have hcap : (ofNode budget).cap ≤ (ofNode budget).surfacedLevelZero ↔
      budget.cap ≤ budget.surfacedLevelZero := Iff.rfl
  unfold ProposalBudget.admits Servanda.ProposalBudget.admission
  simp only [hseen, hlimit, hcap]
  split_ifs
  all_goals rfl

theorem below_of_le {elapsed elapsed' : ℚ} {amount : Amount} (hle : elapsed ≤ elapsed')
    (h : below elapsed' amount = true) : below elapsed amount = true := by
  cases amount with
  | none => rfl
  | some amount => exact decide_eq_true (hle.trans_lt (of_decide_eq_true h))

/-- No two times of an interval are as far apart as it is long. -/
theorem Interval.below_of_holds {length : Amount} {interval : Interval} {t t' : ℚ}
    (h : interval.holds length t = true) (h' : interval.holds length t' = true) :
    below (t' - t) length = true := by
  cases interval with
  | «from» start =>
    simp only [holds, Bool.and_eq_true, decide_eq_true_eq] at h h'
    exact below_of_le (by linarith) h'.2
  | after start =>
    simp only [holds, Bool.and_eq_true, decide_eq_true_eq] at h h'
    cases length with
    | none => rfl
    | some length =>
      have hle : t' - start ≤ length := of_decide_eq_true h'.2
      exact decide_eq_true (by linarith)

namespace ProposalBudget

variable {b b' : ProposalBudget σ} {c : Call σ} {calls before later : List (Call σ)} {sender : σ}
  {now p : ℤ} {l : List ℤ} {suppression : Suppression}

/-- The state after calls in turn. -/
def run (b : ProposalBudget σ) (calls : List (Call σ)) : ProposalBudget σ :=
  calls.foldl (fun b c ↦ (b.admits c).1) b

theorem answers_append :
    answers b (before ++ later) = answers b before ++ answers (b.run before) later := by
  induction before generalizing b with
  | nil => rfl
  | cons c before ih => exact congrArg _ ih

theorem length_answers : (answers b calls).length = calls.length := by
  induction calls generalizing b with
  | nil => rfl
  | cons c calls ih => exact congrArg (· + 1) ih

theorem seen_remember : (b.remember c.sender l).seen sender now =
    if sender = c.sender then l.filter fun t : ℤ ↦ below (now - t) b.windowMs
    else b.seen sender now := by
  unfold seen remember
  by_cases h : sender = c.sender
  · subst h
    simp
  · simp [h]

omit [DecidableEq σ] in
/-- What is out of the window stays out of it. -/
theorem seen_filter (hle : p ≤ now) :
    (b.seen sender p).filter (fun t : ℤ ↦ below (now - t) b.windowMs) = b.seen sender now := by
  rw [seen, List.filter_filter, seen]
  refine List.filter_congr fun t _ ↦ ?_
  cases hnow : below (now - t) b.windowMs with
  | false => rfl
  | true =>
    have hcast : (p : ℚ) ≤ now := Int.cast_le.2 hle
    rw [below_of_le (by linarith) hnow]
    rfl

/-- Two budgets that answer alike from some time on. -/
structure Alike (p : ℤ) (b b' : ProposalBudget σ) : Prop where
  cap : b.cap = b'.cap
  perSender : b.perSender = b'.perSender
  windowMs : b.windowMs = b'.windowMs
  surfaced : b.surfacedLevelZero = b'.surfacedLevelZero
  seen : ∀ sender now, p ≤ now → b.seen sender now = b'.seen sender now

theorem admits_other (h : c.level ≠ .zero) : b.admits c = (b, none) := if_pos h

/-- The three ways a call at level zero goes. -/
theorem admits_zero (h : c.level = .zero) : b.admits c =
    if b.perSender ≤ (b.seen c.sender c.now).length then
      (b.remember c.sender (b.seen c.sender c.now), some .rateLimited)
    else if b.cap ≤ b.surfacedLevelZero then
      (b.remember c.sender (b.seen c.sender c.now), some .levelZeroCapReached)
    else
      ({ b.remember c.sender (b.seen c.sender c.now ++ [c.now]) with
        surfacedLevelZero := b.surfacedLevelZero + 1 }, none) := if_neg (not_not.2 h)

theorem Alike.remember (h : Alike p b b') (hle : p ≤ c.now) :
    Alike c.now (b.remember c.sender l) (b'.remember c.sender l) where
  cap := h.cap
  perSender := h.perSender
  windowMs := h.windowMs
  surfaced := h.surfaced
  seen sender now hnow := by
    rw [seen_remember, seen_remember, h.windowMs, h.seen sender now (hle.trans hnow)]

theorem Alike.admits (h : Alike p b b') (hle : p ≤ c.now) :
    (b.admits c).2 = (b'.admits c).2 ∧ Alike c.now (b.admits c).1 (b'.admits c).1 := by
  by_cases hlevel : c.level = .zero
  · rw [admits_zero hlevel, admits_zero hlevel, h.perSender, h.cap, h.surfaced, h.seen _ _ hle]
    have hremember := fun l ↦ @Alike.remember _ _ b b' c p l h hle
    split
    · exact ⟨rfl, hremember _⟩
    · split
      · exact ⟨rfl, hremember _⟩
      · obtain ⟨hcap, hperSender, hwindow, -, hseen⟩ :=
          hremember (b'.seen c.sender c.now ++ [c.now])
        exact ⟨rfl, hcap, hperSender, hwindow, rfl, hseen⟩
  · rw [admits_other hlevel, admits_other hlevel]
    exact ⟨rfl, { h with seen := fun sender now hnow ↦ h.seen sender now (hle.trans hnow) }⟩

theorem Alike.answers (h : Alike p b b') (hlater : ∀ c ∈ calls, p ≤ c.now)
    (hcalls : NonDecreasing calls) : answers b calls = answers b' calls := by
  induction calls generalizing p b b' with
  | nil => rfl
  | cons c calls ih =>
    obtain ⟨hc, -⟩ := List.forall_mem_cons.1 hlater
    obtain ⟨hfirst, hrest⟩ := List.pairwise_cons.1 hcalls
    obtain ⟨hanswer, hnext⟩ := h.admits hc
    exact congrArg₂ List.cons hanswer (ih hnext hfirst hrest)

/-- A refusal forgets nothing that is still in the window. -/
theorem alike_of_refused (h : (b.admits c).2 = some suppression) : Alike c.now (b.admits c).1 b := by
  by_cases hlevel : c.level = .zero
  · have hforget : Alike c.now (b.remember c.sender (b.seen c.sender c.now)) b := by
      refine ⟨rfl, rfl, rfl, rfl, fun sender now hnow ↦ ?_⟩
      rw [seen_remember]
      split
      · next hsender => rw [hsender, seen_filter hnow]
      · rfl
    rw [admits_zero hlevel] at h ⊢
    split_ifs at h ⊢
    · exact hforget
    · exact hforget
  · rw [admits_other hlevel] at h
    cases h

theorem answers_at : (answers b (before ++ c :: later))[before.length]? =
    some ((b.run before).admits c).2 := by
  rw [answers_append, List.getElem?_append_right length_answers.le, length_answers, Nat.sub_self]
  rfl

theorem eraseIdx_answers : (answers b (before ++ c :: later)).eraseIdx before.length =
    answers b before ++ answers ((b.run before).admits c).1 later := by
  rw [answers_append, ← @length_answers _ _ b before, List.eraseIdx_append_of_length_le le_rfl,
    Nat.sub_self]
  rfl

theorem answers_without (hcalls : NonDecreasing (before ++ c :: later))
    (h : Alike c.now ((b.run before).admits c).1 (b.run before)) :
    answers b (before ++ later) = (answers b (before ++ c :: later)).eraseIdx before.length := by
  obtain ⟨-, hrest, -⟩ := List.pairwise_append.1 hcalls
  obtain ⟨hfirst, hlater⟩ := List.pairwise_cons.1 hrest
  rw [eraseIdx_answers, answers_append, h.answers hfirst hlater]

/-- What a state remembers of the admissions that led to it. -/
structure Logged (p : ℤ) (b : ProposalBudget σ) (log : List (Call σ)) : Prop where
  surfaced : b.surfacedLevelZero = log.length
  capped : log.length ≤ b.cap
  seen : ∀ sender now, p ≤ now → b.seen sender now =
    ((log.filter fun c ↦ c.sender = sender).map Call.now).filter fun t : ℤ ↦
      below (now - t) b.windowMs

theorem logged_new (p : ℤ) (cap : ℕ) (limit window : Amount) :
    Logged p (@new σ cap limit window) [] where
  surfaced := rfl
  capped := Nat.zero_le _
  seen _ _ _ := rfl

variable {log : List (Call σ)}

/-- A call at level zero is admitted where neither the limit nor the cap is reached. -/
structure Admissible (b : ProposalBudget σ) (c : Call σ) : Prop where
  level : c.level = .zero
  limit : ¬b.perSender ≤ (b.seen c.sender c.now).length
  cap : b.surfacedLevelZero < b.cap

theorem admitted_iff : c.level = .zero ∧ (b.admits c).2 = none ↔ Admissible b c := by
  constructor
  · rintro ⟨hlevel, hnone⟩
    rw [admits_zero hlevel] at hnone
    split_ifs at hnone with hlimit hcap
    exact ⟨hlevel, hlimit, not_le.1 hcap⟩
  · rintro ⟨hlevel, hlimit, hcap⟩
    rw [admits_zero hlevel, if_neg hlimit, if_neg (not_le.2 hcap)]
    exact ⟨hlevel, rfl⟩

theorem Logged.admitted (h : Logged p b log) (hle : p ≤ c.now) (hc : Admissible b c) :
    Logged c.now (b.admits c).1 (log ++ [c]) := by
  rw [admits_zero hc.level, if_neg hc.limit, if_neg (not_le.2 hc.cap)]
  refine ⟨by simp [h.surfaced], ?_, fun sender now hnow ↦ ?_⟩
  · have hroom := hc.cap
    rw [h.surfaced] at hroom
    rw [List.length_append, List.length_singleton]
    exact hroom
  · have hbefore := h.seen sender now (hle.trans hnow)
    have hremember := @seen_remember _ _ b c sender now (b.seen c.sender c.now ++ [c.now])
    have hsame : ProposalBudget.seen { b.remember c.sender (b.seen c.sender c.now ++ [c.now]) with
        surfacedLevelZero := b.surfacedLevelZero + 1 } sender now =
        (b.remember c.sender (b.seen c.sender c.now ++ [c.now])).seen sender now := rfl
    rw [hsame, hremember]
    by_cases hsender : sender = c.sender
    · subst hsender
      rw [if_pos rfl, List.filter_append, seen_filter hnow, hbefore]
      simp [List.filter_append]
      rfl
    · rw [if_neg hsender, hbefore]
      simp [List.filter_append, Ne.symm hsender]
      rfl

theorem Logged.skipped (h : Logged p b log) (hle : p ≤ c.now)
    (hc : ¬(c.level = .zero ∧ (b.admits c).2 = none)) : Logged c.now (b.admits c).1 log := by
  have halike : Alike c.now (b.admits c).1 b := by
    cases hanswer : (b.admits c).2 with
    | some suppression => exact alike_of_refused hanswer
    | none =>
      have hlevel : c.level ≠ .zero := fun hlevel ↦ hc ⟨hlevel, hanswer⟩
      rw [admits_other hlevel]
      exact ⟨rfl, rfl, rfl, rfl, fun _ _ _ ↦ rfl⟩
  refine ⟨halike.surfaced.trans h.surfaced, halike.cap ▸ h.capped, fun sender now hnow ↦ ?_⟩
  rw [halike.seen sender now hnow, h.seen sender now (hle.trans hnow), halike.windowMs]

/-- Two budgets under the same options. -/
def SameOptions (b b' : ProposalBudget σ) : Prop :=
  b'.cap = b.cap ∧ b'.perSender = b.perSender ∧ b'.windowMs = b.windowMs

theorem sameOptions_admits (b : ProposalBudget σ) (c : Call σ) : SameOptions b (b.admits c).1 := by
  by_cases hlevel : c.level = .zero
  · rw [admits_zero hlevel]
    split_ifs
    all_goals exact ⟨rfl, rfl, rfl⟩
  · rw [admits_other hlevel]
    exact ⟨rfl, rfl, rfl⟩

/-- What holds of no admissions, and of one more wherever it holds, holds of those of a run. -/
theorem admissions_induction {P : List (Call σ) → Prop} (hlogged : Logged p b log)
    (hlater : ∀ c ∈ calls, p ≤ c.now) (hcalls : NonDecreasing calls) (hlog : P log)
    (hstep : ∀ p' b' log' c, Logged p' b' log' → p' ≤ c.now → Admissible b' c → SameOptions b b' →
      P log' → P (log' ++ [c])) : P (log ++ admissions b calls) := by
  induction calls generalizing p b log with
  | nil => rwa [admissions, List.append_nil]
  | cons c calls ih =>
    obtain ⟨hc, -⟩ := List.forall_mem_cons.1 hlater
    obtain ⟨hfirst, hrest⟩ := List.pairwise_cons.1 hcalls
    obtain ⟨hcap, hlimit, hwindow⟩ := sameOptions_admits b c
    have hstep' : ∀ p' b' log' c', Logged p' b' log' → p' ≤ c'.now → Admissible b' c' →
        SameOptions (b.admits c).1 b' → P log' → P (log' ++ [c']) := by
      intro p' b' log' c' hlogged' hle hadmissible ⟨hcap', hlimit', hwindow'⟩
      exact hstep p' b' log' c' hlogged' hle hadmissible
        ⟨hcap'.trans hcap, hlimit'.trans hlimit, hwindow'.trans hwindow⟩
    rw [admissions]
    split
    · next hadmitted =>
      have hadmissible := admitted_iff.1 hadmitted
      have hnext := ih (hlogged.admitted hc hadmissible) hfirst hrest
        (hstep p b log c hlogged hc hadmissible ⟨rfl, rfl, rfl⟩ hlog) hstep'
      rwa [List.append_assoc] at hnext
    · next hskipped => exact ih (hlogged.skipped hc hskipped) hfirst hrest hlog hstep'

theorem admissions_new {cap : ℕ} {limit window : Amount} {P : List (Call σ) → Prop}
    (hcalls : NonDecreasing calls) (hnil : P [])
    (hstep : ∀ p b log c, Logged p b log → p ≤ c.now → Admissible b c →
      SameOptions (new cap limit window) b → P log → P (log ++ [c])) :
    P (admissions (new cap limit window) calls) := by
  obtain ⟨p, hp⟩ : ∃ p, ∀ c ∈ calls, p ≤ c.now := by
    cases calls with
    | nil => exact ⟨0, List.forall_mem_nil _⟩
    | cons c calls =>
      exact ⟨c.now, List.forall_mem_cons.2 ⟨le_rfl, (List.pairwise_cons.1 hcalls).1⟩⟩
  exact admissions_induction (logged_new p cap limit window) hp hcalls hnil hstep

/-- The admissions of a sender in an interval are all remembered at a time in it. -/
theorem Logged.count_le (h : Logged p b log) {interval : Interval} (hle : p ≤ now)
    (hnow : interval.holds b.windowMs now = true) :
    (log.filter fun c ↦ c.sender = sender && interval.holds b.windowMs c.now).length ≤
      (b.seen sender now).length := by
  have hfilter : (log.filter fun c ↦ c.sender = sender && interval.holds b.windowMs c.now) =
      (log.filter fun c ↦ c.sender = sender).filter fun c ↦ interval.holds b.windowMs c.now := by
    rw [List.filter_filter]
    exact List.filter_congr fun c _ ↦ Bool.and_comm _ _
  rw [h.seen sender now hle, List.filter_map, List.length_map, hfilter]
  refine (List.monotone_filter_right _ fun c hc ↦ ?_).length_le
  exact Interval.below_of_holds hc hnow

end ProposalBudget

/-- A whole number, or infinite. -/
def Whole (limit : Amount) : Prop := limit = ⊤ ∨ ∃ n : ℕ, limit = n

theorem Whole.succ_le {limit : Amount} (h : Whole limit) {n : ℕ} (hlt : (n : Amount) < limit) :
    ((n + 1 : ℕ) : Amount) ≤ limit := by
  obtain rfl | ⟨m, rfl⟩ := h
  · exact le_top
  · exact Nat.cast_le.2 (Nat.cast_lt.1 hlt)

namespace ProposalBudget

variable {cap : ℕ} {limit window : Amount} {calls : List (Call σ)}

theorem admissions_le_cap (hcalls : NonDecreasing calls) :
    ((new cap limit window).admissions calls).length ≤ cap := by
  refine @admissions_new _ _ _ cap limit window (fun log ↦ log.length ≤ cap) hcalls (Nat.zero_le _)
    fun p b log c hlogged hle hadmissible hoptions _ ↦ ?_
  have hcapped := (hlogged.admitted hle hadmissible).capped
  rwa [(sameOptions_admits b c).1, hoptions.1] at hcapped

/-- The last admission in an interval still sees all the others in it. -/
theorem admissions_le_limit (hwhole : Whole limit) (hcalls : NonDecreasing calls) (sender : σ)
    (interval : Interval) : ((((new cap limit window).admissions calls).filter fun c ↦
      c.sender = sender && interval.holds window c.now).length : Amount) ≤ limit := by
  refine @admissions_new _ _ _ cap limit window (fun log ↦ ((log.filter fun c ↦
    c.sender = sender && interval.holds window c.now).length : Amount) ≤ limit) hcalls bot_le
    fun p b log c hlogged hle hadmissible hoptions hlog ↦ ?_
  obtain ⟨-, hlimit, hwindow⟩ := hoptions
  rw [List.filter_append, List.length_append]
  cases hcounted : (c.sender = sender && interval.holds window c.now : Bool) with
  | false => simpa [List.filter_cons, hcounted] using hlog
  | true =>
    simp only [Bool.and_eq_true, decide_eq_true_eq] at hcounted
    obtain ⟨rfl, hnow⟩ := hcounted
    have hwindow' : b.windowMs = window := hwindow
    have hcount := @Logged.count_le _ _ b c.sender c.now p log hlogged interval hle
      (hwindow' ▸ hnow)
    have hroom : ((b.seen c.sender c.now).length : Amount) < limit := by
      have hlt := not_le.1 hadmissible.limit
      rwa [hlimit] at hlt
    rw [hwindow'] at hcount
    simpa [List.filter_cons, hnow] using hwhole.succ_le ((Nat.cast_le.2 hcount).trans_lt hroom)

theorem admissions_of_empty (interval : Interval) (t : ℚ) : interval.holds 0 t = false := by
  cases interval with
  | «from» start =>
    have hzero : below (t - start) 0 = decide (t - start < (0 : ℚ≥0)) := rfl
    simp [Interval.holds, hzero]
  | after start =>
    have hzero : atMost (t - start) 0 = decide (t - start ≤ (0 : ℚ≥0)) := rfl
    simp [Interval.holds, hzero]

end ProposalBudget

/-- The condition under which a limit is kept. -/
def Keepable (cap : ℕ) (limit window : Amount) : Prop :=
  Whole limit ∨ (cap : Amount) ≤ limit ∨ window = 0

theorem holds_of_keepable {cap : ℕ} {limit window : Amount} (h : Keepable cap limit window) :
    Holds σ cap limit window where
  total calls := ProposalBudget.admissions_le_cap
  perSender calls hcalls sender interval := by
    obtain hwhole | hcap | rfl := h
    · exact ProposalBudget.admissions_le_limit hwhole hcalls sender interval
    · have htotal := @ProposalBudget.admissions_le_cap _ _ cap limit window calls hcalls
      exact (Nat.cast_le.2 ((List.length_filter_le _ _).trans htotal)).trans hcap
    · simp [ProposalBudget.admissions_of_empty]
  refused before c after hcalls suppression h := by
    rw [ProposalBudget.answers_at, Option.some.injEq] at h
    exact ProposalBudget.answers_without hcalls (ProposalBudget.alike_of_refused h)
  otherLevels before c after hcalls hlevel := by
    refine ProposalBudget.answers_without hcalls ?_
    rw [ProposalBudget.admits_other hlevel]
    exact ⟨rfl, rfl, rfl, rfl, fun _ _ _ ↦ rfl⟩

section Burst

variable [Inhabited σ] {cap n : ℕ} {limit window : Amount}

/-- One sender's proposal at one time. -/
def burst : Call σ := ⟨default, .zero, 0⟩

theorem below_zero (h : window ≠ 0) : below 0 window = true := by
  cases window with
  | none => rfl
  | some w =>
    have hw : w ≠ 0 := fun hzero ↦ h (congrArg some hzero)
    exact decide_eq_true (NNRat.coe_pos.2 (pos_iff_ne_zero.2 hw))

theorem seen_burst {b : ProposalBudget σ} {k : ℕ} (hwindow : b.windowMs ≠ 0)
    (h : ProposalBudget.Logged 0 b (List.replicate k burst)) : (b.seen default 0).length = k := by
  have hfresh : below ((0 : ℤ) - (@burst σ _).now) b.windowMs = true := by
    have hnow : (@burst σ _).now = 0 := rfl
    rw [hnow, sub_self]
    exact below_zero hwindow
  have hsender : decide ((@burst σ _).sender = default) = true := decide_eq_true rfl
  rw [h.seen default 0 le_rfl, List.filter_replicate, if_pos hsender, List.map_replicate,
    List.filter_replicate, if_pos hfresh, List.length_replicate]

theorem admissible_burst {b : ProposalBudget σ} {k : ℕ} (hwindow : b.windowMs ≠ 0)
    (h : ProposalBudget.Logged 0 b (List.replicate k burst)) (hlimit : (k : Amount) < b.perSender)
    (hcap : k < b.cap) : ProposalBudget.Admissible b burst := by
  refine ⟨rfl, not_le.2 ?_, ?_⟩
  · have hseen : (b.seen (@burst σ _).sender (@burst σ _).now).length = k := seen_burst hwindow h
    rwa [hseen]
  · rwa [h.surfaced, List.length_replicate]

theorem admissions_burst {b : ProposalBudget σ} {k m : ℕ} (hwindow : b.windowMs ≠ 0)
    (h : ProposalBudget.Logged 0 b (List.replicate k burst)) (hle : k + m ≤ n + 1)
    (hlimit : (n : Amount) < b.perSender) (hcap : n < b.cap) :
    b.admissions (List.replicate m burst) = List.replicate m burst := by
  induction m generalizing k b with
  | zero => rfl
  | succ m ih =>
    have hk : k ≤ n := by omega
    have hadmissible := admissible_burst hwindow h ((Nat.cast_le.2 hk).trans_lt hlimit)
      (hk.trans_lt hcap)
    have hnext := h.admitted le_rfl hadmissible
    obtain ⟨hcap', hlimit', hwindow'⟩ := ProposalBudget.sameOptions_admits b burst
    rw [← List.replicate_succ'] at hnext
    rw [List.replicate_succ, ProposalBudget.admissions,
      if_pos (ProposalBudget.admitted_iff.2 hadmissible)]
    exact congrArg _ (ih (by rwa [hwindow']) hnext (by omega) (by rwa [hlimit']) (by rwa [hcap']))

theorem burst_admitted (hlimit : (n : Amount) < limit) (hcap : n < cap) (hwindow : window ≠ 0) :
    (ProposalBudget.new cap limit window).admissions (List.replicate (n + 1) (@burst σ _)) =
      List.replicate (n + 1) burst :=
  admissions_burst hwindow (ProposalBudget.logged_new 0 cap limit window) (Nat.zero_add _).le hlimit
    hcap

/-- Calls at one time, one more than a limit below the cap allows. -/
theorem not_holds_of_burst (hlimit : (n : Amount) < limit)
    (hover : ¬((n + 1 : ℕ) : Amount) ≤ limit) (hcap : n < cap) (hwindow : window ≠ 0) :
    ¬Holds σ cap limit window := by
  intro h
  have hcalls : NonDecreasing (List.replicate (n + 1) (@burst σ _)) :=
    List.pairwise_replicate.2 (.inr le_rfl)
  have hcount := h.perSender _ hcalls default (.from 0)
  have hinside : ((@burst σ _).sender = default &&
      (Interval.from 0).holds window (@burst σ _).now : Bool) = true := by
    have hbelow : below ((0 : ℤ) - 0) window = true := by
      rw [Int.cast_zero, sub_self]
      exact below_zero hwindow
    have hnow : (@burst σ _).now = 0 := rfl
    have hsender : decide ((@burst σ _).sender = default) = true := decide_eq_true rfl
    rw [Interval.holds, hnow, hbelow, hsender]
    rfl
  rw [@burst_admitted σ _ _ _ _ _ _ hlimit hcap hwindow, List.filter_replicate, if_pos hinside,
    List.length_replicate] at hcount
  exact hover hcount

end Burst

end Servanda.AntiSpam
