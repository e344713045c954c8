import Servanda.Phrases

/-!
Which thread a message is on: the ids of its own header, and of the headers that name others.
-/

namespace Servanda.Mime

open Unicode Scan

variable {platform : Platform} {limits : MimeLimits}

/-- What a parsed message has of the raw ids in its header. -/
structure Carries (platform : Platform) (limits : MimeLimits) (parsed : ParsedMessage)
    (messageId inReplyTo references : Option Text) : Prop where
  messageId : parsed.messageId = normalizeMessageId platform messageId
  inReplyTo : parsed.inReplyTo = normalizeMessageId platform inReplyTo
  references : parsed.references = parseReferences platform references limits

/-- The `References` of a reply: the raw ids of its ancestors, oldest first. -/
def referencesOf (ancestors : List Text) : Text := [unit ' '].intercalate ancestors

/-- A message and all that is written below it are on one thread, the message's own. -/
structure OneThread (platform : Platform) (r id : Text) : Prop where
  root : ∀ limits parsed, Carries platform limits parsed (some r) none none →
    threadIdOf parsed = some id
  replies : ∀ limits others messageId inReplyTo parsed,
    (r :: others).length ≤ limits.maxReferences →
      Carries platform limits parsed messageId inReplyTo (some (referencesOf (r :: others))) →
        threadIdOf parsed = some id

/-- The first id in angle brackets begins with no second bracket, and is not too long, once what
cannot be seen is left out. -/
def Plain (platform : Platform) (r : Text) : Prop :=
  ∃ inside, (matchAll angled r).head? = some inside ∧
    (stripInvalid platform inside).head? ≠ some (unit '<') ∧
      (stripInvalid platform inside).length ≤ 512

section Matching

variable {s t inside : Text} {c u : CodeUnit} {n : ℕ}

theorem head?_matchAll_cons (p : Pattern Text) : (matchAll p (u :: s)).head? =
    match p (u :: s) with
    | some (a, _) => some a
    | none => (matchAll p s).head? := by
  unfold matchAll
  rw [scan]
  cases p (u :: s) with
  | none => rfl
  | some found => rfl

theorem mem_of_length_takeWhile_lt (h : (s.takeWhile (· ≠ c)).length < s.length) : c ∈ s := by
  by_contra hnone
  have hall : s.takeWhile (· ≠ c) = s := List.takeWhile_eq_self_iff.2 fun u hu ↦ by
    simpa using fun heq : u = c ↦ hnone (heq ▸ hu)
  rw [hall] at h
  exact lt_irrefl _ h

/-- An id in brackets is read up to the next closing one. -/
theorem angled_eq_some_iff : angled s = some (inside, n) ↔ ∃ after,
    s = unit '<' :: (inside ++ unit '>' :: after) ∧ unit '>' ∉ inside ∧
      1 ≤ (points inside).length ∧ (points inside).length ≤ 512 ∧ n = inside.length + 2 := by
  unfold angled
  constructor
  · intro h
    obtain ⟨rest, hrest, h⟩ := Option.bind_eq_some_iff.1 h
    obtain ⟨_, hguard, h⟩ := Option.bind_eq_some_iff.1 h
    obtain ⟨hleast, hmost, hlength⟩ := (Option.guard_eq_some' _).1 hguard
    obtain ⟨rfl, rfl⟩ := Prod.mk.inj (Option.some.inj h)
    obtain ⟨after, hafter⟩ := exists_first (mem_of_length_takeWhile_lt hlength)
    refine ⟨after, ?_, notMem_takeWhile_ne _ _, hleast, hmost, rfl⟩
    rw [append_of_dropWord hrest, ← hafter]
    rfl
  · rintro ⟨after, rfl, hclose, hleast, hmost, rfl⟩
    have hword : dropWord (text "<") (unit '<' :: (inside ++ unit '>' :: after)) =
        some (inside ++ unit '>' :: after) := rfl
    have hguard : (guard (1 ≤ (points inside).length ∧ (points inside).length ≤ 512 ∧
        inside.length < (inside ++ unit '>' :: after).length) : Option Unit) = some () :=
      (Option.guard_eq_some' _).2 ⟨hleast, hmost, by simp⟩
    simp only [hword, Option.bind_eq_bind, Option.bind_some, takeWhile_ne_append hclose, hguard]

theorem angled_append (h : angled s = some (inside, n)) (t : Text) :
    angled (s ++ t) = some (inside, n) := by
  obtain ⟨after, rfl, hinside⟩ := angled_eq_some_iff.1 h
  exact angled_eq_some_iff.2 ⟨after ++ t, by simp, hinside⟩

/-- What is no id up to its closing bracket is none before any text. -/
theorem angled_append_eq_none (h : angled (u :: s) = none) (hclose : unit '>' ∈ s) (t : Text) :
    angled (u :: (s ++ t)) = none := by
  by_contra hsome
  obtain ⟨⟨inside, n⟩, hmatch⟩ := Option.ne_none_iff_exists'.1 hsome
  obtain ⟨after, hsplit, hinside, hleast⟩ := angled_eq_some_iff.1 hmatch
  obtain ⟨rfl, hrest⟩ := List.cons.inj hsplit
  obtain ⟨rest, hfirst⟩ := exists_first hclose
  have hsame : s.takeWhile (· ≠ unit '>') = inside := by
    have htake := congrArg (List.takeWhile (· ≠ unit '>')) hrest
    rwa [takeWhile_ne_append hinside, hfirst, List.append_assoc, List.cons_append,
      takeWhile_ne_append (notMem_takeWhile_ne _ _)] at htake
  rw [hsame] at hfirst
  have hmatch' := angled_eq_some_iff.2 ⟨rest, congrArg (unit '<' :: ·) hfirst, hinside, hleast⟩
  rw [h] at hmatch'
  cases hmatch'

theorem closed_of_head?_matchAll (h : (matchAll angled s).head? = some inside) :
    unit '>' ∈ s ∧ unit '>' ∉ inside := by
  induction s with
  | nil => cases h
  | cons u s ih =>
    rw [head?_matchAll_cons] at h
    cases hmatch : angled (u :: s) with
    | some found =>
      obtain ⟨inside', n⟩ := found
      obtain ⟨after, hsplit, hinside, -⟩ := angled_eq_some_iff.1 hmatch
      rw [hmatch] at h
      obtain rfl := Option.some.inj h
      rw [hsplit]
      exact ⟨by simp, hinside⟩
    | none =>
      rw [hmatch] at h
      exact (ih h).imp_left (List.mem_cons_of_mem u)

/-- The first id of a text is the first of any text that begins with it. -/
theorem head?_matchAll_append (h : (matchAll angled s).head? = some inside) (t : Text) :
    (matchAll angled (s ++ t)).head? = some inside := by
  induction s with
  | nil => cases h
  | cons u s ih =>
    rw [head?_matchAll_cons] at h
    rw [List.cons_append, head?_matchAll_cons]
    cases hmatch : angled (u :: s) with
    | some found =>
      have happend : angled (u :: (s ++ t)) = some found := angled_append hmatch t
      rw [hmatch] at h
      rwa [happend]
    | none =>
      rw [hmatch] at h
      rw [angled_append_eq_none hmatch (closed_of_head?_matchAll h).1 t]
      exact ih h

/-- A text without an id has none before a text that closes no bracket. -/
theorem head?_matchAll_eq_none (h : (matchAll angled s).head? = none) (ht : unit '>' ∉ t) :
    (matchAll angled (s ++ t)).head? = none := by
  induction s with
  | nil =>
    by_contra hsome
    obtain ⟨inside, hinside⟩ := Option.ne_none_iff_exists'.1 hsome
    exact ht (closed_of_head?_matchAll hinside).1
  | cons u s ih =>
    rw [head?_matchAll_cons] at h
    rw [List.cons_append, head?_matchAll_cons]
    cases hmatch : angled (u :: s) with
    | some found =>
      rw [hmatch] at h
      cases h
    | none =>
      rw [hmatch] at h
      have hnone : angled (u :: (s ++ t)) = none := by
        by_cases hclose : unit '>' ∈ s
        · exact angled_append_eq_none hmatch hclose t
        · by_contra hsome
          obtain ⟨⟨inside, n⟩, hlonger⟩ := Option.ne_none_iff_exists'.1 hsome
          obtain ⟨after, hsplit, -⟩ := angled_eq_some_iff.1 hlonger
          have hmem : unit '>' ∈ s ++ t := by
            rw [(List.cons.inj hsplit).2]
            simp
          exact (List.mem_append.1 hmem).elim hclose ht
      rw [hnone]
      exact ih h

/-- Where a text has no id, the first one of the text with an id after it ends as that id does. -/
theorem head?_matchAll_unmatched (h : (matchAll angled s).head? = none) (hu : u ≠ unit '>')
    (hpoint : points [u] = [[u]]) :
    ∃ front, (matchAll angled (s ++ [unit '<', u, unit '>'])).head? = some (front ++ [u]) := by
  induction s with
  | nil =>
    have hmatch : angled [unit '<', u, unit '>'] = some ([u], 3) :=
      angled_eq_some_iff.2
        ⟨[], rfl, by simpa using hu.symm, by simp [hpoint], by simp [hpoint], rfl⟩
    refine ⟨[], ?_⟩
    rw [List.nil_append, head?_matchAll_cons, hmatch]
    rfl
  | cons v s ih =>
    rw [head?_matchAll_cons] at h
    rw [List.cons_append, head?_matchAll_cons]
    cases hmatch : angled (v :: s) with
    | some found =>
      rw [hmatch] at h
      cases h
    | none =>
      rw [hmatch] at h
      cases hlonger : angled (v :: (s ++ [unit '<', u, unit '>'])) with
      | none => exact ih h
      | some found =>
        obtain ⟨inside, n⟩ := found
        obtain ⟨after, hsplit, hinside, -⟩ := angled_eq_some_iff.1 hlonger
        have hopen : unit '>' ∉ s ++ [unit '<', u] := by
          intro hmem
          have hclose : unit '>' ∈ s := by
            obtain hmem | hmem := List.mem_append.1 hmem
            · exact hmem
            · simp [hu.symm] at hmem
              exact absurd hmem (by decide)
          rw [angled_append_eq_none hmatch hclose] at hlonger
          cases hlonger
        have htake := congrArg (List.takeWhile (· ≠ unit '>')) (List.cons.inj hsplit).2
        have hlast : s ++ [unit '<', u, unit '>'] = (s ++ [unit '<', u]) ++ unit '>' :: [] := by
          simp
        rw [hlast, takeWhile_ne_append hopen, takeWhile_ne_append hinside] at htake
        exact ⟨s ++ [unit '<'], by rw [← htake]; simp⟩

end Matching

section Visible

variable {s t a b token : Text} {tokens : List Text} {u : CodeUnit} {cut : Text → Text}

theorem points_cons_cons (u v : CodeUnit) (s : Text) : points (u :: v :: s) =
    if isHigh u && isLow v then [u, v] :: points s else [u] :: points (v :: s) := points.eq_3 u v s

/-- A code unit that is no surrogate is a point of its own, wherever it stands. -/
theorem points_append_cons (hhigh : isHigh u = false) (hlow : isLow u = false) :
    points (a ++ u :: b) = points a ++ [u] :: points b := by
  induction a using points.induct with
  | case1 =>
    cases b with
    | nil => rfl
    | cons v b =>
      rw [List.nil_append, points_cons_cons, hhigh]
      rfl
  | case2 v =>
    have hfirst : points (u :: b) = [u] :: points b := by
      cases b with
      | nil => rfl
      | cons w b =>
        rw [points_cons_cons, hhigh]
        rfl
    rw [List.singleton_append, points_cons_cons, hlow, Bool.and_false, hfirst]
    rfl
  | case3 v w rest hpair ih =>
    rw [List.cons_append, List.cons_append, points_cons_cons, if_pos hpair, ih, points_cons_cons,
      if_pos hpair]
    rfl
  | case4 v w rest hpair ih =>
    rw [List.cons_append, List.cons_append, points_cons_cons, if_neg hpair, points_cons_cons,
      if_neg hpair]
    exact congrArg _ ih

theorem stripInvalid_append_cons (hhigh : isHigh u = false) (hlow : isLow u = false) :
    stripInvalid platform (a ++ u :: b) =
      stripInvalid platform a ++ stripInvalid platform [u] ++ stripInvalid platform b := by
  have hone : points [u] = [[u]] := rfl
  rw [stripInvalid, points_append_cons hhigh hlow, ← List.singleton_append, List.filter_append,
    List.filter_append, List.flatten_append, List.flatten_append, ← hone, List.append_assoc]
  rfl

theorem surrogate_of_isSpace (h : isSpace u = true) : isHigh u = false ∧ isLow u = false := by
  have hsmall : u.toNat < 0xD800 ∨ u.toNat = 0xFEFF := by
    simp only [isSpace, Bool.or_eq_true, decide_eq_true_eq, Bool.and_eq_true, List.mem_cons,
      List.not_mem_nil, or_false] at h
    omega
  simp only [isHigh, isLow, Bool.and_eq_false_iff, decide_eq_false_iff_not]
  omega

theorem stripInvalid_space (h : isSpace u = true) : stripInvalid platform [u] = [] := by
  have hpoint : points [u] = [[u]] := rfl
  rw [stripInvalid, hpoint, List.filter_cons_of_neg (by simp [h])]
  rfl

/-- The visible part of a text is that of its words. -/
theorem stripInvalid_words (s : Text) :
    stripInvalid platform s = ((s.splitOnP isSpace).map (stripInvalid platform)).flatten := by
  induction hn : s.length using Nat.strong_induction_on generalizing s with
  | _ n ih =>
    by_cases hspace : ∃ u ∈ s, isSpace u = true
    · obtain ⟨u, hu, hspace⟩ := hspace
      obtain ⟨a, b, rfl⟩ := List.append_of_mem hu
      obtain ⟨hhigh, hlow⟩ := surrogate_of_isSpace hspace
      rw [List.length_append, List.length_cons] at hn
      rw [stripInvalid_append_cons hhigh hlow, stripInvalid_space hspace, List.append_nil,
        List.splitOnP_append_cons a b hspace, List.map_append, List.flatten_append,
        ← ih a.length (by omega) a rfl, ← ih b.length (by omega) b rfl]
    · push Not at hspace
      rw [List.splitOnP_eq_singleton fun u hu ↦ by simpa using hspace u hu]
      simp

theorem head?_foldl_append {f : List Text → Text → List Text}
    (hf : ∀ out token, out ≠ [] → (f out token).head? = out.head?) (out : List Text)
    (hout : out ≠ []) (tokens : List Text) : (tokens.foldl f out).head? = out.head? := by
  induction tokens generalizing out with
  | nil => rfl
  | cons token tokens ih =>
    have hstep := hf out token hout
    have hne : f out token ≠ [] := by
      intro hnil
      rw [hnil, List.head?_nil, eq_comm, List.head?_eq_none_iff] at hstep
      exact hout hstep
    rw [List.foldl_cons, ih _ hne, hstep]

/-- The first id collected is the first token with something to see. -/
theorem head?_collectIds (hmax : 1 ≤ limits.maxReferences) (cut : Text → Text)
    (tokens : List Text) : (collectIds platform limits cut tokens).head? =
      ((tokens.map (stripInvalid platform)).find? (· ≠ [])).map cut := by
  induction tokens with
  | nil => rfl
  | cons token tokens ih =>
    rw [List.map_cons]
    by_cases hblank : stripInvalid platform token = []
    · have hskip : collectIds platform limits cut (token :: tokens) =
          collectIds platform limits cut tokens := by
        simp only [collectIds, List.foldl_cons, hblank, true_or, or_true, if_true]
      rw [hskip, ih, List.find?_cons_of_neg (by simpa using hblank)]
    · rw [List.find?_cons_of_pos (by simpa using hblank), Option.map_some, collectIds,
        List.foldl_cons, if_neg (by simp; exact ⟨by omega, hblank⟩)]
      refine head?_foldl_append (fun out token hout ↦ ?_) _ (List.cons_ne_nil _ _) _
      dsimp only
      split_ifs
      · rfl
      · rw [List.head?_append_of_ne_nil _ hout]

theorem collectIds_eq_nil (h : ∀ token ∈ tokens, stripInvalid platform token = []) :
    collectIds platform limits cut tokens = [] := by
  induction tokens with
  | nil => rfl
  | cons token tokens ih =>
    rw [collectIds, List.foldl_cons, h token List.mem_cons_self]
    simp only [true_or, or_true, if_true]
    exact ih fun token htoken ↦ h token (List.mem_cons_of_mem _ htoken)

theorem collectIds_eq_nil_iff (hmax : 1 ≤ limits.maxReferences) (tokens : List Text) :
    collectIds platform limits cut tokens = [] ↔
      ∀ token ∈ tokens, stripInvalid platform token = [] := by
  rw [← List.head?_eq_none_iff, head?_collectIds hmax]
  simp

/-- The first of the references is the first id in brackets, where there is something to see in
it. -/
theorem head?_parseReferences (hmax : 1 ≤ limits.maxReferences) {inside : Text}
    (h : (matchAll angled s).head? = some inside) (hvisible : stripInvalid platform inside ≠ []) :
    (parseReferences platform (some s) limits).head? = some (stripInvalid platform inside) := by
  obtain ⟨rest, hmatches⟩ := List.head?_eq_some_iff.1 h
  have hhead : (collectIds platform limits id (matchAll angled s)).head? =
      some (stripInvalid platform inside) := by
    rw [head?_collectIds hmax, hmatches, List.map_cons,
      List.find?_cons_of_pos (by simpa using hvisible)]
    rfl
  have hne : collectIds platform limits id (matchAll angled s) ≠ [] := by
    intro hnil
    rw [hnil] at hhead
    cases hhead
  rw [parseReferences]
  rw [if_neg hne, hhead]

/-- A match is read somewhere in the text. -/
theorem read_of_mem_matchAll {p : Pattern Text} (h : a ∈ matchAll p s) :
    ∃ front rest n, s = front ++ rest ∧ p rest = some (a, n) := by
  have hscan : ∀ skip, .inl a ∈ scan p skip s → ∃ front rest n, s = front ++ rest ∧
      p rest = some (a, n) := by
    clear h
    induction s with
    | nil => exact fun skip h ↦ absurd h List.not_mem_nil
    | cons u s ih =>
      intro skip h
      have hlater : ∀ skip, .inl a ∈ scan p skip s → ∃ front rest n, u :: s = front ++ rest ∧
          p rest = some (a, n) := by
        intro skip h
        obtain ⟨front, rest, n, rfl, hread⟩ := ih skip h
        exact ⟨u :: front, rest, n, rfl, hread⟩
      cases skip with
      | succ skip => exact hlater skip h
      | zero =>
        rw [scan] at h
        cases hread : p (u :: s) with
        | none =>
          rw [hread] at h
          exact hlater 0 ((List.mem_cons.1 h).resolve_left Sum.inl_ne_inr)
        | some found =>
          rw [hread] at h
          obtain heq | h := List.mem_cons.1 h
          · exact ⟨[], u :: s, found.2, rfl, by rw [Sum.inl.inj heq, hread]⟩
          · exact hlater _ h
  obtain ⟨x, hx, hleft⟩ := List.mem_filterMap.1 h
  rw [Sum.getLeft?_eq_some_iff.1 hleft] at hx
  exact hscan 0 hx

/-- The parts of what cannot be seen cannot be seen. -/
theorem stripInvalid_inside (h : stripInvalid platform s = []) :
    ∀ inside ∈ matchAll angled s, stripInvalid platform inside = [] := by
  intro inside hinside
  obtain ⟨front, rest, n, rfl, hread⟩ := read_of_mem_matchAll hinside
  obtain ⟨after, rfl, -⟩ := angled_eq_some_iff.1 hread
  rw [stripInvalid_append_cons (by decide) (by decide),
    stripInvalid_append_cons (by decide) (by decide)] at h
  simp only [List.append_eq_nil_iff] at h
  exact h.2.1.1

theorem stripInvalid_eq_nil_iff (s : Text) : stripInvalid platform s = [] ↔
    ∀ token ∈ s.splitOnP isSpace, stripInvalid platform token = [] := by
  rw [stripInvalid_words s]
  simp

theorem parseReferences_eq_nil (h : stripInvalid platform s = []) :
    parseReferences platform (some s) limits = [] := by
  rw [parseReferences]
  rw [collectIds_eq_nil (stripInvalid_inside h), if_pos rfl,
    collectIds_eq_nil ((stripInvalid_eq_nil_iff s).1 h)]

/-- There are references exactly where there is something to see. -/
theorem parseReferences_eq_nil_iff (hmax : 1 ≤ limits.maxReferences) (s : Text) :
    parseReferences platform (some s) limits = [] ↔ stripInvalid platform s = [] := by
  refine ⟨fun h ↦ ?_, parseReferences_eq_nil⟩
  rw [parseReferences] at h
  by_cases hmatched : collectIds platform limits id (matchAll angled s) = []
  · rwa [if_pos hmatched, collectIds_eq_nil_iff hmax, ← stripInvalid_eq_nil_iff] at h
  · rw [if_neg hmatched] at h
    exact absurd h hmatched

theorem mem_of_mem_points {point : Text} (h : point ∈ points s) (hu : u ∈ point) : u ∈ s := by
  induction s using points.induct with
  | case1 => exact absurd h List.not_mem_nil
  | case2 v => rwa [List.mem_singleton.1 h] at hu
  | case3 v w rest hpair ih =>
    rw [points_cons_cons, if_pos hpair] at h
    obtain rfl | h := List.mem_cons.1 h
    · exact List.mem_append_left rest hu
    · exact List.mem_cons_of_mem v (List.mem_cons_of_mem w (ih h))
  | case4 v w rest hpair ih =>
    rw [points_cons_cons, if_neg hpair] at h
    obtain rfl | h := List.mem_cons.1 h
    · exact List.mem_append_left (w :: rest) hu
    · exact List.mem_cons_of_mem v (ih h)

theorem mem_of_mem_stripInvalid (h : u ∈ stripInvalid platform s) : u ∈ s := by
  obtain ⟨point, hpoint, hu⟩ := List.mem_flatten.1 h
  exact mem_of_mem_points (List.mem_of_mem_filter hpoint) hu

end Visible

section Thread

variable {r id inside : Text}

/-- The own id of a message with an id in brackets: what can be seen in them, without brackets at
its front and cut. -/
theorem normalizeMessageId_angled (h : (matchAll angled r).head? = some inside) :
    normalizeMessageId platform (some r) = some id ↔
      (stripInvalid platform inside).dropWhile (· = unit '<') ≠ [] ∧
        id = ((stripInvalid platform inside).dropWhile (· = unit '<')).take 512 := by
  have hclose := (closed_of_head?_matchAll h).2
  have hsame : ((stripInvalid platform inside).dropWhile (· = unit '<')).rdropWhile
      (· = unit '>') = (stripInvalid platform inside).dropWhile (· = unit '<') := by
    refine List.rdropWhile_eq_self_iff.2 fun hne hlast ↦ hclose ?_
    have hmem := List.getLast_mem hne
    rw [of_decide_eq_true hlast] at hmem
    exact mem_of_mem_stripInvalid ((List.dropWhile_suffix _).subset hmem)
  rw [normalizeMessageId]
  rw [h, Option.getD_some, hsame]
  split_ifs with hnil
  · exact iff_of_false nofun fun hne ↦ hne.1 hnil
  · rw [Option.some.injEq, eq_comm]
    exact (and_iff_right hnil).symm

theorem take_dropWhile_eq_self_iff {s : Text} {c : CodeUnit} {n : ℕ} :
    (s.dropWhile (· = c)).take n = s ↔ s.head? ≠ some c ∧ s.length ≤ n := by
  cases s with
  | nil => simp
  | cons u s =>
    by_cases hu : u = c
    · have hshort : ((s.dropWhile (· = c)).take n).length < (u :: s).length := by
        have hsuffix := (List.dropWhile_suffix (l := s) (· = c)).length_le
        rw [List.length_take, List.length_cons]
        omega
      rw [List.dropWhile_cons_of_pos (by simpa using hu)]
      refine iff_of_false (fun heq ↦ ?_) fun h ↦ h.1 (congrArg some hu)
      rw [heq] at hshort
      exact lt_irrefl _ hshort
    · rw [List.dropWhile_cons_of_neg (by simpa using hu), List.take_eq_self_iff]
      exact (and_iff_right (by simpa using hu)).symm

theorem referencesOf_cons (others : List Text) : ∃ t, referencesOf (r :: others) = r ++ t := by
  cases others with
  | nil => exact ⟨[], by simp [referencesOf, List.intercalate]⟩
  | cons o others =>
    exact ⟨unit ' ' :: referencesOf (o :: others), by simp [referencesOf, List.intercalate]⟩

theorem exists_carries (platform : Platform) (limits : MimeLimits)
    (messageId inReplyTo references : Option Text) :
    ∃ parsed, Carries platform limits parsed messageId inReplyTo references :=
  ⟨{  subject := none
      «from» := []
      «to» := []
      cc := []
      replyTo := []
      deliveredTo := []
      date := none
      messageId := normalizeMessageId platform messageId
      inReplyTo := normalizeMessageId platform inReplyTo
      references := parseReferences platform references limits
      text := []
      textLength := 0
      html := false
      attachments := []
      embedded := none
      rawBytes := 0
      truncated := false
      anomalies := []
      observedAuthResults := [] }, rfl, rfl, rfl⟩

theorem Carries.threadIdOf_references {parsed : ParsedMessage} {messageId inReplyTo : Option Text}
    {references : Text} (h : Carries platform limits parsed messageId inReplyTo (some references))
    (hmax : 1 ≤ limits.maxReferences) (hmatch : (matchAll angled references).head? = some inside)
    (hvisible : stripInvalid platform inside ≠ []) :
    threadIdOf parsed = some (stripInvalid platform inside) := by
  rw [threadIdOf, h.references, head?_parseReferences hmax hmatch hvisible]
  rfl

theorem stripInvalid_singleton {u : CodeUnit}
    (hu : (isControl (pointValue [u]) || isSpace u) = false)
    (hformat : platform.isFormat (pointValue [u]) = false) : stripInvalid platform [u] = [u] := by
  obtain ⟨hcontrol, hspace⟩ := Bool.or_eq_false_iff.1 hu
  have hpoint : points [u] = [[u]] := rfl
  rw [stripInvalid, hpoint,
    List.filter_cons_of_pos (by simp [isInvisible, hcontrol, hformat, hspace])]
  rfl

theorem stripInvalid_concat {u : CodeUnit} (s : Text) (hhigh : isHigh u = false)
    (hlow : isLow u = false) (hu : stripInvalid platform [u] = [u]) :
    stripInvalid platform (s ++ [u]) = stripInvalid platform s ++ [u] := by
  have hnil : stripInvalid platform [] = [] := rfl
  rw [stripInvalid_append_cons hhigh hlow, hu, hnil, List.append_nil]

/-- An id without brackets is not the thread of a reply to the reply: the brackets of the second id
are then the first that are found. -/
theorem OneThread.matched (h : OneThread platform r id) {u : CodeUnit}
    (hlast : id.getLast? ≠ some u) (hhigh : isHigh u = false) (hlow : isLow u = false)
    (hu : stripInvalid platform [u] = [u])
    (hclose : u ≠ unit '>') : (matchAll angled r).head? ≠ none := by
  intro hnone
  obtain ⟨front, hfront⟩ :=
    head?_matchAll_unmatched (head?_matchAll_eq_none (t := [unit ' ']) hnone (by decide)) hclose rfl
  have hjoin : referencesOf [r, [unit '<', u, unit '>']] =
      r ++ [unit ' '] ++ [unit '<', u, unit '>'] := by
    simp [referencesOf, List.intercalate]
  rw [← hjoin] at hfront
  have hstrip := stripInvalid_concat front hhigh hlow hu
  obtain ⟨parsed, hparsed⟩ := exists_carries platform defaultLimits none none
    (some (referencesOf [r, [unit '<', u, unit '>']]))
  have hthread := hparsed.threadIdOf_references (by decide) hfront (by simp [hstrip])
  have hroom : [r, [unit '<', u, unit '>']].length ≤ defaultLimits.maxReferences :=
    (by decide : 2 ≤ defaultLimits.maxReferences)
  rw [h.replies defaultLimits _ none none parsed hroom hparsed, hstrip] at hthread
  refine hlast ?_
  rw [Option.some.inj hthread, List.getLast?_concat]

/-- The thread of a message is its own id all along exactly where the id is plain. -/
theorem oneThread_iff (ha : platform.isFormat 0x61 = false) (hb : platform.isFormat 0x62 = false)
    (hid : normalizeMessageId platform (some r) = some id) :
    OneThread platform r id ↔ Plain platform r := by
  constructor
  · intro h
    have hletter : ∃ u : CodeUnit, id.getLast? ≠ some u ∧ isHigh u = false ∧ isLow u = false ∧
        stripInvalid platform [u] = [u] ∧ u ≠ unit '>' := by
      have hva : stripInvalid platform [unit 'a'] = [unit 'a'] := stripInvalid_singleton rfl ha
      have hvb : stripInvalid platform [unit 'b'] = [unit 'b'] := stripInvalid_singleton rfl hb
      by_cases hlast : id.getLast? = some (unit 'a')
      · exact ⟨unit 'b', by rw [hlast]; decide, rfl, rfl, hvb, by decide⟩
      · exact ⟨unit 'a', hlast, rfl, rfl, hva, by decide⟩
    obtain ⟨u, hlast, hhigh, hlow, hu, hclose⟩ := hletter
    obtain ⟨inside, hmatch⟩ :=
      Option.ne_none_iff_exists'.1 (h.matched hlast hhigh hlow hu hclose)
    obtain ⟨hne, hcut⟩ := (normalizeMessageId_angled hmatch).1 hid
    have hvisible : stripInvalid platform inside ≠ [] := by
      rintro hnil
      rw [hnil] at hne
      exact hne rfl
    obtain ⟨parsed, hparsed⟩ := exists_carries platform defaultLimits none none
      (some (referencesOf [r]))
    have hjoin : referencesOf [r] = r := by simp [referencesOf, List.intercalate]
    have hthread := hparsed.threadIdOf_references (by decide) (hjoin.symm ▸ hmatch) hvisible
    have hroom : [r].length ≤ defaultLimits.maxReferences :=
      (by decide : 1 ≤ defaultLimits.maxReferences)
    rw [h.replies defaultLimits [] none none parsed hroom hparsed, hcut] at hthread
    exact ⟨inside, hmatch, take_dropWhile_eq_self_iff.1 (Option.some.inj hthread)⟩
  · rintro ⟨inside, hmatch, hplain⟩
    obtain ⟨hne, hcut⟩ := (normalizeMessageId_angled hmatch).1 hid
    have hsame : id = stripInvalid platform inside :=
      hcut.trans (take_dropWhile_eq_self_iff.2 hplain)
    have hvisible : stripInvalid platform inside ≠ [] := by
      rintro hnil
      rw [hnil] at hne
      exact hne rfl
    constructor
    · intro limits parsed hparsed
      rw [threadIdOf, hparsed.references, hparsed.inReplyTo, hparsed.messageId, hid]
      rfl
    · intro limits others messageId inReplyTo parsed hmax hparsed
      obtain ⟨t, hjoin⟩ := referencesOf_cons (r := r) others
      rw [hjoin] at hparsed
      rw [hsame]
      refine hparsed.threadIdOf_references ?_ (head?_matchAll_append hmatch t) hvisible
      rw [List.length_cons] at hmax
      omega

end Thread

section Unusable

variable {messageId inReplyTo : Option Text} {references : List Text}

/-- A header that names no message is not written. -/
def referencesHeader (references : List Text) : Option Text :=
  if references = [] then none else some (referencesOf references)

theorem stripInvalid_referencesOf_eq_nil_iff (references : List Text) :
    stripInvalid platform (referencesOf references) = [] ↔
      ∀ raw ∈ references, stripInvalid platform raw = [] := by
  induction references with
  | nil => simp [referencesOf, stripInvalid, points]
  | cons raw references ih =>
    cases references with
    | nil => simp [referencesOf, List.intercalate]
    | cons next references =>
      have hjoin : referencesOf (raw :: next :: references) =
          raw ++ unit ' ' :: referencesOf (next :: references) := by
        simp [referencesOf, List.intercalate]
      rw [hjoin, stripInvalid_append_cons rfl rfl, stripInvalid_space (by decide), List.append_nil,
        List.append_eq_nil_iff, ih]
      exact (List.forall_mem_cons (p := fun raw ↦ stripInvalid platform raw = [])).symm

/-- A message whose ids are all unusable has no thread exactly where its references show nothing. -/
theorem unusable_iff (hown : normalizeMessageId platform messageId = none)
    (hreply : normalizeMessageId platform inReplyTo = none) :
    (∀ limits parsed, Carries platform limits parsed messageId inReplyTo
      (referencesHeader references) → threadIdOf parsed = none) ↔
        ∀ raw ∈ references, stripInvalid platform raw = [] := by
  have hthread : ∀ {limits parsed}, Carries platform limits parsed messageId inReplyTo
      (referencesHeader references) → (threadIdOf parsed = none ↔
        parseReferences platform (referencesHeader references) limits = []) := by
    intro limits parsed hparsed
    rw [threadIdOf, hparsed.references, hparsed.inReplyTo, hparsed.messageId, hown, hreply,
      ← List.head?_eq_none_iff]
    cases (parseReferences platform (referencesHeader references) limits).head? <;> simp
  by_cases hnone : references = []
  · refine iff_of_true (fun limits parsed hparsed ↦ (hthread hparsed).2 ?_) (by simp [hnone])
    rw [referencesHeader, if_pos hnone]
    rfl
  · rw [← stripInvalid_referencesOf_eq_nil_iff]
    rw [referencesHeader, if_neg hnone] at hthread ⊢
    constructor
    · intro h
      obtain ⟨parsed, hparsed⟩ := exists_carries platform defaultLimits messageId inReplyTo
        (some (referencesOf references))
      exact (parseReferences_eq_nil_iff (by decide) _).1
        ((hthread hparsed).1 (h defaultLimits parsed hparsed))
    · exact fun h limits parsed hparsed ↦ (hthread hparsed).2 (parseReferences_eq_nil h)

end Unusable

/-- Replies stay on the thread of what they answer exactly where the first id is plain, and broken
ids make no thread exactly where the references show nothing. -/
theorem threads_iff (platform : Platform) (ha : platform.isFormat 0x61 = false)
    (hb : platform.isFormat 0x62 = false) :
    (∀ r id, normalizeMessageId platform (some r) = some id →
      (OneThread platform r id ↔ Plain platform r)) ∧
    ∀ messageId inReplyTo references, normalizeMessageId platform messageId = none →
      normalizeMessageId platform inReplyTo = none →
      (∀ raw ∈ references, normalizeMessageId platform (some raw) = none) →
        ((∀ limits parsed, Carries platform limits parsed messageId inReplyTo
          (referencesHeader references) → threadIdOf parsed = none) ↔
            ∀ raw ∈ references, stripInvalid platform raw = []) :=
  ⟨fun _ _ hid ↦ oneThread_iff ha hb hid, fun _ _ _ hown hreply _ ↦ unusable_iff hown hreply⟩

/-- An ordinary id in brackets keeps its thread together. -/
theorem threads_ascii : OneThread Sample.asciiPlatform (text "<a@b>") (text "a@b") :=
  ((threads_iff Sample.asciiPlatform rfl rfl).1 (text "<a@b>") (text "a@b")
    (by decide +kernel)).2 ⟨text "a@b", by decide +kernel, by decide +kernel, by decide +kernel⟩

/-- An id without brackets is lost beside one with brackets. -/
theorem unbracketed_lost : ¬∀ platform r id, normalizeMessageId platform (some r) = some id →
    OneThread platform r id := by
  intro h
  have hbare : normalizeMessageId Sample.asciiPlatform (some (text "abc@x")) =
      some (text "abc@x") := by decide +kernel
  obtain ⟨parsed, hparsed⟩ := exists_carries Sample.asciiPlatform defaultLimits none none
    (some (referencesOf [text "abc@x", text "<c@d>"]))
  have hthread := (h _ _ _ hbare).replies defaultLimits [text "<c@d>"] none none parsed
    (by decide) hparsed
  have hreferences : parseReferences Sample.asciiPlatform
      (some (referencesOf [text "abc@x", text "<c@d>"])) defaultLimits = [text "c@d"] := by
    decide +kernel
  rw [threadIdOf, hparsed.references, hreferences] at hthread
  exact absurd (Option.some.inj hthread) (by decide +kernel)

end Servanda.Mime
