import Mathlib.Data.Prod.Lex
import Servanda.Keyset
import Servanda.Register

namespace Servanda

open Calendar

def cursorTtl : Iso8601Duration := { minutes := some [1, 5], wellFormed := by decide }

/-- Where a page ended: the list it is of, the instant it ranks at, and the rank of its last item,
with how many items sorted at or above that when it was issued. -/
structure PageCursor where
  view : OpenLoopsView
  persona : PublicKeyHex
  asOf : Rfc3339
  score : ℚ
  id : Sha256Hex
  above : ℕ
  deriving DecidableEq

structure OpenLoopsInput where
  view : OpenLoopsView
  persona : Option PersonaName
  limit : ℕ
  limit_pos : 0 < limit
  /-- The text of a cursor, if one is sent, by what it decodes to. -/
  cursor : Option (Option PageCursor)

structure OpenLoopsOutput where
  items : List OpenLoopItem
  total : ℕ
  nextCursor : Option PageCursor
  skipped : ℕ
  deriving DecidableEq

inductive OpenLoopsError
  | noSuchPersona
  | notACursor
  | otherViewOrPersona
  | olderThanTtl
  deriving DecidableEq, Repr

def cursorExpired (cursor : PageCursor) (now : Rfc3339) : Bool :=
  (addDuration (Date.parse cursor.asOf) cursorTtl).any fun finish ↦ decide (finish < Date.parse now)

def sortsAfter (cursor : PageCursor) (score : ℚ) (id : Sha256Hex) : Bool :=
  decide (score < cursor.score) || (decide (score = cursor.score) && decide (cursor.id < id))

/-- Where the previous page stopped: the first item that sorts after it. -/
def pageStart (scoreOf : Sha256Hex → ℚ) (ordered : List OpenLoopItem) : Option PageCursor → ℕ
  | none => 0
  | some cursor =>
    (ordered.findIdx? fun i ↦ sortsAfter cursor (scoreOf i.id) i.id).getD ordered.length

namespace ServandaNode

variable (crypto : Crypto) (now : Rfc3339) (node : ServandaNode)

def scoreOf (persona : PublicKeyHex) (asOf : Rfc3339) (id : Sha256Hex) : ℚ :=
  (((node.listOrderingKeys persona).reverse.find? (·.id = id)).map fun key ↦
    (rank key asOf).score).getD 0

/-- The items of a view, the highest score first and equal scores by their ids. -/
def ordered (persona : PublicKeyHex) (view : OpenLoopsView) (asOf : Rfc3339) : List OpenLoopItem :=
  let scoreOf := node.scoreOf persona asOf
  (node.itemsFor crypto now persona view asOf).insertionSort fun a b ↦
    scoreOf b.id < scoreOf a.id ∨ scoreOf a.id = scoreOf b.id ∧ a.id ≤ b.id

def servePage (persona : PublicKeyHex) (view : OpenLoopsView) (limit : ℕ)
    (cursor : Option PageCursor) : OpenLoopsOutput :=
  let asOf := cursor.elim now (·.asOf)
  let scoreOf := node.scoreOf persona asOf
  let ordered := node.ordered crypto now persona view asOf
  let start := pageStart scoreOf ordered cursor
  let page := (ordered.drop start).take limit
  let delivered := start + page.length
  { items := page
    total := ordered.length
    nextCursor :=
      if ordered.length ≤ delivered then none
      else page.getLast?.map fun last ↦
        ⟨view, persona, asOf, scoreOf last.id, last.id, delivered⟩
    skipped := match cursor with
      | none => 0
      | some cursor => start - cursor.above }

def openLoops (input : OpenLoopsInput) : Except OpenLoopsError OpenLoopsOutput :=
  match node.resolvePersona input.persona, input.cursor with
  | none, _ => .error .noSuchPersona
  | some _, some none => .error .notACursor
  | some persona, none => .ok (node.servePage crypto now persona input.view input.limit none)
  | some persona, some (some cursor) =>
    if cursor.view ≠ input.view ∨ cursor.persona ≠ persona then .error .otherViewOrPersona
    else if cursorExpired cursor now then .error .olderThanTtl
    else .ok (node.servePage crypto now persona input.view input.limit (some cursor))

end ServandaNode

namespace Paging

open Keyset

/-- The order of the register: the score descending, then the id ascending. -/
abbrev RankKey := ℚᵒᵈ ×ₗ Sha256Hex

def rankKey (score : ℚ) (id : Sha256Hex) : RankKey := toLex (OrderDual.toDual score, id)

def PageCursor.rankKey (cursor : PageCursor) : RankKey := Paging.rankKey cursor.score cursor.id

/-- One read of a walk: the node as it stands, its clock, and how many items are asked for. -/
structure PageRead where
  node : ServandaNode
  now : Rfc3339
  limit : ℕ
  limit_pos : 0 < limit

variable (crypto : Crypto) (persona : PublicKeyHex) (view : OpenLoopsView) (asOf : Rfc3339)

namespace PageRead

variable (read : PageRead)

def keyOf (item : OpenLoopItem) : RankKey :=
  rankKey (read.node.scoreOf persona asOf item.id) item.id

def keys : List RankKey :=
  (read.node.ordered crypto read.now persona view asOf).map (read.keyOf persona asOf)

def Distinct : Prop := ((read.node.itemsFor crypto read.now persona view asOf).map (·.id)).Nodup

def input (name : Option PersonaName) (cursor : Option PageCursor) : OpenLoopsInput :=
  ⟨view, name, read.limit, read.limit_pos, cursor.map some⟩

end PageRead

theorem sortsAfter_iff {cursor : PageCursor} {score : ℚ} {id : Sha256Hex} :
    sortsAfter cursor score id = true ↔ PageCursor.rankKey cursor < rankKey score id := by
  simp only [sortsAfter, PageCursor.rankKey, rankKey, Prod.Lex.toLex_lt_toLex,
    OrderDual.toDual_lt_toDual, Bool.or_eq_true, Bool.and_eq_true, decide_eq_true_eq,
    EmbeddingLike.apply_eq_iff_eq]
  rw [eq_comm (a := score)]

theorem rankKey_le_iff {score score' : ℚ} {id id' : Sha256Hex} :
    rankKey score id ≤ rankKey score' id' ↔ score' < score ∨ score = score' ∧ id ≤ id' := by
  simp only [rankKey, Prod.Lex.toLex_le_toLex, OrderDual.toDual_lt_toDual,
    EmbeddingLike.apply_eq_iff_eq]

namespace PageRead

variable {crypto persona view asOf} {read : PageRead}

theorem ordered_sorted : (read.node.ordered crypto read.now persona view asOf).Pairwise fun a b ↦
    read.keyOf persona asOf a ≤ read.keyOf persona asOf b := by
  have hrel (a b : OpenLoopItem) : (read.node.scoreOf persona asOf b.id <
      read.node.scoreOf persona asOf a.id ∨ read.node.scoreOf persona asOf a.id =
        read.node.scoreOf persona asOf b.id ∧ a.id ≤ b.id) ↔
      read.keyOf persona asOf a ≤ read.keyOf persona asOf b := rankKey_le_iff.symm
  unfold ServandaNode.ordered
  simp only [hrel]
  have : Std.Total fun a b : OpenLoopItem ↦ read.keyOf persona asOf a ≤ read.keyOf persona asOf b :=
    ⟨fun _ _ ↦ le_total _ _⟩
  have : IsTrans OpenLoopItem fun a b ↦ read.keyOf persona asOf a ≤ read.keyOf persona asOf b :=
    ⟨fun _ _ _ ↦ le_trans⟩
  exact List.pairwise_insertionSort _ _

theorem keys_sorted (h : read.Distinct crypto persona view asOf) :
    (read.keys crypto persona view asOf).Pairwise (· < ·) := by
  have hids : ((read.node.ordered crypto read.now persona view asOf).map (·.id)).Nodup :=
    (((List.perm_insertionSort _ _).map _).nodup_iff).mpr h
  refine List.pairwise_map.mpr (ordered_sorted.imp₂ (fun a b hle hid ↦ ?_) (List.pairwise_map.mp hids))
  exact lt_of_le_of_ne hle fun heq ↦ hid (congrArg Prod.snd (toLex.injective heq))

theorem pageStart_spec (cursor : Option PageCursor) :
    ((read.node.ordered crypto read.now persona view asOf).drop (pageStart
        (read.node.scoreOf persona asOf) (read.node.ordered crypto read.now persona view asOf)
        cursor)).map (read.keyOf persona asOf) =
      rest (cursor.map PageCursor.rankKey) (read.keys crypto persona view asOf) ∧
    pageStart (read.node.scoreOf persona asOf)
        (read.node.ordered crypto read.now persona view asOf) cursor =
      (read.keys crypto persona view asOf).countP fun x ↦
        ¬Beyond (cursor.map PageCursor.rankKey) x := by
  cases cursor with
  | none =>
    have hall : ∀ x ∈ read.keys crypto persona view asOf, decide (Beyond none x) = true :=
      fun _ _ ↦ decide_eq_true trivial
    constructor
    · rw [pageStart, List.drop_zero, Option.map_none, rest, List.filter_eq_self.mpr hall, keys]
    · refine (List.countP_eq_zero.mpr fun x hx ↦ ?_).symm
      simpa using hall x hx
  | some cursor =>
  have hafter (i : OpenLoopItem) : sortsAfter cursor (read.node.scoreOf persona asOf i.id) i.id =
      decide (Beyond (some (PageCursor.rankKey cursor)) (read.keyOf persona asOf i)) := by
    rw [Bool.eq_iff_iff, decide_eq_true_eq]
    exact sortsAfter_iff
  have hmono : (read.node.ordered crypto read.now persona view asOf).Pairwise fun a b ↦
      sortsAfter cursor (read.node.scoreOf persona asOf a.id) a.id = true →
        sortsAfter cursor (read.node.scoreOf persona asOf b.id) b.id = true := by
    refine ordered_sorted.imp fun {a b} hle ha ↦ ?_
    rw [sortsAfter_iff] at ha ⊢
    exact lt_of_lt_of_le ha hle
  obtain ⟨hdrop, hcount⟩ := drop_findIdx hmono
  constructor
  · rw [Option.map_some, rest, keys, List.filter_map]
    refine (congrArg _ hdrop).trans (congrArg _ ?_)
    exact List.filter_congr fun i _ ↦ hafter i
  · apply hcount.trans
    rw [keys, List.countP_map]
    apply List.countP_congr
    intro i _
    rw [hafter]
    simp

variable {cursor : Option PageCursor}

/-- A page in terms of the rank keys: what it holds, where it stops, and its two counts. -/
theorem servePage_spec (hdistinct : read.Distinct crypto persona view asOf)
    (hasOf : cursor.elim read.now (·.asOf) = asOf) :
    let out := read.node.servePage crypto read.now persona view read.limit cursor
    let mark := cursor.map PageCursor.rankKey
    let keys := read.keys crypto persona view asOf
    out.items.map (read.keyOf persona asOf) = page mark read.limit keys ∧
      out.nextCursor.map PageCursor.rankKey = next mark read.limit keys ∧
      (∀ c, out.nextCursor = some c → c.view = view ∧ c.persona = persona ∧ c.asOf = asOf ∧
        c.above = keys.countP fun x ↦ x ≤ PageCursor.rankKey c) ∧
      ∀ c, cursor = some c →
        out.skipped = (keys.countP fun x ↦ x ≤ PageCursor.rankKey c) - c.above := by
  intro out mark keys
  obtain ⟨hdrop, hstart⟩ := @pageStart_spec crypto persona view asOf read cursor
  have hsorted := keys_sorted hdistinct
  simp only [out, ServandaNode.servePage, hasOf]
  generalize hord : read.node.ordered crypto read.now persona view asOf = ordered at hdrop hstart ⊢
  generalize pageStart (read.node.scoreOf persona asOf) ordered cursor = start at hdrop hstart ⊢
  have hpage : ((ordered.drop start).take read.limit).map (read.keyOf persona asOf) =
      page mark read.limit keys := by
    rw [List.map_take, hdrop]
    rfl
  have hlength : (rest mark keys).length = ordered.length - start := by
    rw [← hdrop, List.length_map, List.length_drop]
  have hle : start ≤ ordered.length := by
    have hcount := List.countP_le_length (p := fun x ↦ decide ¬Beyond mark x) (l := keys)
    rw [hstart]
    simpa [keys, PageRead.keys, hord] using hcount
  have hend : ordered.length ≤ start + ((ordered.drop start).take read.limit).length ↔
      (rest mark keys).length ≤ read.limit := by
    rw [hlength, List.length_take, List.length_drop]
    omega
  have hnext : (if ordered.length ≤ start + ((ordered.drop start).take read.limit).length then none
      else ((ordered.drop start).take read.limit).getLast?.map fun last ↦
        (⟨view, persona, asOf, read.node.scoreOf persona asOf last.id, last.id,
          start + ((ordered.drop start).take read.limit).length⟩ : PageCursor)).map
        PageCursor.rankKey = next mark read.limit keys := by
    unfold next
    rw [← hpage, List.getLast?_map]
    simp only [hend]
    split_ifs
    · rfl
    · rw [Option.map_map]
      rfl
  refine ⟨hpage, hnext, fun c hc ↦ ?_, fun c hc ↦ ?_⟩
  · have hkey : next mark read.limit keys = some (PageCursor.rankKey c) := by
      rw [← hnext, hc]
      rfl
    split_ifs at hc
    obtain ⟨last, -, rfl⟩ := Option.map_eq_some_iff.mp hc
    refine ⟨rfl, rfl, rfl, ?_⟩
    rw [countP_le_next hsorted hkey, ← hpage, List.length_map, hstart]
  · subst hc
    dsimp only
    rw [hstart]
    congr 1
    apply List.countP_congr
    intro x _
    simp [Beyond]

end PageRead

theorem openLoops_first {read : PageRead} {name : Option PersonaName}
    (h : read.node.resolvePersona name = some persona) :
    read.node.openLoops crypto read.now (read.input view name none) =
      .ok (read.node.servePage crypto read.now persona view read.limit none) := by
  simp [ServandaNode.openLoops, PageRead.input, h]

theorem openLoops_more {read : PageRead} {name : Option PersonaName} {cursor : PageCursor}
    {out : OpenLoopsOutput} : read.node.openLoops crypto read.now
        (read.input view name (some cursor)) = .ok out ↔
      read.node.resolvePersona name = some cursor.persona ∧ cursor.view = view ∧
        cursorExpired cursor read.now = false ∧
        out = read.node.servePage crypto read.now cursor.persona view read.limit (some cursor) := by
  cases hpersona : read.node.resolvePersona name with
  | none => simp [ServandaNode.openLoops, PageRead.input, hpersona]
  | some persona =>
    have hread : read.node.openLoops crypto read.now (read.input view name (some cursor)) =
        if cursor.view ≠ view ∨ cursor.persona ≠ persona then .error .otherViewOrPersona
        else if cursorExpired cursor read.now then .error .olderThanTtl
        else .ok (read.node.servePage crypto read.now persona view read.limit (some cursor)) := by
      simp only [ServandaNode.openLoops, PageRead.input, Option.map_some, hpersona]
      rfl
    rw [hread]
    by_cases hsame : cursor.view = view ∧ cursor.persona = persona
    · obtain ⟨hview, rfl⟩ := hsame
      cases cursorExpired cursor read.now
      · simp only [hview, ne_eq, not_true_eq_false, or_self, Bool.false_eq_true, if_false,
          Except.ok.injEq, true_and, eq_comm (a := out)]
      · simp [hview]
    · rw [if_pos (by tauto)]
      simp only [reduceCtorEq, false_iff]
      intro ⟨hp, hview, _⟩
      exact hsame ⟨hview, (Option.some.inj hp).symm⟩

/-- A page of a walk: the read, and what it was answered. -/
abbrev Page := PageRead × OpenLoopsOutput

/-- A walk along the cursors, its reads each under a condition on the pages before them: the pages
so far, and the cursor to go on with, none where the walk is at its end. -/
inductive Walk (name : Option PersonaName) (C : List Page → PageRead → Prop) :
    List Page → Option PageCursor → Prop
  | first {read : PageRead} {out : OpenLoopsOutput} (hnow : read.now = asOf)
      (hpersona : read.node.resolvePersona name = some persona)
      (hread : read.node.openLoops crypto read.now (read.input view name none) = .ok out)
      (hC : C [] read) : Walk name C [(read, out)] out.nextCursor
  | more {pages : List Page} {cursor : PageCursor} {read : PageRead} {out : OpenLoopsOutput}
      (walk : Walk name C pages (some cursor))
      (hread : read.node.openLoops crypto read.now (read.input view name (some cursor)) = .ok out)
      (hC : C pages read) : Walk name C (pages ++ [(read, out)]) out.nextCursor

/-- The rank keys of the delivered items, each as its page ranked it. -/
def delivered (pages : List Page) : List RankKey :=
  pages.flatMap fun p ↦ p.2.items.map (p.1.keyOf persona asOf)

def deliveredIds (pages : List Page) : List Sha256Hex :=
  pages.flatMap fun p ↦ p.2.items.map (·.id)

structure Faithful (pages : List Page) (cursor : Option PageCursor) : Prop where
  ordered : (delivered persona asOf pages).Pairwise (· < ·)
  once : (deliveredIds pages).Nodup
  complete : cursor = none → ∀ score id,
    (∀ p ∈ pages, rankKey score id ∈ p.1.keys crypto persona view asOf) →
    (deliveredIds pages).count id = 1
  counted : ∀ before last p after c, pages = before ++ last :: p :: after →
    last.2.nextCursor = some c →
    p.2.skipped ≤ (p.1.keys crypto persona view asOf).countP fun x ↦
      x < PageCursor.rankKey c ∧ (ofLex x).2 ∉ deliveredIds (before ++ [last])

/-- The items of a read bear distinct ids; no item that was delivered ranks behind all that was
delivered; and no more of the delivered items are there than items stood up to the last of them at
the read before. -/
structure Undisturbed (pages : List Page) (read : PageRead) : Prop where
  distinct : read.Distinct crypto persona view asOf
  unpassed : ∀ x ∈ read.keys crypto persona view asOf, (ofLex x).2 ∈ deliveredIds pages →
    ∃ y ∈ delivered persona asOf pages, x ≤ y
  uncrowded : ∀ before last, pages = before ++ [last] →
    (read.keys crypto persona view asOf).countP (fun x ↦ (ofLex x).2 ∈ deliveredIds pages) ≤
      (last.1.keys crypto persona view asOf).countP fun x ↦
        ∃ y ∈ delivered persona asOf pages, x ≤ y

variable {crypto persona view asOf} {name : Option PersonaName} {C : List Page → PageRead → Prop}
  {pages : List Page} {cursor : Option PageCursor} {read : PageRead}

theorem map_delivered (pages : List Page) :
    (delivered persona asOf pages).map (fun key ↦ (ofLex key).2) = deliveredIds pages := by
  simp only [delivered, deliveredIds, List.map_flatMap, List.map_map]
  rfl

/-- A walk over nodes is a walk over the rank keys of their views. -/
theorem Walk.keyset (h : Walk crypto persona view asOf name C pages cursor)
    (hC : ∀ pages read, C pages read → read.Distinct crypto persona view asOf) :
    Keyset.Walk (pages.map fun p ↦ p.1.keys crypto persona view asOf)
        (pages.map fun p ↦ p.2.items.map (p.1.keyOf persona asOf))
        (cursor.map PageCursor.rankKey) ∧
      ∀ c, cursor = some c → c.view = view ∧ c.persona = persona ∧ c.asOf = asOf ∧
        ∃ before last, pages = before ++ [last] ∧ last.2.nextCursor = some c ∧
          c.above = (last.1.keys crypto persona view asOf).countP fun x ↦
            x ≤ PageCursor.rankKey c := by
  induction h with
  | @first read out hnow hpersona hread hstep =>
    have hdistinct := hC _ _ hstep
    obtain rfl : read.node.servePage crypto read.now persona view read.limit none = out :=
      Except.ok.inj ((openLoops_first crypto persona view hpersona).symm.trans hread)
    obtain ⟨hitems, hnext, hcursor, -⟩ :=
      @PageRead.servePage_spec crypto persona view asOf read none hdistinct hnow
    refine ⟨?_, fun c hc ↦ ?_⟩
    · simp only [List.map_cons, List.map_nil]
      rw [hitems, hnext]
      exact .first read.limit_pos (PageRead.keys_sorted hdistinct)
    · obtain ⟨hview, hpersona, hasOf, habove⟩ := hcursor c hc
      exact ⟨hview, hpersona, hasOf, [], _, rfl, hc, habove⟩
  | @more pages cursor read out walk hread hstep ih =>
    have hdistinct := hC _ _ hstep
    obtain ⟨hkeyset, hinfo⟩ := ih
    obtain ⟨hview, hpersona, hasOf, -⟩ := hinfo cursor rfl
    obtain ⟨-, -, -, rfl⟩ := (openLoops_more crypto view).mp hread
    rw [hpersona]
    obtain ⟨hitems, hnext, hcursor, -⟩ :=
      @PageRead.servePage_spec crypto persona view asOf read (some cursor) hdistinct hasOf
    refine ⟨?_, fun c hc ↦ ?_⟩
    · simp only [List.map_append, List.map_cons, List.map_nil]
      rw [hitems, hnext]
      exact hkeyset.more read.limit_pos (PageRead.keys_sorted hdistinct)
    · obtain ⟨hview, hpersona, hasOf, habove⟩ := hcursor c hc
      exact ⟨hview, hpersona, hasOf, pages, _, rfl, hc, habove⟩

theorem Walk.last_page {cursor : PageCursor} {out : OpenLoopsOutput}
    (h : Walk crypto persona view asOf name C pages (some cursor))
    (hC : ∀ pages read, C pages read → read.Distinct crypto persona view asOf)
    (hdistinct : read.Distinct crypto persona view asOf)
    (hread : read.node.openLoops crypto read.now (read.input view name (some cursor)) = .ok out) :
    out.items.map (read.keyOf persona asOf) = page (some (PageCursor.rankKey cursor)) read.limit
        (read.keys crypto persona view asOf) ∧
      (out.items.map (·.id)).Nodup ∧
      out.skipped = ((read.keys crypto persona view asOf).countP fun x ↦
        x ≤ PageCursor.rankKey cursor) - cursor.above := by
  obtain ⟨-, hpersona, hasOf, -⟩ := (h.keyset hC).2 cursor rfl
  obtain ⟨-, -, -, rfl⟩ := (openLoops_more crypto view).mp hread
  rw [hpersona]
  obtain ⟨hitems, -, -, hskipped⟩ :=
    @PageRead.servePage_spec crypto persona view asOf read (some cursor) hdistinct hasOf
  refine ⟨hitems, ?_, hskipped cursor rfl⟩
  have hkeys : (page (some (PageCursor.rankKey cursor)) read.limit
      (read.keys crypto persona view asOf)).Nodup :=
    (page_sorted (PageRead.keys_sorted hdistinct)).imp ne_of_lt
  rw [← Option.map_some, ← hitems] at hkeys
  apply List.Nodup.of_map (fun id ↦ rankKey (read.node.scoreOf persona asOf id) id)
  rwa [List.map_map]

theorem Walk.ordered (h : Walk crypto persona view asOf name C pages cursor)
    (hC : ∀ pages read, C pages read → read.Distinct crypto persona view asOf) :
    (delivered persona asOf pages).Pairwise (· < ·) ∧
      ∀ c, cursor = some c → ∀ x ∈ delivered persona asOf pages, x ≤ PageCursor.rankKey c := by
  obtain ⟨hsorted, hle⟩ := (h.keyset hC).1.sorted
  rw [← List.flatMap_def] at hsorted hle
  refine ⟨hsorted, fun c hc ↦ hle _ ?_⟩
  rw [hc]
  rfl

theorem Walk.cursor_delivered {cursor : PageCursor}
    (h : Walk crypto persona view asOf name C pages (some cursor))
    (hC : ∀ pages read, C pages read → read.Distinct crypto persona view asOf) :
    PageCursor.rankKey cursor ∈ delivered persona asOf pages := by
  have hlast {read : PageRead} {start : Option PageCursor}
      (hdistinct : read.Distinct crypto persona view asOf)
      (hasOf : start.elim read.now (·.asOf) = asOf)
      (hnext : (read.node.servePage crypto read.now persona view read.limit start).nextCursor =
        some cursor) :
      PageCursor.rankKey cursor ∈ (read.node.servePage crypto read.now persona view read.limit
        start).items.map (read.keyOf persona asOf) := by
    obtain ⟨hitems, hkey, -⟩ := PageRead.servePage_spec hdistinct hasOf
    rw [hnext] at hkey
    rw [hitems]
    exact next_mem_page hkey.symm
  generalize hcursor : some cursor = after at h
  cases h with
  | @first read out hnow hpersona hread hstep =>
    obtain rfl : read.node.servePage crypto read.now persona view read.limit none = out :=
      Except.ok.inj ((openLoops_first crypto persona view hpersona).symm.trans hread)
    simpa [delivered] using @hlast read none (hC _ _ hstep) hnow hcursor.symm
  | @more pages start read out walk hread hstep =>
    obtain ⟨-, hpersona, hasOf, -⟩ := (walk.keyset hC).2 start rfl
    obtain ⟨-, -, -, rfl⟩ := (openLoops_more crypto view).mp hread
    rw [hpersona] at hcursor
    rw [delivered, List.flatMap_append, hpersona]
    apply List.mem_append_right _
    simpa using @hlast read (some start) (hC _ _ hstep) hasOf hcursor.symm

theorem Walk.once
    (h : Walk crypto persona view asOf name (Undisturbed crypto persona view asOf) pages cursor) :
    (deliveredIds pages).Nodup := by
  have hC : ∀ pages read, Undisturbed crypto persona view asOf pages read →
      read.Distinct crypto persona view asOf := fun _ _ hstep ↦ hstep.distinct
  induction h with
  | @first read out hnow hpersona hread hstep =>
    obtain rfl : read.node.servePage crypto read.now persona view read.limit none = out :=
      Except.ok.inj ((openLoops_first crypto persona view hpersona).symm.trans hread)
    have hall : ((read.node.ordered crypto read.now persona view asOf).map (·.id)).Nodup :=
      (((List.perm_insertionSort _ _).map _).nodup_iff).mpr hstep.distinct
    simp only [deliveredIds, List.flatMap_cons, List.flatMap_nil, List.append_nil]
    subst hnow
    exact hall.sublist (((List.take_sublist _ _).trans (List.drop_sublist _ _)).map _)
  | @more pages cursor read out walk hread hstep ih =>
    obtain ⟨hitems, hnodup, -⟩ := walk.last_page hC hstep.distinct hread
    have hle := (walk.ordered hC).2 cursor rfl
    rw [deliveredIds, List.flatMap_append]
    simp only [List.flatMap_cons, List.flatMap_nil, List.append_nil]
    refine List.nodup_append'.mpr ⟨ih, hnodup, fun id hbefore hnow ↦ ?_⟩
    obtain ⟨item, hitem, rfl⟩ := List.mem_map.mp hnow
    have hx : read.keyOf persona asOf item ∈ page (some (PageCursor.rankKey cursor)) read.limit
        (read.keys crypto persona view asOf) := hitems ▸ List.mem_map_of_mem hitem
    obtain ⟨hmem, hbeyond⟩ := mem_of_mem_page hx
    obtain ⟨y, hy, hxy⟩ := hstep.unpassed _ hmem hbefore
    exact absurd (hxy.trans (hle y hy)) (not_le.mpr hbeyond)

theorem Walk.complete (h : Walk crypto persona view asOf name C pages none)
    (hC : ∀ pages read, C pages read → read.Distinct crypto persona view asOf) {x : RankKey}
    (hx : ∀ p ∈ pages, x ∈ p.1.keys crypto persona view asOf) :
    x ∈ delivered persona asOf pages := by
  rw [delivered, List.flatMap_def]
  refine (h.keyset hC).1.delivered (fun keys hkeys ↦ ?_) fun k hk ↦ nomatch hk
  obtain ⟨p, hp, rfl⟩ := List.mem_map.mp hkeys
  exact hx p hp

theorem Walk.counted
    (h : Walk crypto persona view asOf name (Undisturbed crypto persona view asOf) pages cursor)
    {before after : List Page} {last p : Page} {c : PageCursor}
    (hpages : pages = before ++ last :: p :: after) (hc : last.2.nextCursor = some c) :
    p.2.skipped ≤ (p.1.keys crypto persona view asOf).countP fun x ↦
      x < PageCursor.rankKey c ∧ (ofLex x).2 ∉ deliveredIds (before ++ [last]) := by
  have hC : ∀ pages read, Undisturbed crypto persona view asOf pages read →
      read.Distinct crypto persona view asOf := fun _ _ hstep ↦ hstep.distinct
  induction h generalizing after with
  | @first read out hnow hpersona hread hstep =>
    have hlength := congrArg List.length hpages
    simp only [List.length_append, List.length_cons, List.length_nil] at hlength
    omega
  | @more pages cursor read out walk hread hstep ih =>
    rcases List.eq_nil_or_concat after with rfl | ⟨after, q, rfl⟩
    swap
    · have hsplit : pages ++ [(read, out)] = (before ++ last :: p :: after) ++ [q] := by
        simpa using hpages
      exact ih (List.append_inj_left' hsplit rfl)
    have hsplit : pages ++ [(read, out)] = (before ++ [last]) ++ [p] := by simpa using hpages
    obtain rfl : pages = before ++ [last] := List.append_inj_left' hsplit rfl
    obtain rfl : (read, out) = p := by simpa using hsplit
    obtain ⟨before', last', hpages', hlast', habove⟩ := ((walk.keyset hC).2 cursor rfl).2.2.2
    obtain ⟨rfl, hlast⟩ := List.append_inj' hpages' rfl
    obtain rfl : last = last' := by simpa using hlast
    obtain rfl : cursor = c := Option.some.inj (hlast'.symm.trans hc)
    obtain ⟨-, -, hskipped⟩ := walk.last_page hC hstep.distinct hread
    have hmax : ∀ x, (∃ y ∈ delivered persona asOf (before ++ [last]), x ≤ y) ↔
        x ≤ PageCursor.rankKey cursor := by
      refine fun x ↦ ⟨fun ⟨y, hy, hxy⟩ ↦ hxy.trans ((walk.ordered hC).2 cursor rfl y hy), fun hx ↦ ?_⟩
      exact ⟨_, walk.cursor_delivered hC, hx⟩
    have hcrowd := hstep.uncrowded before last rfl
    simp only [hmax] at hcrowd
    rw [← habove] at hcrowd
    have hsplit := List.countP_eq_countP_filter_add (read.keys crypto persona view asOf)
      (fun x ↦ decide (x ≤ PageCursor.rankKey cursor))
      fun x ↦ decide ((ofLex x).2 ∈ deliveredIds (before ++ [last]))
    rw [List.countP_filter, List.countP_filter] at hsplit
    have hdelivered : (read.keys crypto persona view asOf).countP (fun x ↦
        decide (x ≤ PageCursor.rankKey cursor) &&
          decide ((ofLex x).2 ∈ deliveredIds (before ++ [last]))) ≤
        (read.keys crypto persona view asOf).countP fun x ↦
          (ofLex x).2 ∈ deliveredIds (before ++ [last]) := by
      apply List.countP_mono_left
      intro x _ hx
      exact (Bool.and_eq_true_iff.mp hx).2
    -- the cursor's own item was delivered, so what was not stands strictly before it
    have hmissed : (read.keys crypto persona view asOf).countP (fun x ↦
        decide (x ≤ PageCursor.rankKey cursor) &&
          !decide ((ofLex x).2 ∈ deliveredIds (before ++ [last]))) ≤
        (read.keys crypto persona view asOf).countP fun x ↦
          x < PageCursor.rankKey cursor ∧ (ofLex x).2 ∉ deliveredIds (before ++ [last]) := by
      apply List.countP_mono_left
      intro x _ hx
      simp only [Bool.and_eq_true, Bool.not_eq_true', decide_eq_true_eq,
        decide_eq_false_iff_not] at hx ⊢
      refine ⟨lt_of_le_of_ne hx.1 ?_, hx.2⟩
      rintro rfl
      have hcursor := List.mem_map_of_mem (f := fun key ↦ (ofLex key).2) (walk.cursor_delivered hC)
      rw [map_delivered] at hcursor
      exact hx.2 hcursor
    dsimp only
    rw [hskipped]
    omega

theorem Walk.faithful
    (h : Walk crypto persona view asOf name (Undisturbed crypto persona view asOf) pages cursor) :
    Faithful crypto persona view asOf pages cursor := by
  have hC : ∀ pages read, Undisturbed crypto persona view asOf pages read →
      read.Distinct crypto persona view asOf := fun _ _ hstep ↦ hstep.distinct
  refine ⟨(h.ordered hC).1, h.once, ?_, fun before last p after c hpages hc ↦ h.counted hpages hc⟩
  rintro rfl score id hall
  have hmem := List.mem_map_of_mem (f := fun key ↦ (ofLex key).2) (h.complete hC hall)
  rw [map_delivered] at hmem
  exact List.count_eq_one_of_mem h.once hmem

/-- No cursor of the walk is past its time at the instant. -/
def Fresh (asOf now : Rfc3339) : Prop :=
  ∀ cursor : PageCursor, cursor.asOf = asOf → cursorExpired cursor now = false

/-- A fresh cursor is served a page, and what is left behind the next cursor is less. -/
theorem Walk.extend {cursor : PageCursor}
    (h : Walk crypto persona view asOf name C pages (some cursor))
    (hC : ∀ pages read, C pages read → read.Distinct crypto persona view asOf)
    (hpersona : read.node.resolvePersona name = some persona) (hfresh : Fresh asOf read.now)
    (hstep : C pages read) :
    ∃ out, Walk crypto persona view asOf name C (pages ++ [(read, out)]) out.nextCursor ∧
      ∀ c, out.nextCursor = some c →
        (rest (some (PageCursor.rankKey c)) (read.keys crypto persona view asOf)).length <
          (rest (some (PageCursor.rankKey cursor)) (read.keys crypto persona view asOf)).length := by
  obtain ⟨hview, hsame, hasOf, -⟩ := (h.keyset hC).2 cursor rfl
  have hread : read.node.openLoops crypto read.now (read.input view name (some cursor)) =
      .ok (read.node.servePage crypto read.now persona view read.limit (some cursor)) := by
    rw [openLoops_more, hsame]
    exact ⟨hpersona, hview, hfresh cursor hasOf, rfl⟩
  refine ⟨_, h.more hread hstep, fun c hc ↦ ?_⟩
  obtain ⟨-, hnext, -⟩ :=
    @PageRead.servePage_spec crypto persona view asOf read (some cursor) (hC _ _ hstep) hasOf
  rw [hc] at hnext
  exact rest_next_length_lt hnext.symm

theorem Walk.ends {reads : ℕ → PageRead} {N : ℕ} (hnow : (reads 0).now = asOf)
    (hpersona : ∀ n, (reads n).node.resolvePersona name = some persona)
    (hfresh : ∀ n, Fresh asOf (reads n).now)
    (hdistinct : ∀ n, (reads n).Distinct crypto persona view asOf)
    (hstop : ∀ n, N ≤ n →
      (reads (n + 1)).keys crypto persona view asOf ⊆ (reads n).keys crypto persona view asOf) :
    ∃ n pages, pages.map Prod.fst = (List.range (n + 1)).map reads ∧
      Walk crypto persona view asOf name (fun _ read ↦ read.Distinct crypto persona view asOf)
        pages none := by
  by_contra hnever
  have hC : ∀ (_ : List Page) (read : PageRead), read.Distinct crypto persona view asOf →
      read.Distinct crypto persona view asOf := fun _ _ h ↦ h
  -- after every read the walk stands at a cursor, and from the last insertion on each read leaves less
  have hgoes : ∀ n, ∃ pages cursor, pages.map Prod.fst = (List.range (n + 1)).map reads ∧
      Walk crypto persona view asOf name (fun _ read ↦ read.Distinct crypto persona view asOf)
        pages (some cursor) ∧
      (N ≤ n → (rest (some (PageCursor.rankKey cursor))
          ((reads n).keys crypto persona view asOf)).length + (n - N) ≤
        ((reads N).keys crypto persona view asOf).length) := by
    intro n
    induction n with
    | zero =>
      have hfirst := Walk.first (C := fun _ read ↦ read.Distinct crypto persona view asOf) hnow
        (hpersona 0) (openLoops_first crypto persona view (hpersona 0)) (hdistinct 0)
      generalize hcursor : ((reads 0).node.servePage crypto (reads 0).now persona view
        (reads 0).limit none).nextCursor = cursor at hfirst
      cases cursor with
      | none => exact absurd ⟨0, _, rfl, hfirst⟩ hnever
      | some cursor =>
        refine ⟨_, cursor, rfl, hfirst, fun hN ↦ ?_⟩
        obtain rfl : N = 0 := Nat.le_zero.mp hN
        exact List.length_filter_le _ _
    | succ n ih =>
      obtain ⟨pages, cursor, hreads, hwalk, hleft⟩ := ih
      obtain ⟨out, hnext, hless⟩ :=
        hwalk.extend hC (hpersona (n + 1)) (hfresh (n + 1)) (hdistinct (n + 1))
      have hmap : (pages ++ [(reads (n + 1), out)]).map Prod.fst =
          (List.range (n + 1 + 1)).map reads := by
        simp [hreads, List.range_succ]
      generalize hcursor : out.nextCursor = after at hnext
      cases after with
      | none => exact absurd ⟨n + 1, _, hmap, hnext⟩ hnever
      | some after =>
        refine ⟨_, after, hmap, hnext, fun hN ↦ ?_⟩
        have hlt := hless after hcursor
        rcases Nat.lt_or_eq_of_le hN with hbefore | rfl
        · have hle := @rest_length_le_of_subset _ _ (some (PageCursor.rankKey cursor)) _ _
            ((PageRead.keys_sorted (hdistinct (n + 1))).imp ne_of_lt)
            (hstop n (Nat.le_of_lt_succ hbefore))
          have hbound := hleft (Nat.le_of_lt_succ hbefore)
          omega
        · have hle := List.length_filter_le (fun x ↦ decide (Beyond
            (some (PageCursor.rankKey after)) x)) ((reads (n + 1)).keys crypto persona view asOf)
          rw [Nat.sub_self]
          exact hle
  obtain ⟨_, _, _, _, hbound⟩ := hgoes (N + ((reads N).keys crypto persona view asOf).length + 1)
  have := hbound (by omega)
  omega

/-- Every walk whose reads are undisturbed is a faithful one, and a walk comes to its end once
insertions stop. -/
theorem paged_walk (crypto : Crypto) (persona : PublicKeyHex) (view : OpenLoopsView)
    (asOf : Rfc3339) (name : Option PersonaName) :
    (∀ pages cursor,
      Walk crypto persona view asOf name (Undisturbed crypto persona view asOf) pages cursor →
      Faithful crypto persona view asOf pages cursor) ∧
    ∀ (reads : ℕ → PageRead) (N : ℕ), (reads 0).now = asOf →
      (∀ n, (reads n).node.resolvePersona name = some persona) →
      (∀ n, Fresh asOf (reads n).now) →
      (∀ n, (reads n).Distinct crypto persona view asOf) →
      (∀ n, N ≤ n →
        (reads (n + 1)).keys crypto persona view asOf ⊆ (reads n).keys crypto persona view asOf) →
      ∃ n pages, pages.map Prod.fst = (List.range (n + 1)).map reads ∧
        Walk crypto persona view asOf name (fun _ read ↦ read.Distinct crypto persona view asOf)
          pages none :=
  ⟨fun _ _ ↦ Walk.faithful, fun _ _ ↦ Walk.ends⟩

section Returned

open Sample

/-- The creditor's register: a proposal, and two younger expectations. -/
def register : ServandaNode where
  activePersona := creditorKey
  personas := [creditorKey]
  personas_nodup := List.nodup_singleton creditorKey
  label := fun _ ↦ "me"
  vault := fun _ ↦
    { Subtree.empty with
      edges := .put .empty Sample.edge
      files := fun id ↦ if id = Sample.edge.edgeId then [proposal] else []
      expectations := .put
        (.put .empty (1, ⟨"an answer", .persona ownerKey, date 3 2 9, none, .opened⟩))
        (2, ⟨"a book", .persona ownerKey, date 3 3 9, none, .opened⟩) }
  pending := fun _ ↦ []

def answer (node : ServandaNode) (decision : ConfirmDecision) : ServandaNode :=
  (node.confirm Sample.crypto (date 3 9 9) ⟨Sample.edge.edgeId, decision, none⟩).1

def readOne (node : ServandaNode) : PageRead := ⟨node, date 3 9 9, 1, by decide⟩

def onePage (node : ServandaNode) (cursor : Option PageCursor) : OpenLoopsOutput :=
  node.servePage Sample.crypto (date 3 9 9) creditorKey .waiting 1 cursor

def firstPage : Page := (readOne register, onePage register none)

def secondPage : Page :=
  let node := answer register .dismiss
  (readOne node, onePage node firstPage.2.nextCursor)

def thirdPage : Page :=
  let node := answer (answer register .dismiss) .confirm
  (readOne node, onePage node secondPage.2.nextCursor)

theorem register_read :
    Faithful Sample.crypto creditorKey .waiting (date 3 9 9) [firstPage] firstPage.2.nextCursor ∧
      ∃ n pages, pages.map Prod.fst = (List.range (n + 1)).map (fun _ ↦ readOne register) ∧
        Walk Sample.crypto creditorKey .waiting (date 3 9 9) none
          (fun _ read ↦ read.Distinct Sample.crypto creditorKey .waiting (date 3 9 9)) pages none := by
  have hdistinct : ((register.itemsFor Sample.crypto (date 3 9 9) creditorKey .waiting
      (date 3 9 9)).map (·.id)).Nodup := by decide +kernel
  obtain ⟨hfaithful, hends⟩ := paged_walk Sample.crypto creditorKey .waiting (date 3 9 9) none
  constructor
  · refine hfaithful _ _ (.first rfl rfl (openLoops_first _ _ _ rfl) ⟨hdistinct, ?_, ?_⟩)
    · exact fun x _ hx ↦ absurd hx List.not_mem_nil
    · exact fun before last h ↦ absurd h (by simp)
  · refine hends (fun _ ↦ readOne register) 0 rfl (fun _ ↦ rfl) (fun _ cursor hasOf ↦ ?_)
      (fun _ ↦ hdistinct) fun _ _ ↦ List.Subset.refl _
    rw [cursorExpired, hasOf]
    decide +kernel

def firstCursor : PageCursor := firstPage.2.nextCursor.get (by decide +kernel)

def secondCursor : PageCursor := secondPage.2.nextCursor.get (by decide +kernel)

/-- A proposal is delivered, dismissed and taken up again: the page after that counts it as missed. -/
theorem returned_item_skipped : ¬∀ crypto persona view asOf name pages cursor,
    Walk crypto persona view asOf name (fun _ _ ↦ True) pages cursor →
    Faithful crypto persona view asOf pages cursor := by
  intro h
  have hc₁ : firstPage.2.nextCursor = some firstCursor := (Option.some_get _).symm
  have hc₂ : secondPage.2.nextCursor = some secondCursor := (Option.some_get _).symm
  have hfirst : Walk Sample.crypto creditorKey .waiting (date 3 9 9) none (fun _ _ ↦ True)
      [firstPage] firstPage.2.nextCursor :=
    .first rfl rfl (openLoops_first _ _ _ rfl) trivial
  rw [hc₁] at hfirst
  have hsecond := @Walk.more _ _ _ _ _ _ _ _ secondPage.1 secondPage.2 hfirst
    ((openLoops_more _ _).mpr ⟨by decide +kernel, by decide +kernel, by decide +kernel,
      by decide +kernel⟩) trivial
  rw [hc₂] at hsecond
  have hthird := @Walk.more _ _ _ _ _ _ _ _ thirdPage.1 thirdPage.2 hsecond
    ((openLoops_more _ _).mpr ⟨by decide +kernel, by decide +kernel, by decide +kernel,
      by decide +kernel⟩) trivial
  have hcounted := (h _ _ _ _ _ _ _ hthird).counted [firstPage] secondPage thirdPage []
    secondCursor rfl hc₂
  exact absurd hcounted (by decide +kernel)

end Returned


end Paging

end Servanda
