import Mathlib.Data.List.Infix
import Servanda.Json
import Servanda.Scan

/-!
Markup of tags, double-quoted attributes and five character references: trees are written so that
what they hold is never read as structure.
-/

namespace Servanda.Markup

open Unicode Scan

/-- An attribute without a value is none. -/
inductive Node
  | text (s : Text)
  | element (tag : Text) (attributes : List (Text × Option Text)) (children : List Node)

theorem Node.induction {P : Node → Prop} (text : ∀ s, P (.text s))
    (element : ∀ tag attributes children, (∀ n ∈ children, P n) →
      P (.element tag attributes children)) (n : Node) : P n := by
  refine @Node.rec P (fun children ↦ ∀ n ∈ children, P n) text element ?_ ?_ n
  · exact List.forall_mem_nil _
  · exact fun n children hn hchildren ↦ List.forall_mem_cons.mpr ⟨hn, hchildren⟩

/-- What stands for a code unit between `&` and the end of its name. -/
def references : List (Text × CodeUnit) :=
  [(text "amp;", unit '&'), (text "lt;", unit '<'), (text "gt;", unit '>'),
    (text "quot;", unit '"'), (text "#39;", unit '\'')]

def escapeUnit (u : CodeUnit) : Text :=
  match references.find? (·.2 = u) with
  | some r => unit '&' :: r.1
  | none => [u]

def escape (s : Text) : Text := s.flatMap escapeUnit

/-- A piece of a text after `&`. -/
def readReference (piece : Text) : Option Text :=
  references.findSome? fun r ↦ (dropWord r.1 piece).map (r.2 :: ·)

def unescape (s : Text) : Option Text :=
  match s.splitOn (unit '&') with
  | [] => some []
  | front :: pieces => (pieces.mapM readReference).map fun texts ↦ front ++ texts.flatten

def isNameUnit (u : CodeUnit) : Bool :=
  0x61 ≤ u.toNat && u.toNat ≤ 0x7A || 0x30 ≤ u.toNat && u.toNat ≤ 0x39 || u = unit '-'

def IsName (s : Text) : Prop := s ≠ [] ∧ s.all isNameUnit = true

instance (s : Text) : Decidable (IsName s) := inferInstanceAs (Decidable (_ ∧ _))

def writeAttribute (a : Text × Option Text) : Text :=
  unit ' ' :: a.1 ++ match a.2 with
    | none => []
    | some v => text "=\"" ++ escape v ++ [unit '"']

section Writing

variable (isVoid : Text → Bool)

def openTag (tag : Text) (attributes : List (Text × Option Text)) : Text :=
  unit '<' :: tag ++ attributes.flatMap writeAttribute ++ [unit '>']

def closeTag (tag : Text) : Text := text "</" ++ tag ++ [unit '>']

mutual

def write : Node → Text
  | .text s => escape s
  | .element tag attributes children => openTag tag attributes ++
      if isVoid tag then [] else writeAll children ++ closeTag tag

def writeAll : List Node → Text
  | [] => []
  | n :: ns => write n ++ writeAll ns

end

def readName (s : Text) : Option (Text × Text) :=
  if s.takeWhile isNameUnit = [] then none
  else some (s.takeWhile isNameUnit, s.dropWhile isNameUnit)

def readAttribute : Text → Option ((Text × Option Text) × Text)
  | [] => none
  | u :: s =>
    if u = unit ' ' then do
      let (name, rest) ← readName s
      match dropWord (text "=\"") rest with
      | none => some ((name, none), rest)
      | some quoted =>
        let value ← unescape (quoted.takeWhile (· ≠ unit '"'))
        let rest ← dropWord [unit '"'] (quoted.dropWhile (· ≠ unit '"'))
        some ((name, some value), rest)
    else none

def readOpenTag (s : Text) : Option (Text × List (Text × Option Text) × Text) := do
  let (tag, rest) ← readName s
  let (attributes, rest) := many readAttribute rest.length rest
  let inner ← dropWord [unit '>'] rest
  some (tag, attributes, inner)

/-- The nodes at the front of a text, up to its end or to the tag that closes what they are in. -/
def readNodes : ℕ → Text → Option (List Node × Text)
  | 0, _ => none
  | _ + 1, [] => some ([], [])
  | fuel + 1, u :: s =>
    if u = unit '<' then
      if s.head? = some (unit '/') then some ([], u :: s)
      else do
        let (tag, attributes, inner) ← readOpenTag s
        let (children, after) ← if isVoid tag then some ([], inner) else do
          let (children, close) ← readNodes fuel inner
          some (children, ← dropWord (closeTag tag) close)
        let (others, rest) ← readNodes fuel after
        some (.element tag attributes children :: others, rest)
    else do
      let value ← unescape ((u :: s).takeWhile (· ≠ unit '<'))
      let (others, rest) ← readNodes fuel ((u :: s).dropWhile (· ≠ unit '<'))
      some (.text value :: others, rest)

def read (s : Text) : Option (List Node) := do
  let (nodes, rest) ← readNodes isVoid (s.length + 1) s
  if rest = [] then some nodes else none

end Writing

section References

variable {s t : Text} {u : CodeUnit}

theorem escape_cons (u : CodeUnit) (s : Text) : escape (u :: s) = escapeUnit u ++ escape s :=
  List.flatMap_cons

/-- A reference is a name that is read back, or the unit stands for itself. -/
theorem escapeUnit_cases (u : CodeUnit) :
    (∃ name, escapeUnit u = unit '&' :: name ∧ unit '&' ∉ name ∧ unit '<' ∉ name ∧ unit '"' ∉ name ∧
      ∀ rest, readReference (name ++ rest) = some (u :: rest)) ∨
    escapeUnit u = [u] ∧ u ≠ unit '&' ∧ u ≠ unit '<' ∧ u ≠ unit '"' := by
  unfold escapeUnit
  cases hfind : references.find? (·.2 = u) with
  | none =>
    right
    have hall := List.find?_eq_none.mp hfind
    simp only [references, List.forall_mem_cons, decide_eq_true_eq] at hall
    exact ⟨rfl, fun h ↦ hall.1 h.symm, fun h ↦ hall.2.1 h.symm, fun h ↦ hall.2.2.2.1 h.symm⟩
  | some r =>
    left
    obtain rfl : r.2 = u := by simpa using List.find?_some hfind
    have hmem := List.mem_of_find?_eq_some hfind
    simp only [references, List.mem_cons, List.not_mem_nil, or_false] at hmem
    rcases hmem with rfl | rfl | rfl | rfl | rfl
    all_goals exact ⟨_, rfl, by decide, by decide, by decide, fun rest ↦ rfl⟩

theorem notMem_escape {c : CodeUnit} (hc : c = unit '<' ∨ c = unit '"') (s : Text) :
    c ∉ escape s := by
  have hamp : c ≠ unit '&' := by
    obtain rfl | rfl := hc <;> decide
  induction s with
  | nil => exact List.not_mem_nil
  | cons u s ih =>
    rw [escape_cons, List.mem_append, not_or]
    refine ⟨?_, ih⟩
    obtain ⟨name, hname, -, hlt, hquote, -⟩ | ⟨hplain, -, hlt, hquote⟩ := escapeUnit_cases u
    · rw [hname, List.mem_cons, not_or]
      obtain rfl | rfl := hc
      · exact ⟨hamp, hlt⟩
      · exact ⟨hamp, hquote⟩
    · rw [hplain, List.mem_singleton]
      obtain rfl | rfl := hc
      · exact hlt.symm
      · exact hquote.symm

theorem splitOn_append_of_notMem {c : CodeUnit} {front : Text} {pieces : List Text} (h : c ∉ s)
    (hsplit : t.splitOn c = front :: pieces) : (s ++ t).splitOn c = (s ++ front) :: pieces := by
  induction s with
  | nil => exact hsplit
  | cons u s ih =>
    rw [List.mem_cons, not_or] at h
    have hu : ¬((u == c) = true) := by simpa using Ne.symm h.1
    rw [List.splitOn] at ih ⊢
    rw [List.cons_append, List.splitOnP_cons_eq_if_modifyHead, if_neg hu, ih h.2]
    rfl

theorem splitOn_cons_self (c : CodeUnit) (s : Text) : (c :: s).splitOn c = [] :: s.splitOn c := by
  have hc : (c == c) = true := beq_self_eq_true c
  rw [List.splitOn, List.splitOnP_cons_eq_if_modifyHead, if_pos hc]
  rfl

/-- Text that is written comes back as it was: it is read reference by reference. -/
theorem unescape_escape (s : Text) : unescape (escape s) = some s := by
  induction s with
  | nil => rfl
  | cons u s ih =>
    rw [escape_cons]
    obtain ⟨front, pieces, hsplit⟩ := List.exists_cons_of_ne_nil
      (List.splitOn_ne_nil (unit '&') (escape s))
    rw [unescape, hsplit] at ih
    obtain ⟨texts, htexts, hs⟩ := Option.map_eq_some_iff.mp ih
    obtain ⟨name, hname, hamp, -, -, hread⟩ | ⟨hplain, hamp, -⟩ := escapeUnit_cases u
    · rw [hname, List.cons_append, unescape, splitOn_cons_self,
        splitOn_append_of_notMem hamp hsplit]
      simp [hread, htexts, ← hs]
    · have hamp' : unit '&' ∉ [u] := by simpa using hamp.symm
      rw [hplain, unescape, splitOn_append_of_notMem hamp' hsplit]
      simp [htexts, ← hs]

end References

section Tags

variable {isVoid : Text → Bool} {s t rest tag : Text} {a : Text × Option Text}
  {attributes : List (Text × Option Text)}

theorem readName_append (hs : IsName s) (hrest : ∀ u ∈ rest.head?, isNameUnit u = false) :
    readName (s ++ rest) = some (s, rest) := by
  obtain ⟨hne, hall⟩ := hs
  rw [List.all_eq_true] at hall
  have hstop : rest.takeWhile isNameUnit = [] ∧ rest.dropWhile isNameUnit = rest := by
    cases rest with
    | nil => exact ⟨rfl, rfl⟩
    | cons u rest => simp [hrest u rfl]
  have htake : (s ++ rest).takeWhile isNameUnit = s := by
    rw [List.takeWhile_append_of_pos hall, hstop.1, List.append_nil]
  have hdrop : (s ++ rest).dropWhile isNameUnit = rest := by
    rw [List.dropWhile_append_of_pos hall, hstop.2]
  rw [readName, htake, hdrop, if_neg hne]

/-- An attribute ends where the next one begins, or the tag ends. -/
def Follows (s : Text) : Prop := s.head? = some (unit ' ') ∨ s.head? = some (unit '>')

theorem Follows.not_name (h : Follows s) : ∀ u ∈ s.head?, isNameUnit u = false := by
  rintro u hu
  obtain h | h := h
  · cases hu.symm.trans h
    decide
  · cases hu.symm.trans h
    decide

theorem Follows.exists_cons (h : Follows s) : ∃ u s', s = u :: s' ∧ u ≠ unit '=' := by
  cases s with
  | nil => cases h <;> rename_i h <;> cases h
  | cons u s =>
    refine ⟨u, s, rfl, ?_⟩
    obtain h | h := h
    · cases h
      decide
    · cases h
      decide

theorem takeWhile_append_cons {c : CodeUnit} (h : c ∉ s) :
    (s ++ c :: rest).takeWhile (· ≠ c) = s ∧ (s ++ c :: rest).dropWhile (· ≠ c) = c :: rest := by
  have hall : ∀ u ∈ s, decide (u ≠ c) = true := fun u hu ↦ decide_eq_true fun heq ↦ h (heq ▸ hu)
  rw [List.takeWhile_append_of_pos hall, List.dropWhile_append_of_pos hall]
  simp

theorem readAttribute_write (ha : IsName a.1) (hs : Follows s) :
    readAttribute (writeAttribute a ++ s) = some (a, s) := by
  obtain ⟨name, value⟩ := a
  cases value with
  | none =>
    obtain ⟨u, s', rfl, hu⟩ := hs.exists_cons
    have hnone : dropWord (text "=\"") (u :: s') = none := if_neg hu.symm
    have happend : writeAttribute (name, none) ++ u :: s' = unit ' ' :: (name ++ u :: s') := by
      simp [writeAttribute]
    rw [happend, readAttribute, if_pos rfl, readName_append ha hs.not_name]
    simp [hnone]
  | some v =>
    have happend : writeAttribute (name, some v) ++ s = unit ' ' :: (name ++ (text "=\"" ++
        (escape v ++ unit '"' :: s))) := by
      simp [writeAttribute]
    have heq : ∀ u ∈ (text "=\"" ++ (escape v ++ unit '"' :: s)).head?, isNameUnit u = false := by
      rintro u hu
      cases hu
      decide
    obtain ⟨htake, hdrop⟩ := @takeWhile_append_cons (escape v) s _ (notMem_escape (.inr rfl) v)
    rw [happend, readAttribute, if_pos rfl, readName_append ha heq]
    simp only [Option.bind_eq_bind, Option.bind_some, dropWord_append]
    rw [htake, hdrop, unescape_escape, Option.bind_some]
    rfl

theorem follows_attributes (attributes : List (Text × Option Text)) (rest : Text) :
    Follows (attributes.flatMap writeAttribute ++ unit '>' :: rest) := by
  cases attributes with
  | nil => exact .inr rfl
  | cons a attributes => exact .inl rfl

theorem readOpenTag_write (htag : IsName tag) (hattributes : ∀ a ∈ attributes, IsName a.1) :
    readOpenTag (tag ++ (attributes.flatMap writeAttribute ++ unit '>' :: rest)) =
      some (tag, attributes, rest) := by
  have hmany := @many_flatMap _ _ readAttribute writeAttribute Follows attributes
    (unit '>' :: rest) (fun a _ ↦ ⟨List.cons_ne_nil _ _, fun s ↦ .inl rfl⟩) (.inr rfl) rfl
    (fun a ha s hs ↦ readAttribute_write (hattributes a ha) hs)
    (attributes.flatMap writeAttribute ++ unit '>' :: rest).length (by simp)
  rw [readOpenTag, readName_append htag (follows_attributes attributes rest).not_name]
  simp only [Option.bind_eq_bind, Option.bind_some, hmany]
  rfl

end Tags

section Nodes

variable {isVoid : Text → Bool} {s rest : Text} {nodes others : List Node}

def Node.isText : Node → Bool
  | .text _ => true
  | .element _ _ _ => false

/-- A tree that can be written: its names are names, what is void holds nothing, and no text is empty
or stands beside another. -/
inductive Proper (isVoid : Text → Bool) : Node → Prop
  | text {s : Text} (h : s ≠ []) : Proper isVoid (.text s)
  | element {tag : Text} {attributes : List (Text × Option Text)} {children : List Node}
      (htag : IsName tag) (hattributes : ∀ a ∈ attributes, IsName a.1)
      (hvoid : isVoid tag = true → children = [])
      (hapart : children.IsChain fun m n ↦ m.isText = false ∨ n.isText = false)
      (h : ∀ n ∈ children, Proper isVoid n) : Proper isVoid (.element tag attributes children)

/-- A text that is read as nodes, up to what ends them. -/
def Reads (isVoid : Text → Bool) (s : Text) (nodes : List Node) (rest : Text) : Prop :=
  ∀ fuel, s.length < fuel → readNodes isVoid fuel s = some (nodes, rest)

def Ended (s : Text) : Prop := s = [] ∨ (text "</").isPrefixOf s = true

theorem reads_ended (h : Ended s) : Reads isVoid s [] s := by
  intro fuel hfuel
  obtain ⟨fuel, rfl⟩ := Nat.exists_eq_add_one_of_ne_zero (n := fuel) (by omega)
  obtain rfl | h := h
  · rfl
  · obtain ⟨s', rfl⟩ := List.isPrefixOf_iff_prefix.mp h
    rfl

/-- What a text may be followed by. -/
def Marked (s : Text) : Prop := s = [] ∨ s.head? = some (unit '<')

theorem Ended.marked (h : Ended s) : Marked s := by
  obtain rfl | h := h
  · exact .inl rfl
  · obtain ⟨s', rfl⟩ := List.isPrefixOf_iff_prefix.mp h
    exact .inr rfl

theorem escape_eq_cons {value : Text} (h : value ≠ []) :
    ∃ u s, escape value = u :: s ∧ u ≠ unit '<' := by
  cases hescape : escape value with
  | nil =>
    obtain ⟨u, value, rfl⟩ := List.exists_cons_of_ne_nil h
    rw [escape_cons] at hescape
    obtain ⟨name, hname, -⟩ | ⟨hplain, -⟩ := escapeUnit_cases u
    · rw [hname] at hescape
      cases hescape
    · rw [hplain] at hescape
      cases hescape
  | cons u s =>
    refine ⟨u, s, rfl, ?_⟩
    rintro rfl
    exact notMem_escape (.inl rfl) value (hescape ▸ List.mem_cons_self)

theorem reads_text {value ended : Text} (hvalue : value ≠ []) (hmarked : Marked rest)
    (h : Reads isVoid rest nodes ended) :
    Reads isVoid (escape value ++ rest) (.text value :: nodes) ended := by
  intro fuel hfuel
  obtain ⟨fuel, rfl⟩ := Nat.exists_eq_add_one_of_ne_zero (n := fuel) (by omega)
  obtain ⟨u, s, hescape, hu⟩ := escape_eq_cons hvalue
  have hall : ∀ v ∈ escape value, decide (v ≠ unit '<') = true := fun v hv ↦
    decide_eq_true fun heq ↦ notMem_escape (.inl rfl) value (heq ▸ hv)
  have hstop : rest.takeWhile (· ≠ unit '<') = [] ∧ rest.dropWhile (· ≠ unit '<') = rest := by
    obtain rfl | hmarked := hmarked
    · exact ⟨rfl, rfl⟩
    · cases rest with
      | nil => exact ⟨rfl, rfl⟩
      | cons v rest =>
        cases hmarked
        simp
  have htake : (escape value ++ rest).takeWhile (· ≠ unit '<') = escape value := by
    rw [List.takeWhile_append_of_pos hall, hstop.1, List.append_nil]
  have hdrop : (escape value ++ rest).dropWhile (· ≠ unit '<') = rest := by
    rw [List.dropWhile_append_of_pos hall, hstop.2]
  have hrest : rest.length < fuel := by
    rw [hescape] at hfuel
    simp only [List.length_append, List.length_cons] at hfuel
    omega
  have hunescape := unescape_escape value
  rw [hescape, List.cons_append] at htake hdrop
  rw [hescape] at hunescape
  rw [hescape, List.cons_append, readNodes, if_neg hu, htake, hdrop]
  simp only [Option.bind_eq_bind, hunescape, Option.bind_some, h fuel hrest]

theorem reads_element {tag ended : Text} {attributes : List (Text × Option Text)}
    {children : List Node} (htag : IsName tag) (hattributes : ∀ a ∈ attributes, IsName a.1)
    (hvoid : isVoid tag = true → children = [])
    (hchildren : isVoid tag = false → Reads isVoid
      (writeAll isVoid children ++ (closeTag tag ++ rest)) children (closeTag tag ++ rest))
    (h : Reads isVoid rest nodes ended) :
    Reads isVoid (write isVoid (.element tag attributes children) ++ rest)
      (.element tag attributes children :: nodes) ended := by
  intro fuel hfuel
  obtain ⟨fuel, rfl⟩ := Nat.exists_eq_add_one_of_ne_zero (n := fuel) (by omega)
  have hhead (s : Text) : (tag ++ s).head? ≠ some (unit '/') := by
    obtain ⟨u, tag, rfl⟩ := List.exists_cons_of_ne_nil htag.1
    intro heq
    cases heq
    exact absurd (List.all_eq_true.mp htag.2 _ List.mem_cons_self) (by decide)
  by_cases hv : isVoid tag = true
  · obtain rfl := hvoid hv
    have hwrite : write isVoid (.element tag attributes []) ++ rest = unit '<' ::
        (tag ++ (attributes.flatMap writeAttribute ++ unit '>' :: rest)) := by
      simp [write, openTag, hv]
    rw [hwrite] at hfuel ⊢
    simp only [List.length_append, List.length_cons] at hfuel
    rw [readNodes, if_pos rfl, if_neg (hhead _), readOpenTag_write htag hattributes]
    simp only [Option.bind_eq_bind, Option.bind_some, hv, if_true, h fuel (by omega)]
  · have hwrite : write isVoid (.element tag attributes children) ++ rest = unit '<' ::
        (tag ++ (attributes.flatMap writeAttribute ++ unit '>' ::
          (writeAll isVoid children ++ (closeTag tag ++ rest)))) := by
      simp [write, openTag, hv]
    have hread := hchildren (by simpa using hv)
    rw [hwrite] at hfuel ⊢
    simp only [List.length_append, List.length_cons] at hfuel
    have hinner := hread fuel (by simp only [List.length_append]; omega)
    rw [readNodes, if_pos rfl, if_neg (hhead _), readOpenTag_write htag hattributes]
    simp only [Option.bind_eq_bind, Option.bind_some, hv, hinner,
      dropWord_append, h fuel (by omega)]
    rfl

theorem ended_close (tag rest : Text) : Ended (closeTag tag ++ rest) := by
  refine .inr (List.isPrefixOf_iff_prefix.mpr ?_)
  rw [closeTag, List.append_assoc, List.append_assoc]
  exact List.prefix_append _ _

/-- Nodes of which each is read back are read back together. -/
theorem reads_all (hapart : nodes.IsChain fun m n ↦ m.isText = false ∨ n.isText = false)
    (hproper : ∀ n ∈ nodes, Proper isVoid n)
    (h : ∀ n ∈ nodes, n.isText = false → ∀ rest others ended, Reads isVoid rest others ended →
      Reads isVoid (write isVoid n ++ rest) (n :: others) ended) (hended : Ended rest) :
    Reads isVoid (writeAll isVoid nodes ++ rest) nodes rest := by
  induction nodes with
  | nil => exact reads_ended hended
  | cons n nodes ih =>
    obtain ⟨hn, hnodes⟩ := List.forall_mem_cons.mp h
    obtain ⟨hproper, hothers⟩ := List.forall_mem_cons.mp hproper
    have hrest := ih hapart.tail hothers hnodes
    rw [writeAll, List.append_assoc]
    cases n with
    | element tag attributes children => exact hn rfl _ _ _ hrest
    | text value =>
      cases hproper with
      | text hvalue =>
        rw [write]
        refine reads_text hvalue ?_ hrest
        cases nodes with
        | nil => exact hended.marked
        | cons m nodes =>
          -- What comes after a text is an element, so it begins with a mark.
          obtain htext | hm := (List.isChain_cons_cons.mp hapart).1
          · cases htext
          · cases m with
            | text _ => cases hm
            | element tag attributes children => exact .inr rfl

theorem reads_write {n : Node} (hproper : Proper isVoid n) (htext : n.isText = false) {ended : Text}
    (h : Reads isVoid rest others ended) :
    Reads isVoid (write isVoid n ++ rest) (n :: others) ended := by
  induction n using Node.induction generalizing rest others ended with
  | text s => cases htext
  | element tag attributes children ih =>
    cases hproper with
    | element htag hattributes hvoid hapart hchildren =>
      refine reads_element htag hattributes hvoid (fun _ ↦ ?_) h
      exact reads_all hapart hchildren
        (fun n hn htext rest others ended h ↦ ih n hn (hchildren n hn) htext h) (ended_close tag rest)

/-- What is written is read back, whatever the texts and the values of attributes hold. -/
theorem read_write {n : Node} (hproper : Proper isVoid n) (htext : n.isText = false) :
    read isVoid (write isVoid n) = some [n] := by
  have hread := reads_write hproper htext (reads_ended (.inl rfl)) ((write isVoid n).length + 1)
    (by rw [List.append_nil]; omega)
  rw [List.append_nil] at hread
  rw [read, hread]
  rfl

end Nodes

end Servanda.Markup
