import Servanda.Markup

/-!
The element tree of a page, as text and as a document: a browser shows the same for either.
-/

namespace Servanda.Element

open Unicode Scan Markup

inductive AttrValue
  | str (s : Text)
  | num (n : JsNumber)
  | bool (b : Bool)
  deriving DecidableEq

/-- `String(v)` -/
def AttrValue.asString : AttrValue → Text
  | str s => s
  | num n => units n.digits
  | bool b => if b then text "true" else text "false"

/-- The entries of an object. -/
abbrev Attrs := List (Text × AttrValue)

/-- Missing attributes and missing children are none. -/
inductive El
  | mk (tag : Text) (attrs : Attrs) (content : Option Text) (children : List El)

namespace El

def tag : El → Text
  | mk tag _ _ _ => tag

def attrs : El → Attrs
  | mk _ attrs _ _ => attrs

def text : El → Option Text
  | mk _ _ content _ => content

def children : El → List El
  | mk _ _ _ children => children

theorem induction {P : El → Prop} (mk : ∀ tag attrs content children, (∀ c ∈ children, P c) →
    P (.mk tag attrs content children)) (node : El) : P node := by
  refine @El.rec P (fun children ↦ ∀ c ∈ children, P c) mk ?_ ?_ node
  · exact List.forall_mem_nil _
  · exact fun c children hc hchildren ↦ List.forall_mem_cons.mpr ⟨hc, hchildren⟩

end El

def el (tag : Text) (attrs : Attrs) (children : List El) : El := .mk tag attrs none children

def textEl (tag content : Text) (attrs : Attrs) : El := .mk tag attrs (some content) []

def voidTags : List Text := ["br", "hr", "img", "input", "meta", "link"].map Servanda.text

def isVoid (tag : Text) : Bool := tag ∈ voidTags

/-- `s.replace(/u/gu, out)` -/
def replaceUnit (u : CodeUnit) (out s : Text) : Text := s.flatMap fun v ↦ if v = u then out else [v]

def escapeHtml (s : Text) : Text :=
  let s := replaceUnit (unit '&') (text "&amp;") s
  let s := replaceUnit (unit '<') (text "&lt;") s
  let s := replaceUnit (unit '>') (text "&gt;") s
  let s := replaceUnit (unit '"') (text "&quot;") s
  replaceUnit (unit '\'') (text "&#39;") s

def renderAttr (a : Text × AttrValue) : Text :=
  if a.2 = .bool true then unit ' ' :: a.1
  else unit ' ' :: a.1 ++ text "=\"" ++ escapeHtml a.2.asString ++ [unit '"']

mutual

def renderToHtml : El → Text
  | .mk tag attrs content children =>
    let attrs := (attrs.filter (·.2 ≠ .bool false)).flatMap renderAttr
    if isVoid tag then unit '<' :: tag ++ attrs ++ [unit '>']
    else
      let inner := match content with
        | some s => escapeHtml s
        | none => renderAll children
      unit '<' :: tag ++ attrs ++ [unit '>'] ++ inner ++ text "</" ++ tag ++ [unit '>']

def renderAll : List El → Text
  | [] => []
  | c :: children => renderToHtml c ++ renderAll children

end

/-- What a document holds. -/
inductive Dom
  | text (s : Text)
  | element (tag : Text) (attributes : List (Text × Text)) (childNodes : List Dom)

/-- `element.textContent = s` -/
def textContent (s : Text) : List Dom := if s = [] then [] else [.text s]

def setAttribute (a : Text × AttrValue) : Option (Text × Text) :=
  if a.2 = .bool false then none
  else some (a.1, if a.2 = .bool true then [] else a.2.asString)

mutual

def toDom : El → Dom
  | .mk tag attrs content children =>
    .element tag (attrs.filterMap setAttribute) <| match content with
      | some s => textContent s
      | none => appendAll children

def appendAll : List El → List Dom
  | [] => []
  | c :: children => toDom c :: appendAll children

end

section Reading

/-- An attribute that is set, or is there without a value. -/
def said (a : Text × AttrValue) : Text × Option Text :=
  (a.1, if a.2 = .bool true then none else some a.2.asString)

mutual

/-- What the markup of an element says. -/
def markup : El → Node
  | .mk tag attrs content children =>
    .element tag ((attrs.filter (·.2 ≠ .bool false)).map said) <| if isVoid tag then [] else
      match content with
      | some s => if s = [] then [] else [.text s]
      | none => markupAll children

def markupAll : List El → List Node
  | [] => []
  | c :: children => markup c :: markupAll children

end

mutual

/-- The document that a browser makes of what it reads: without a value, an attribute's is empty. -/
def document : Node → Dom
  | .text s => .text s
  | .element tag attributes children =>
    .element tag (attributes.map fun a ↦ (a.1, a.2.getD [])) (documentAll children)

def documentAll : List Node → List Dom
  | [] => []
  | n :: nodes => document n :: documentAll nodes

end

/-- Tags and attributes go by names; what they hold is arbitrary. -/
inductive Named : El → Prop
  | mk {tag : Text} {attrs : Attrs} {content : Option Text} {children : List El} (htag : IsName tag)
      (hattrs : ∀ a ∈ attrs, IsName a.1) (h : ∀ c ∈ children, Named c) :
      Named (.mk tag attrs content children)

/-- No void element holds anything. -/
inductive Hollow : El → Prop
  | text {tag : Text} {attrs : Attrs} {s : Text} {children : List El}
      (hvoid : isVoid tag = true → s = []) : Hollow (.mk tag attrs (some s) children)
  | children {tag : Text} {attrs : Attrs} {children : List El}
      (hvoid : isVoid tag = true → children = []) (h : ∀ c ∈ children, Hollow c) :
      Hollow (.mk tag attrs none children)

variable {node : El} {children : List El}

@[simp] theorem renderAll_eq (children : List El) :
    renderAll children = children.flatMap renderToHtml := by
  induction children with
  | nil => rfl
  | cons c children ih => rw [renderAll, List.flatMap_cons, ih]

@[simp] theorem appendAll_eq (children : List El) : appendAll children = children.map toDom := by
  induction children with
  | nil => rfl
  | cons c children ih => rw [appendAll, List.map_cons, ih]

@[simp] theorem markupAll_eq (children : List El) : markupAll children = children.map markup := by
  induction children with
  | nil => rfl
  | cons c children ih => rw [markupAll, List.map_cons, ih]

@[simp] theorem documentAll_eq (nodes : List Node) : documentAll nodes = nodes.map document := by
  induction nodes with
  | nil => rfl
  | cons n nodes ih => rw [documentAll, List.map_cons, ih]

theorem writeAll_eq (nodes : List Node) :
    writeAll isVoid nodes = nodes.flatMap (Markup.write isVoid) := by
  induction nodes with
  | nil => rfl
  | cons n nodes ih => rw [writeAll, List.flatMap_cons, ih]

theorem replaceUnit_append (u : CodeUnit) (out s t : Text) :
    replaceUnit u out (s ++ t) = replaceUnit u out s ++ replaceUnit u out t :=
  List.flatMap_append

theorem replaceUnit_of_ne {u v : CodeUnit} (h : v ≠ u) (out : Text) :
    replaceUnit u out [v] = [v] := by
  rw [replaceUnit, List.flatMap_singleton, if_neg h]

/-- An ampersand is replaced first, so none that stands for itself is left when the others come. -/
theorem escapeHtml_singleton (u : CodeUnit) : escapeHtml [u] = escapeUnit u := by
  by_cases h : u ∈ references.map (·.2)
  · simp only [references, List.map_cons, List.map_nil, List.mem_cons, List.not_mem_nil,
      or_false] at h
    rcases h with rfl | rfl | rfl | rfl | rfl
    all_goals rfl
  · simp only [references, List.map_cons, List.map_nil, List.mem_cons, List.not_mem_nil,
      or_false, not_or] at h
    obtain ⟨hamp, hlt, hgt, hquot, hapos⟩ := h
    have hnone : references.find? (·.2 = u) = none := by
      simp [references, eq_comm, hamp, hlt, hgt, hquot, hapos]
    rw [escapeUnit, hnone]
    simp only [escapeHtml, replaceUnit_of_ne, hamp, hlt, hgt, hquot, hapos, ne_eq,
      not_false_eq_true]

theorem escapeHtml_eq (s : Text) : escapeHtml s = escape s := by
  induction s with
  | nil => rfl
  | cons u s ih =>
    have happend : escapeHtml ([u] ++ s) = escapeHtml [u] ++ escapeHtml s := by
      simp only [escapeHtml, replaceUnit_append]
    rw [escape_cons, ← ih, ← escapeHtml_singleton]
    exact happend

theorem renderAttr_eq (a : Text × AttrValue) : renderAttr a = writeAttribute (said a) := by
  obtain ⟨name, value⟩ := a
  by_cases h : value = .bool true
  · simp [renderAttr, writeAttribute, said, h]
  · simp [renderAttr, writeAttribute, said, h, escapeHtml_eq]

theorem renderToHtml_eq (node : El) : renderToHtml node = Markup.write isVoid (markup node) := by
  induction node using El.induction with
  | mk tag attrs content children ih =>
    have hattrs : (attrs.filter (·.2 ≠ .bool false)).flatMap renderAttr =
        ((attrs.filter (·.2 ≠ .bool false)).map said).flatMap writeAttribute := by
      rw [List.flatMap_map]
      exact List.flatMap_congr fun a _ ↦ renderAttr_eq a
    have hchildren : children.flatMap renderToHtml =
        (children.map markup).flatMap (Markup.write isVoid) := by
      rw [List.flatMap_map]
      exact List.flatMap_congr ih
    cases content with
    | none =>
      rw [renderToHtml, markup, Markup.write, openTag, hattrs]
      by_cases hvoid : isVoid tag = true
      · simp [hvoid]
      · simp [hvoid, writeAll_eq, hchildren, closeTag]
    | some s =>
      rw [renderToHtml, markup, Markup.write, openTag, hattrs]
      by_cases hvoid : isVoid tag = true
      · simp [hvoid]
      · by_cases hs : s = []
        · subst hs
          simp [hvoid, closeTag, writeAll, escapeHtml, replaceUnit]
        · simp [hvoid, hs, closeTag, writeAll, Markup.write, escapeHtml_eq]

theorem markup_isText (node : El) : (markup node).isText = false := by
  obtain ⟨tag, attrs, content, children⟩ := node
  cases content with
  | none => rw [markup, Node.isText]
  | some s => rw [markup, Node.isText]

theorem Named.proper (h : Named node) : Proper isVoid (markup node) := by
  induction node using El.induction with
  | mk tag attrs content children ih =>
    cases h with
    | mk htag hattrs h =>
      have hnames : ∀ a ∈ (attrs.filter (·.2 ≠ .bool false)).map said, IsName a.1 := by
        intro a ha
        obtain ⟨b, hb, rfl⟩ := List.mem_map.mp ha
        exact hattrs b (List.mem_of_mem_filter hb)
      cases content with
      | none =>
        rw [markup]
        refine .element htag hnames (fun hvoid ↦ if_pos hvoid) ?_ ?_
        · split
          · exact List.isChain_nil
          · refine List.Pairwise.isChain (List.pairwise_of_forall_mem_list fun m hm n _ ↦ .inl ?_)
            rw [markupAll_eq] at hm
            obtain ⟨c, -, rfl⟩ := List.mem_map.mp hm
            exact markup_isText c
        · intro n hn
          split at hn
          · cases hn
          · rw [markupAll_eq] at hn
            obtain ⟨c, hc, rfl⟩ := List.mem_map.mp hn
            exact ih c hc (h c hc)
      | some s =>
        rw [markup]
        refine .element htag hnames (fun hvoid ↦ if_pos hvoid) ?_ ?_
        · split
          · exact List.isChain_nil
          · split
            · exact List.isChain_nil
            · exact List.isChain_singleton _
        · intro n hn
          split at hn
          · cases hn
          · split at hn
            · cases hn
            · obtain rfl := List.mem_singleton.mp hn
              exact .text ‹_›

theorem said_attributes (attrs : Attrs) : ((attrs.filter (·.2 ≠ .bool false)).map said).map
    (fun a ↦ (a.1, a.2.getD [])) = attrs.filterMap setAttribute := by
  induction attrs with
  | nil => rfl
  | cons a attrs ih =>
    by_cases hfalse : a.2 = .bool false
    · rw [List.filter_cons_of_neg (by simpa using hfalse), List.filterMap_cons, setAttribute,
        if_pos hfalse, ih]
    · rw [List.filter_cons_of_pos (by simpa using hfalse), List.filterMap_cons, setAttribute,
        if_neg hfalse, List.map_cons, List.map_cons, ih, said]
      by_cases htrue : a.2 = .bool true
      · simp [htrue]
      · simp [htrue]

theorem document_eq_iff (node : El) : document (markup node) = toDom node ↔ Hollow node := by
  induction node using El.induction with
  | mk tag attrs content children ih =>
    have hall : children.map (fun c ↦ document (markup c)) = children.map toDom ↔
        ∀ c ∈ children, Hollow c := by
      rw [List.map_inj_left]
      exact forall₂_congr ih
    cases content with
    | none =>
      rw [markup, document, toDom, said_attributes, documentAll_eq, appendAll_eq, markupAll_eq,
        Dom.element.injEq]
      by_cases hvoid : isVoid tag = true
      · rw [if_pos hvoid]
        constructor
        · rintro ⟨-, -, hempty⟩
          obtain rfl := List.map_eq_nil_iff.mp hempty.symm
          exact .children (fun _ ↦ rfl) (List.forall_mem_nil _)
        · intro h
          cases h with
          | children hnone h =>
            rw [hnone hvoid]
            exact ⟨rfl, rfl, rfl⟩
      · rw [if_neg hvoid, List.map_map]
        constructor
        · rintro ⟨-, -, hchildren⟩
          exact .children (fun h ↦ absurd h hvoid) (hall.mp hchildren)
        · intro h
          cases h with
          | children hnone h => exact ⟨rfl, rfl, hall.mpr h⟩
    | some s =>
      rw [markup, document, toDom, said_attributes, documentAll_eq, textContent, Dom.element.injEq]
      have hhollow : Hollow (.mk tag attrs (some s) children) ↔ (isVoid tag = true → s = []) := by
        constructor
        · intro h
          cases h with
          | text hvoid => exact hvoid
        · exact .text
      rw [hhollow]
      by_cases hvoid : isVoid tag = true
      · by_cases hs : s = []
        · simp [hvoid, hs]
        · simp [hvoid, hs]
      · by_cases hs : s = []
        · simp [hvoid, hs]
        · simp [hvoid, hs, document]

theorem read_markup (h : Named node) : read isVoid (renderToHtml node) = some [markup node] := by
  rw [renderToHtml_eq]
  exact read_write h.proper (markup_isText node)

/-- A name and a class that look like markup. -/
def quoted : El :=
  el (text "p") [(text "class", .str (text "a\"><b>"))]
    [textEl (text "bdi") (text "</bdi>&amp;") [],
      el (text "input") [(text "hidden", .bool false), (text "disabled", .bool true)] []]

theorem named_quoted : Named quoted := by
  have hbdi : Named (textEl (text "bdi") (text "</bdi>&amp;") []) :=
    .mk (by decide) (List.forall_mem_nil _) (List.forall_mem_nil _)
  have hinput : Named (el (text "input")
      [(text "hidden", .bool false), (text "disabled", .bool true)] []) :=
    .mk (by decide) (by decide) (List.forall_mem_nil _)
  refine .mk (by decide) (by decide) ?_
  intro c hc
  obtain rfl | rfl := List.mem_pair.mp hc
  · exact hbdi
  · exact hinput

end Reading

end Servanda.Element
