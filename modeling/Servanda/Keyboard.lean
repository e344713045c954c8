import Servanda.Element

/-!
What a keyboard reaches on a page, and what is read aloud there: the elements of a tree in document
order.
-/

namespace Servanda.Keyboard

open Unicode Scan Element

section Walk

mutual

def walk : El → List El
  | .mk tag attrs content children => .mk tag attrs content children :: walkAll children

def walkAll : List El → List El
  | [] => []
  | c :: children => walk c ++ walkAll children

end

/-- `node.attrs?.[name]` -/
def attr (node : El) (name : Text) : Option AttrValue := node.attrs.lookup name

def AttrValue.string? : Option AttrValue → Option Text
  | some (.str s) => some s
  | _ => none

def ariaLabel (node : El) : Option Text := AttrValue.string? (attr node (text "aria-label"))

/-- A text that is there and is not empty. -/
def spoken (s : Option Text) : Option Text := s.filter (· ≠ [])

theorem spoken_some (s : Text) : spoken (some s) = if s = [] then none else some s := by
  by_cases h : s = []
  · simp [spoken, h]
  · simp [spoken, h]

def visibleText (node : El) : List Text :=
  (walk node).flatMap fun n ↦ (spoken n.text).toList ++ (spoken (ariaLabel n)).toList

end Walk

def nativelyOperable : List Text := ["button", "input", "select", "textarea", "summary"].map text

def activationKeys : List Text := [text "Enter", text " "]

structure FocusStop where
  element : El
  /-- `none` for pure navigation. -/
  actionId : Option Text
  name : Text

def isDigitUnit (u : CodeUnit) : Bool := 0x30 ≤ u.toNat && u.toNat ≤ 0x39

def digitsValue (s : Text) : ℕ := s.foldl (fun n u ↦ 10 * n + (u.toNat - 0x30)) 0

/-- `Number.parseInt(s, 10)`, or `none` where it is `NaN`. -/
def parseInt (s : Text) : Option ℤ :=
  let s := s.dropWhile isSpace
  let sign : ℤ := if s.head? = some (unit '-') then -1 else 1
  let s := if s.head? = some (unit '-') ∨ s.head? = some (unit '+') then s.tail else s
  let digits := s.takeWhile isDigitUnit
  if digits = [] then none else some (sign * digitsValue digits)

/-- A tab index that is not negative. -/
def isTabStop : Option AttrValue → Bool
  | some (.num n) => n.digits.head? ≠ some '-'
  | some (.str s) => (parseInt s).any (0 ≤ ·)
  | _ => false

def isFocusable (node : El) : Bool :=
  isTabStop (attr node (text "tabindex")) ||
    if node.tag = text "a" then (AttrValue.string? (attr node (text "href"))).isSome
    else node.tag ∈ nativelyOperable && attr node (text "disabled") ≠ some (.bool true)

def accessibleName (node : El) : Text :=
  match spoken (ariaLabel node), spoken node.text with
  | some label, _ => label
  | none, some s => s
  | none, none => ((walk node).tail.findSome? fun child ↦ spoken child.text).getD []

def actionOf (node : El) : Option Text := AttrValue.string? (attr node (text "data-action"))

def focusOrder (tree : El) : List FocusStop :=
  ((walk tree).filter isFocusable).map fun node ↦ ⟨node, actionOf node, accessibleName node⟩

def pointerOnlyControls (tree : El) : List El :=
  (walk tree).filter fun node ↦ (actionOf node).isSome && !isFocusable node

def activate (stop : FocusStop) (key : Text) : Option Text :=
  if key ∉ activationKeys then none else stop.actionId

/-- The position of the next stop, or `none` where there is none to go to. -/
def nextStop (stops : List FocusStop) (index : ℕ) (shift : Bool) : Option ℕ :=
  if stops = [] then none
  else if shift then some ((index + stops.length - 1) % stops.length)
  else some ((index + 1) % stops.length)

/-- What a click meant. -/
inductive Intent
  | action (id : Text)
  | surface (id : Text)
  deriving DecidableEq

def getAttribute : Dom → Text → Option Text
  | .text _, _ => none
  | .element _ attributes _, name => attributes.lookup name

def intentOf (control : Dom) : Option Intent :=
  match getAttribute control (text "data-action") with
  | some action => some (.action action)
  | none => (getAttribute control (text "data-surface")).map .surface

section Trees

variable {tag : Text} {attrs : Attrs} {content : Option Text} {children : List El} {node : El}

@[simp] theorem walkAll_eq (children : List El) : walkAll children = children.flatMap walk := by
  induction children with
  | nil => rfl
  | cons c children ih => rw [walkAll, List.flatMap_cons, ih]

theorem walk_mk (tag : Text) (attrs : Attrs) (content : Option Text) (children : List El) :
    walk (.mk tag attrs content children) =
      .mk tag attrs content children :: children.flatMap walk := by
  rw [walk, walkAll_eq]

theorem visibleText_mk (tag : Text) (attrs : Attrs) (content : Option Text) (children : List El) :
    visibleText (.mk tag attrs content children) = (spoken content).toList ++
      (spoken (ariaLabel (.mk tag attrs content children))).toList ++
      children.flatMap visibleText := by
  rw [visibleText, walk_mk, List.flatMap_cons, List.flatMap_assoc]
  rfl

theorem focusOrder_mk (tag : Text) (attrs : Attrs) (content : Option Text) (children : List El) :
    focusOrder (.mk tag attrs content children) =
      (if isFocusable (.mk tag attrs content children) then
        [⟨.mk tag attrs content children, actionOf (.mk tag attrs content children),
          accessibleName (.mk tag attrs content children)⟩]
      else []) ++ children.flatMap focusOrder := by
  have hflat : children.flatMap focusOrder = ((children.flatMap walk).filter isFocusable).map
      fun node ↦ ⟨node, actionOf node, accessibleName node⟩ := by
    rw [List.filter_flatMap, List.map_flatMap]
    rfl
  rw [hflat, focusOrder, walk_mk, List.filter_cons]
  split
  · rfl
  · rfl

theorem pointerOnlyControls_mk (tag : Text) (attrs : Attrs) (content : Option Text)
    (children : List El) (h : (actionOf (.mk tag attrs content children)).isSome = true →
      isFocusable (.mk tag attrs content children) = true) :
    pointerOnlyControls (.mk tag attrs content children) =
      children.flatMap pointerOnlyControls := by
  have hflat : children.flatMap pointerOnlyControls = (children.flatMap walk).filter
      fun node ↦ (actionOf node).isSome && !isFocusable node := by
    rw [List.filter_flatMap]
    rfl
  rw [hflat, pointerOnlyControls, walk_mk, List.filter_cons, if_neg]
  simpa using h

theorem ariaLabel_of_notMem (h : ∀ a ∈ attrs, a.1 ≠ text "aria-label") :
    ariaLabel (.mk tag attrs content children) = none := by
  have hattr : attrs.lookup (text "aria-label") = none :=
    List.lookup_eq_none_iff.mpr fun a ha ↦ by simpa using (h a ha).symm
  simp [ariaLabel, attr, El.attrs, hattr, AttrValue.string?]

theorem attr_of_notMem {name : Text} (h : ∀ a ∈ attrs, a.1 ≠ name) :
    attr (.mk tag attrs content children) name = none :=
  List.lookup_eq_none_iff.mpr fun a ha ↦ by simpa using (h a ha).symm

end Trees

end Servanda.Keyboard
