import Servanda.Frame

/-!
The keys of the terminal: what one does to the cursor, and what it asks for. Whatever a frame offers
is reached by keys alone.
-/

namespace Servanda.Terminal

open Unicode Scan Element View Keyboard Screen Servanda.Frame

section Keys

structure TuiState extends FrameState where
  quit : Bool

structure KeyResult where
  state : TuiState
  /-- The action the key activated. -/
  activated : Option Text
  /-- The surface the key asked for. -/
  surface : Option Text

def interrupt : Text := [BitVec.ofNat 16 3]

def escape : CodeUnit := BitVec.ofNat 16 27

def activation : List Text := ["\r", "\n", " "].map text

def forward : List Text := ["\t", "j", "[B"].map text

def backward : List Text := ["[Z", "k", "[A"].map text

/-- What a terminal sends behind an escape. A bare escape is left alone. -/
def normalise (key : Text) : Text :=
  if 1 < key.length ∧ key.head? = some escape then key.tail else key

/-- The surface that goes by a digit, with its position. -/
def surfaceOfDigit (key : Text) : Option (ℕ × SurfaceId) := do
  let digit ← parseInt key
  if 1 ≤ digit ∧ digit ≤ Copy.nav.length then
    let item ← Copy.nav[(digit - 1).toNat]?
    return ((digit - 1).toNat, item.1)
  else none

def TuiState.withCursor (state : TuiState) (cursor : ℕ) : TuiState := { state with cursor }

def handleKey (state : TuiState) (raw : Text) : KeyResult :=
  let key := normalise raw
  let stops := stopsFor state.app
  if key = text "q" ∨ key = interrupt then ⟨{ state with quit := true }, none, none⟩
  else match surfaceOfDigit key with
    | some (cursor, surface) => ⟨state.withCursor cursor, none, some surface.id⟩
    | none =>
      if key ∈ forward then
        ⟨state.withCursor (if stops.length = 0 then 0 else (state.cursor + 1) % stops.length),
          none, none⟩
      else if key ∈ backward then
        ⟨state.withCursor (if stops.length = 0 then 0 else
          (state.cursor + stops.length - 1) % stops.length), none, none⟩
      else if key ∈ activation then
        match stops[state.cursor]? with
        | none => ⟨state, none, none⟩
        | some stop => match stop.kind with
          | .surface => ⟨state, none, some stop.id⟩
          | .action => ⟨state, some stop.id, none⟩
      else ⟨state, none, none⟩

/-- What a key asks for. -/
def KeyResult.intent (result : KeyResult) : Option Intent :=
  (result.activated.map .action).or (result.surface.map .surface)

/-- One key after another. -/
def press (state : TuiState) (keys : List Text) : TuiState :=
  keys.foldl (fun state key ↦ (handleKey state key).state) state

end Keys

section Runs

variable {state : TuiState}

theorem handleKey_app (state : TuiState) (raw : Text) :
    (handleKey state raw).state.app = state.app := by
  fun_cases handleKey state raw <;> rfl

theorem surfaceOfDigit_lt {key : Text} {cursor : ℕ} {surface : SurfaceId}
    (h : surfaceOfDigit key = some (cursor, surface)) : cursor < Copy.nav.length := by
  obtain ⟨digit, -, hdigit⟩ := Option.bind_eq_some_iff.mp h
  split at hdigit
  · obtain ⟨item, hitem, heq⟩ := Option.bind_eq_some_iff.mp hdigit
    obtain rfl : (digit - 1).toNat = cursor := congrArg Prod.fst (Option.some.inj heq)
    exact (List.getElem?_eq_some_iff.mp hitem).1
  · cases hdigit

theorem nav_le_stops {app : AppView} (h : app.surface ∉ standaloneSurfaces) :
    Copy.nav.length ≤ (stopsFor app).length := by
  rw [stopsFor, if_neg h]
  simp only [List.length_append, List.length_map]
  omega

/-- Where there is navigation, no key takes the cursor off the stops. -/
theorem handleKey_cursor (hnav : state.app.surface ∉ standaloneSurfaces)
    (h : state.cursor < (stopsFor state.app).length) (raw : Text) :
    (handleKey state raw).state.cursor < (stopsFor state.app).length := by
  have hpos : 0 < (stopsFor state.app).length := by omega
  fun_cases handleKey state raw with
  | case1 => exact h
  | case2 _ _ cursor surface hdigit => exact (surfaceOfDigit_lt hdigit).trans_le (nav_le_stops hnav)
  | case3 =>
    rw [TuiState.withCursor, if_neg hpos.ne']
    exact Nat.mod_lt _ hpos
  | case4 =>
    rw [TuiState.withCursor, if_neg hpos.ne']
    exact Nat.mod_lt _ hpos
  | case5 => exact h
  | case6 => exact h
  | case7 => exact h
  | case8 => exact h

theorem press_app (state : TuiState) (keys : List Text) : (press state keys).app = state.app := by
  induction keys generalizing state with
  | nil => rfl
  | cons key keys ih => exact (ih _).trans (handleKey_app state key)

theorem press_cursor (hnav : state.app.surface ∉ standaloneSurfaces)
    (h : state.cursor < (stopsFor state.app).length) (keys : List Text) :
    (press state keys).cursor < (stopsFor state.app).length := by
  induction keys generalizing state with
  | nil => exact h
  | cons key keys ih =>
    have happ := handleKey_app state key
    have hstep := handleKey_cursor hnav h key
    rw [← happ] at hnav hstep ⊢
    exact ih hnav hstep

/-- A key that acts does what the stop under the cursor stands for. -/
theorem handleKey_activated {raw id : Text} (h : (handleKey state raw).activated = some id) :
    ∃ stop, (stopsFor state.app)[state.cursor]? = some stop ∧
      stop.control.1 = some (.action id) := by
  revert h
  fun_cases handleKey state raw with
  | case7 _ _ _ _ _ _ _ stop hstop hkind =>
    intro h
    obtain rfl : stop.id = id := Option.some.inj h
    exact ⟨stop, hstop, by rw [Stop.control, hkind]⟩
  | _ =>
    intro h
    cases h

theorem handleKey_enter {stop : Stop} (h : (stopsFor state.app)[state.cursor]? = some stop) :
    (handleKey state (text "\r")).intent = stop.control.1 := by
  have hkey : normalise (text "\r") = text "\r" ∧ text "\r" ≠ text "q" ∧ text "\r" ≠ interrupt ∧
      surfaceOfDigit (text "\r") = none ∧ text "\r" ∉ forward ∧ text "\r" ∉ backward ∧
      text "\r" ∈ activation := by decide
  obtain ⟨hnormal, hq, hinterrupt, hdigit, hforward, hbackward, hactivation⟩ := hkey
  simp only [handleKey, hnormal, hq, hinterrupt, hdigit, hforward, hbackward, hactivation, h,
    or_self, if_true, if_false]
  rw [Stop.control]
  cases stop.kind <;> rfl

theorem handleKey_tab (state : TuiState) (h : 0 < (stopsFor state.app).length) :
    (handleKey state (text "\t")).state =
      state.withCursor ((state.cursor + 1) % (stopsFor state.app).length) := by
  have hkey : normalise (text "\t") = text "\t" ∧ text "\t" ≠ text "q" ∧ text "\t" ≠ interrupt ∧
      surfaceOfDigit (text "\t") = none ∧ text "\t" ∈ forward := by decide
  obtain ⟨hnormal, hq, hinterrupt, hdigit, hforward⟩ := hkey
  simp only [handleKey, hnormal, hq, hinterrupt, hdigit, hforward, or_self, if_true, if_false,
    h.ne']

theorem press_tabs (h : 0 < (stopsFor state.app).length) (k : ℕ) :
    press state (List.replicate (k + 1) (text "\t")) =
      state.withCursor ((state.cursor + (k + 1)) % (stopsFor state.app).length) := by
  induction k with
  | zero => exact handleKey_tab state h
  | succ k ih =>
    rw [List.replicate_succ', press, List.foldl_concat, ← press, ih]
    refine (handleKey_tab (state.withCursor ((state.cursor + (k + 1)) %
      (stopsFor state.app).length)) h).trans ?_
    simp only [TuiState.withCursor, Nat.mod_add_mod]
    rfl

/-- Whatever is offered is reached by keys alone: the cursor comes to stand on it, and pressing
there does what the page does. -/
theorem keys_reach {i : ℕ} {stop : Stop} (h : (stopsFor state.app)[i]? = some stop) :
    ∃ keys, (press state keys).focused = some stop.id ∧
      (handleKey (press state keys) (text "\r")).intent = stop.control.1 := by
  have hi : i < (stopsFor state.app).length := (List.getElem?_eq_some_iff.mp h).1
  have hpos : 0 < (stopsFor state.app).length := by omega
  obtain ⟨k, hk⟩ : ∃ k, (state.cursor + (k + 1)) % (stopsFor state.app).length = i := by
    refine ⟨(state.cursor + 1) * (stopsFor state.app).length - (state.cursor + 1) + i, ?_⟩
    have hle : state.cursor + 1 ≤ (state.cursor + 1) * (stopsFor state.app).length :=
      Nat.le_mul_of_pos_right _ hpos
    have hsum : state.cursor + ((state.cursor + 1) * (stopsFor state.app).length -
        (state.cursor + 1) + i + 1) = i + (state.cursor + 1) * (stopsFor state.app).length := by
      omega
    rw [hsum, Nat.add_mul_mod_self_right, Nat.mod_eq_of_lt hi]
  refine ⟨List.replicate (k + 1) (text "\t"), ?_, ?_⟩
  · rw [press_tabs hpos, hk, FrameState.focused]
    exact congrArg (Option.map (·.id)) h
  · rw [press_tabs hpos, hk]
    exact handleKey_enter h

/-- The cursor is shown at one control and at no other. -/
theorem filter_offer {stops : List Stop} (hids : (stops.map (·.id)).Nodup) {stop : Stop}
    (h : stop ∈ stops) :
    (stops.map (offer (some stop.id))).filter (·.2) = [(stop.label, true)] := by
  induction stops with
  | nil => cases h
  | cons s stops ih =>
    rw [List.map_cons, List.nodup_cons] at hids
    rw [List.map_cons]
    rcases List.mem_cons.mp h with rfl | hmem
    · have hrest : (stops.map (offer (some stop.id))).filter (·.2) = [] := by
        rw [List.filter_eq_nil_iff]
        intro pair hpair
        obtain ⟨t, ht, rfl⟩ := List.mem_map.mp hpair
        have hne : t.id ≠ stop.id := fun heq ↦ hids.1 (List.mem_map.mpr ⟨t, ht, heq⟩)
        simp [offer, hne]
      rw [List.filter_cons_of_pos (by simp [offer]), hrest]
      simp [offer]
    · have hne : s.id ≠ stop.id := by
        intro heq
        exact hids.1 (List.mem_map.mpr ⟨stop, hmem, heq.symm⟩)
      rw [List.filter_cons_of_neg (by simp [offer, hne]), ih hids.2 hmem]

/-- However the keys are pressed, the frame shows the cursor at one control, and a key that acts
does what that control stands for. -/
theorem press_marked (hnav : state.app.surface ∉ standaloneSurfaces)
    (hids : ((stopsFor state.app).map (·.id)).Nodup)
    (hcursor : state.cursor < (stopsFor state.app).length) (keys : List Text) :
    ∃ stop ∈ stopsFor state.app,
      ((press state keys).rows.flatMap Row.offered).filter (·.2) = [(stop.label, true)] ∧
      ∀ key id, (handleKey (press state keys) key).activated = some id →
        stop.control.1 = some (.action id) := by
  have happ := press_app state keys
  have hlt := press_cursor hnav hcursor keys
  obtain ⟨stop, hstop⟩ : ∃ stop, (stopsFor (press state keys).app)[(press state keys).cursor]? =
      some stop := by
    rw [happ]
    exact ⟨_, List.getElem?_eq_getElem hlt⟩
  have hmem : stop ∈ stopsFor state.app := by
    rw [happ] at hstop
    exact List.mem_of_getElem? hstop
  have hfocused : (press state keys).focused = some stop.id :=
    congrArg (Option.map fun s : Stop ↦ s.id) hstop
  refine ⟨stop, hmem, ?_, fun key id hkey ↦ ?_⟩
  · rw [offered_rows, hfocused, happ]
    exact filter_offer hids hmem
  · obtain ⟨other, hother, hcontrol⟩ := handleKey_activated hkey
    rw [hstop] at hother
    exact Option.some.inj hother ▸ hcontrol

end Runs

section Sample

def sampleState : TuiState := ⟨sampleFrame, false⟩

theorem sample_keys_reach :
    ∃ keys, (press sampleState keys).focused = some (text "card:release") ∧
      (handleKey (press sampleState keys) (text "\r")).intent =
        some (.action (text "card:release")) :=
  @keys_reach sampleState 8
    (actionStop (some (text "card")) ⟨text "card:release", text "Let it go", false⟩) rfl

/-- Back over the first stop to the last, and on to a surface by its digit. -/
theorem sample_press_marked : ∃ stop ∈ stopsFor sampleState.app,
    ((press sampleState [text "k", text "3"]).rows.flatMap Row.offered).filter (·.2) =
      [(stop.label, true)] ∧
    ∀ key id, (handleKey (press sampleState [text "k", text "3"]) key).activated = some id →
      stop.control.1 = some (.action id) :=
  press_marked (by decide) (by decide) (by decide) [text "k", text "3"]

end Sample

end Servanda.Terminal
