import Servanda.Screen

/-!
The stops a person can reach, read off what is shown and not off any one rendering: on the page
they are what a keyboard reaches.
-/

namespace Servanda.Screen

open Unicode Scan Markup Element View ProofPage Keyboard

section Stops

inductive StopKind
  | surface | action
  deriving DecidableEq, Repr

structure Stop where
  id : Text
  label : Text
  kind : StopKind
  /-- The card an action belongs to. -/
  cardId : Option Text

def surfaceStop (item : SurfaceId × Text) : Stop := ⟨item.1.id, item.2, .surface, none⟩

def actionStop (cardId : Option Text) (action : RenderableAction) : Stop :=
  ⟨action.id, action.label, .action, cardId⟩

def cardsShowing (app : AppView) : List CardView :=
  match app.surface with
  | .brief => app.brief.cards
  | .inbox => app.inbox.cards
  | surface => ((app.ledger.sections.find? fun s ↦ s.id.surface = surface).map (·.cards)).getD []

def loneStops (app : AppView) : List Stop :=
  match app.surface with
  | .trust => app.integrations.sources.map fun source ↦ actionStop (some source.id) source.action
  | .proof => ((app.proof.map (·.actions)).getD []).map fun action ↦
      actionStop none (consentAction action)
  | .firstRun =>
    (app.onboarding.steps.filterMap (·.action) ++ app.onboarding.recovery.actions).map
      (actionStop none)
  | _ => []

def stopsFor (app : AppView) : List Stop :=
  (if app.surface ∈ standaloneSurfaces then [] else Copy.nav.map surfaceStop) ++
    (cardsShowing app).flatMap (fun card ↦ card.actions.map (actionStop (some card.id))) ++
    loneStops app

end Stops

section Rendering

/-- What the page is made of, buttons apart. -/
def plainTags : List Text :=
  ["main", "nav", "section", "aside", "div", "p", "span", "bdi", "code", "ul", "ol", "li", "h1", "h2",
    "h3"].map text

def plainNames : List Text :=
  ["class", "id", "role", "aria-labelledby", "data-card", "data-level", "data-out"].map text

def buttonNames : List Text :=
  ["type", "class", "data-action", "aria-describedby", "data-surface", "aria-current"].map text

theorem inert_tag : ∀ tag ∈ plainTags, IsName tag ∧ isVoid tag = false ∧ tag ≠ text "a" ∧
    tag ∉ nativelyOperable := by decide

theorem inert_name : ∀ name ∈ text "aria-label" :: plainNames, IsName name ∧
    name ≠ text "tabindex" ∧ name ≠ text "data-action" := by decide

theorem inert_button : ∀ name ∈ buttonNames, IsName name ∧ name ≠ text "tabindex" ∧
    name ≠ text "disabled" ∧ name ≠ text "aria-label" := by decide

theorem unlabelled : ∀ name ∈ plainNames, name ≠ text "aria-label" := by decide

@[simp] theorem entry_fst (name : String) (value : Text) : (entry name value).1 = text name := rfl

/-- Elements that only show something, with buttons among them. -/
inductive Rendered : El → Prop
  | shown {tag : Text} {attrs : Attrs} {content : Option Text} {children : List El}
      (htag : tag ∈ plainTags) (hattrs : ∀ a ∈ attrs, a.1 ∈ text "aria-label" :: plainNames)
      (h : ∀ c ∈ children, Rendered c) : Rendered (.mk tag attrs content children)
  | button {attrs : Attrs} {s : Text} (hattrs : ∀ a ∈ attrs, a.1 ∈ buttonNames) :
      Rendered (textEl (text "button") s attrs)

variable {tag s : Text} {attrs : Attrs} {content : Option Text} {children : List El} {node : El}

theorem isFocusable_plain (htag : tag ∈ plainTags)
    (hattrs : ∀ a ∈ attrs, a.1 ∈ text "aria-label" :: plainNames) :
    isFocusable (.mk tag attrs content children) = false := by
  obtain ⟨-, -, ha, hnative⟩ := inert_tag tag htag
  have hindex : attr (.mk tag attrs content children) (text "tabindex") = none :=
    attr_of_notMem fun a ha ↦ (inert_name a.1 (hattrs a ha)).2.1
  simp [isFocusable, hindex, El.tag, ha, hnative, isTabStop]

theorem isFocusable_button (hattrs : ∀ a ∈ attrs, a.1 ∈ buttonNames) :
    isFocusable (textEl (text "button") s attrs) = true := by
  have hindex : attr (textEl (text "button") s attrs) (text "tabindex") = none :=
    attr_of_notMem fun a ha ↦ (inert_button a.1 (hattrs a ha)).2.1
  have hdisabled : attr (textEl (text "button") s attrs) (text "disabled") = none :=
    attr_of_notMem fun a ha ↦ (inert_button a.1 (hattrs a ha)).2.2.1
  have hbutton : text "button" ≠ text "a" ∧ text "button" ∈ nativelyOperable := by decide
  rw [isFocusable, hindex, hdisabled]
  simp [textEl, El.tag, hbutton]

theorem Rendered.named (h : Rendered node) : Named node := by
  induction node using El.induction with
  | mk tag attrs content children ih =>
    cases h with
    | shown htag hattrs h =>
      exact .mk (inert_tag _ htag).1 (fun a ha ↦ (inert_name a.1 (hattrs a ha)).1)
        fun c hc ↦ ih c hc (h c hc)
    | button hattrs =>
      exact .mk (by decide) (fun a ha ↦ (inert_button a.1 (hattrs a ha)).1)
        (List.forall_mem_nil _)

theorem Rendered.hollow (h : Rendered node) : Hollow node := by
  induction node using El.induction with
  | mk tag attrs content children ih =>
    cases h with
    | shown htag hattrs h =>
      have hvoid : ¬isVoid tag = true := by simp [(inert_tag _ htag).2.1]
      cases content with
      | none => exact .children (fun hv ↦ absurd hv hvoid) fun c hc ↦ ih c hc (h c hc)
      | some s => exact .text fun hv ↦ absurd hv hvoid
    | button hattrs =>
      have hvoid : ¬isVoid (text "button") = true := by decide
      exact .text fun hv ↦ absurd hv hvoid

/-- Whatever acts is a button, and a keyboard reaches it. -/
theorem Rendered.pointerOnlyControls (h : Rendered node) : pointerOnlyControls node = [] := by
  induction node using El.induction with
  | mk tag attrs content children ih =>
    cases h with
    | shown htag hattrs h =>
      have hattr : attr (.mk tag attrs content children) (text "data-action") = none :=
        attr_of_notMem fun a ha ↦ (inert_name a.1 (hattrs a ha)).2.2
      rw [pointerOnlyControls_mk]
      · exact List.flatMap_eq_nil_iff.mpr fun c hc ↦ ih c hc (h c hc)
      · simp [actionOf, hattr, AttrValue.string?]
    | button hattrs =>
      rw [pointerOnlyControls_mk]
      · rfl
      · exact fun _ ↦ isFocusable_button hattrs

/-- What a keyboard reaches of an element, as what pressing it does and the name it is read by. -/
def controls (tree : El) : List (Option Intent × Text) :=
  (focusOrder tree).map fun stop ↦ (intentOf (toDom stop.element), stop.name)

theorem controls_el (htag : tag ∈ plainTags)
    (hattrs : ∀ a ∈ attrs, a.1 ∈ text "aria-label" :: plainNames) :
    controls (el tag attrs children) = children.flatMap controls := by
  have hmap : children.flatMap controls = (children.flatMap focusOrder).map
      fun stop ↦ (intentOf (toDom stop.element), stop.name) := by
    rw [List.map_flatMap]
    rfl
  rw [hmap, controls, el, focusOrder_mk, isFocusable_plain htag hattrs]
  rfl

theorem controls_textEl (htag : tag ∈ plainTags)
    (hattrs : ∀ a ∈ attrs, a.1 ∈ text "aria-label" :: plainNames) :
    controls (textEl tag s attrs) = [] := by
  rw [controls, textEl, focusOrder_mk, isFocusable_plain htag hattrs]
  rfl

theorem controls_button (hattrs : ∀ a ∈ attrs, a.1 ∈ buttonNames) :
    controls (textEl (text "button") s attrs) =
      [(intentOf (toDom (textEl (text "button") s attrs)), s)] := by
  have hlabel : ariaLabel (textEl (text "button") s attrs) = none :=
    ariaLabel_of_notMem fun a ha ↦ (inert_button a.1 (hattrs a ha)).2.2.2
  have hname : accessibleName (textEl (text "button") s attrs) = s := by
    have hspoken : spoken (textEl (text "button") s attrs).text = spoken (some s) := rfl
    rw [accessibleName, hlabel, hspoken, spoken_some]
    by_cases hs : s = []
    · subst hs
      rfl
    · rw [if_neg hs]
      rfl
  have hfocus : focusOrder (textEl (text "button") s attrs) =
      [⟨textEl (text "button") s attrs, actionOf (textEl (text "button") s attrs),
        accessibleName (textEl (text "button") s attrs)⟩] := by
    have hbutton := @isFocusable_button s attrs hattrs
    rw [textEl] at hbutton ⊢
    rw [focusOrder_mk, if_pos hbutton]
    rfl
  rw [controls, hfocus, List.map_singleton, hname]

@[simp] theorem setAttribute_entry (name : String) (value : Text) :
    setAttribute (entry name value) = some (text name, value) :=
  rfl

/-- A control that acts. -/
def pressed (action : RenderableAction) : Option Intent × Text :=
  (some (.action action.id), action.label)

theorem controls_actionEl (describedBy : Option Text) (action : RenderableAction) :
    controls (actionEl describedBy action) = [pressed action] := by
  have hnames : ∀ a ∈ [entry "type" (text "button"),
      entry "class" (text (if action.primary then "action action-primary" else "action")),
      entry "data-action" action.id] ++ (describedBy.map (entry "aria-describedby")).toList,
      a.1 ∈ buttonNames := by
    cases describedBy <;> simp [buttonNames]
  have htype : (text "data-action" == text "type") = false := by decide
  have hclass : (text "data-action" == text "class") = false := by decide
  rw [actionEl, controls_button hnames]
  simp [pressed, intentOf, getAttribute, textEl, toDom, List.lookup_cons, htype, hclass]

theorem controls_navItemEl (current : SurfaceId) (item : SurfaceId × Text) :
    controls (navItemEl current item) = [(some (.surface item.1.id), item.2)] := by
  have hnames : ∀ a ∈ [entry "type" (text "button"),
      entry "class" (text (if item.1 = current then "nav-item nav-current" else "nav-item")),
      entry "data-surface" item.1.id,
      (text "aria-current", if item.1 = current then .str (text "page") else .bool false)],
      a.1 ∈ buttonNames := by
    simp [buttonNames]
  have haction : (text "data-action" == text "type") = false ∧
      (text "data-action" == text "class") = false ∧
      (text "data-action" == text "data-surface") = false ∧
      (text "data-action" == text "aria-current") = false := by decide
  have hsurface : (text "data-surface" == text "type") = false ∧
      (text "data-surface" == text "class") = false := by decide
  rw [navItemEl, controls_button hnames]
  have hpage : setAttribute (text "aria-current", .str (text "page")) =
      some (text "aria-current", text "page") := rfl
  have hfalse : setAttribute (text "aria-current", .bool false) = none := rfl
  split
  · simp [intentOf, getAttribute, textEl, toDom, List.lookup_cons, haction, hsurface, hpage]
  · simp [intentOf, getAttribute, textEl, toDom, List.lookup_cons, haction, hsurface, hfalse]

theorem controls_actionsEl (actions : List RenderableAction) (describedBy : Option Text) :
    controls (actionsEl actions describedBy) = actions.map pressed := by
  rw [actionsEl, controls_el (by simp [plainTags]) (by simp [plainNames]), List.flatMap_map]
  simp only [controls_actionEl, List.map_eq_flatMap]

theorem controls_partyPairEl (party : PartyView) : controls (partyPairEl party) = [] := by
  simp [partyPairEl, controls_el, controls_textEl, plainTags, plainNames]

theorem controls_sealEl (shape : SealShape) (label : Text) (relief : Option SealRelief) :
    controls (sealEl shape label relief) = [] := by
  simp [sealEl, controls_el, plainTags, plainNames]

theorem controls_cardEl (card : CardView) : controls (cardEl card) = card.actions.map pressed := by
  have hwith : controls (withWhomOf card) = [] := by
    unfold withWhomOf
    split
    · simp [controls_el, controls_textEl, controls_sealEl, plainTags, plainNames]
    · simp [controls_el, controls_sealEl, controls_partyPairEl, plainTags, plainNames]
  simp [cardEl, actionsOf, controls_el, controls_textEl, controls_actionsEl, hwith, plainTags,
    plainNames]

theorem controls_cardsEl (cards : List CardView) (empty : Text) :
    controls (cardsEl cards empty) = cards.flatMap (·.actions.map pressed) := by
  unfold cardsEl
  split
  · simp_all [controls_textEl, plainTags, plainNames]
  · simp [controls_el, controls_cardEl, plainTags, plainNames,
      List.flatMap_map]

theorem controls_lineEl (cls : String) (line : Option Text) :
    (lineEl cls line).flatMap controls = [] := by
  cases line <;> simp [lineEl, controls_textEl, plainTags, plainNames]

theorem controls_briefEl (brief : BriefView) :
    controls (briefEl brief) = brief.cards.flatMap (·.actions.map pressed) := by
  simp [briefEl, controls_el, controls_textEl, controls_cardsEl, controls_lineEl, plainTags,
    plainNames]

theorem controls_inboxEl (inbox : InboxView) :
    controls (inboxEl inbox) = inbox.cards.flatMap (·.actions.map pressed) := by
  simp [inboxEl, controls_el, controls_textEl, controls_cardsEl, plainTags, plainNames]

theorem controls_ledgerEl (ledger : LedgerView) (id : SectionId) :
    controls (ledgerEl ledger (some id)) =
      (ledger.sections.filter (·.id = id)).flatMap
        fun s ↦ s.cards.flatMap (·.actions.map pressed) := by
  simp [ledgerEl, sectionEls, controls_el, controls_textEl, controls_cardsEl, plainTags, plainNames,
    List.flatMap_assoc]

theorem controls_teamEl (team : TeamView) : controls (teamEl team) = [] := by
  have hentry (e : TeamEntryView) : controls (teamEntryEl e) = [] := by
    simp [teamEntryEl, controls_el, controls_textEl, controls_sealEl, controls_partyPairEl,
      plainTags, plainNames]
  unfold teamEl
  split
  · simp [controls_el, controls_textEl, plainTags, plainNames]
  · simp [controls_el, controls_textEl, hentry, plainTags, plainNames]

theorem controls_proofEl (view : ProofView) : controls (proofEl view) =
    (view.actions.map consentAction).map pressed := by
  have hparties : view.parties.flatMap (fun p ↦ controls (partyRowEl p)) = [] := by
    simp [partyRowEl, controls_el, controls_textEl, controls_partyPairEl, plainTags, plainNames]
  have hdates : view.dates.flatMap (fun d ↦ controls (dateRowEl d)) = [] := by
    simp [dateRowEl, controls_el, controls_textEl, plainTags, plainNames]
  have hstep (step : ProofStepView) : controls (chainStepEl step) = [] := by
    cases hevidence : step.evidence <;>
      simp [chainStepEl, hevidence, controls_el, controls_textEl, controls_sealEl, plainTags,
        plainNames]
  have hchain : view.chain.flatMap (fun step ↦ controls (chainStepEl step)) = [] := by
    simp [hstep]
  have hactions : (if view.actions = [] then [] else
      [actionsEl (view.actions.map consentAction) none]).flatMap controls =
      (view.actions.map consentAction).map pressed := by
    split
    · simp_all
    · simp [controls_actionsEl]
  rw [proofEl, controls_el (by simp [plainTags]) (by simp [plainNames]), List.flatMap_append,
    hactions]
  simp [controls_el, controls_textEl, controls_lineEl, hparties, hdates, hchain, plainTags,
    plainNames, List.flatMap_map]

theorem controls_onboardingEl (view : OnboardingView) : controls (onboardingEl view) =
    (view.steps.filterMap (·.action) ++ view.recovery.actions).map pressed := by
  have hstep (step : OnboardingStepView) :
      controls (stepEl step) = step.action.toList.map pressed := by
    cases haction : step.action <;>
      simp [stepEl, haction, controls_el, controls_textEl, controls_actionsEl, plainTags, plainNames]
  have hsteps : view.steps.flatMap (fun step ↦ controls (stepEl step)) =
      (view.steps.filterMap (·.action)).map pressed := by
    simp only [hstep, List.filterMap_eq_flatMap_toList, List.map_flatMap]
  simp [onboardingEl, recoveryEl, controls_el, controls_textEl, controls_actionsEl, plainTags,
    plainNames, List.flatMap_map, hsteps]

theorem controls_integrationsEl (view : IntegrationsView) : controls (integrationsEl view) =
    view.sources.map fun source ↦ pressed source.action := by
  have hsource (source : SourceView) : controls (sourceEl source) = [pressed source.action] := by
    simp [sourceEl, controls_el, controls_textEl, controls_actionsEl, plainTags, plainNames]
  have hrung (rung : RungView) : controls (rungEl rung) = [] := by
    cases hexplains : rung.explains <;>
      simp [rungEl, hexplains, controls_el, controls_textEl, plainTags, plainNames]
  have hclass (workClass : WorkClassView) : controls (workClassEl workClass) = [] := by
    simp [workClassEl, controls_el, controls_textEl, hrung, plainTags, plainNames,
      List.flatMap_map]
  have hsources : view.sources.flatMap (fun source ↦ controls (sourceEl source)) =
      view.sources.map fun source ↦ pressed source.action := by
    simp only [hsource, List.map_eq_flatMap]
  simp [integrationsEl, controls_el, controls_textEl, hsources, hclass, plainTags, plainNames,
    List.flatMap_map]

theorem controls_noticeEls (app : AppView) : (noticeEls app).flatMap controls = [] := by
  have hvault : (vaultEl app.vault).toList.flatMap controls = [] := by
    cases app.vault <;>
      simp [vaultEl, controls_el, controls_textEl, plainTags, plainNames]
  have hdelivery : (deliveryEl app.delivery).toList.flatMap controls = [] := by
    have hentry (e : DeliveryEntryView) : controls (deliveryEntryEl e) = [] := by
      simp [deliveryEntryEl, controls_textEl, plainTags, plainNames]
    have hentries : (app.delivery.entries.filter (·.needsYou)).flatMap
        (fun e ↦ controls (deliveryEntryEl e)) = [] := by
      simp [hentry]
    cases hline : app.delivery.line <;>
      simp [deliveryEl, hline, controls_el, controls_textEl, hentries, plainTags, plainNames,
        List.flatMap_map]
  have hreach : (reachEl app.reach).toList.flatMap controls = [] := by
    cases hline : app.reach.line <;>
      simp [reachEl, hline, controls_textEl, plainTags, plainNames]
  rw [noticeEls, List.flatMap_append, List.flatMap_append, hvault, hdelivery, hreach]
  rfl

/-- What a stop does, and the name it goes by. -/
def Stop.control (stop : Stop) : Option Intent × Text :=
  (some (match stop.kind with
    | .surface => .surface stop.id
    | .action => .action stop.id), stop.label)

theorem control_actionStop (cardId : Option Text) (action : RenderableAction) :
    (actionStop cardId action).control = pressed action :=
  rfl

theorem controls_navEl (current : SurfaceId) :
    controls (navEl current) = Copy.nav.map fun item ↦ (surfaceStop item).control := by
  rw [navEl, controls_el (by simp [plainTags]) (by simp), List.flatMap_map]
  simp only [controls_navItemEl, List.map_eq_flatMap]
  rfl

/-- No two sections of a ledger show the same view. -/
def Apart (app : AppView) : Prop := (app.ledger.sections.map (·.id)).Nodup

theorem filter_id_of_nodup {sections : List SectionView} (h : (sections.map (·.id)).Nodup)
    (id : SectionId) : sections.filter (·.id = id) = (sections.find? (·.id = id)).toList := by
  induction sections with
  | nil => rfl
  | cons s sections ih =>
    rw [List.map_cons, List.nodup_cons] at h
    by_cases hid : s.id = id
    · have hnone : sections.filter (·.id = id) = [] := by
        rw [List.filter_eq_nil_iff]
        intro t ht hkey
        exact h.1 (List.mem_map.mpr ⟨t, ht, (of_decide_eq_true hkey).trans hid.symm⟩)
      rw [List.filter_cons_of_pos (by simpa using hid), List.find?_cons_of_pos (by simpa using hid),
        hnone]
      rfl
    · rw [List.filter_cons_of_neg (by simpa using hid), List.find?_cons_of_neg (by simpa using hid),
        ih h.2]

/-- The stops of the cards that are shown. -/
theorem cards_control (cards : List CardView) :
    (cards.flatMap fun card ↦ card.actions.map (actionStop (some card.id))).map Stop.control =
      cards.flatMap (·.actions.map pressed) := by
  rw [List.map_flatMap]
  refine List.flatMap_congr fun card _ ↦ ?_
  rw [List.map_map]
  rfl

theorem surface_injective : Function.Injective SectionId.surface := by
  intro a b h
  cases a <;> cases b <;> first | rfl | cases h

theorem find_surface_eq_none {sections : List SectionView} {surface : SurfaceId}
    (h : ∀ id : SectionId, id.surface ≠ surface) :
    (sections.find? fun s ↦ s.id.surface = surface) = none := by
  rw [List.find?_eq_none]
  intro s _
  simpa using h s.id

theorem controls_bodyEl {app : AppView} (h : Apart app) : controls (bodyEl app) =
    ((cardsShowing app).flatMap (fun card ↦ card.actions.map (actionStop (some card.id))) ++
      loneStops app).map Stop.control := by
  have hsection (id : SectionId) : controls (ledgerEl app.ledger (some id)) =
      (((app.ledger.sections.find? fun s ↦ s.id.surface = id.surface).map (·.cards)).getD []).flatMap
        (·.actions.map pressed) := by
    simp only [surface_injective.eq_iff]
    rw [controls_ledgerEl, filter_id_of_nodup h id]
    cases app.ledger.sections.find? (·.id = id) with
    | none => rfl
    | some s => simp
  rw [List.map_append, cards_control]
  unfold bodyEl cardsShowing loneStops
  cases hsurface : app.surface with
  | brief => simp [controls_briefEl]
  | inbox => simp [controls_inboxEl]
  | owe =>
    rw [hsection .owe, List.map_nil, List.append_nil]
    rfl
  | waiting =>
    rw [hsection .waiting, List.map_nil, List.append_nil]
    rfl
  | closed =>
    rw [hsection .closed, List.map_nil, List.append_nil]
    rfl
  | team =>
    dsimp only
    rw [find_surface_eq_none (by intro id; cases id <;> decide)]
    simp [controls_teamEl]
  | trust =>
    dsimp only
    rw [find_surface_eq_none (by intro id; cases id <;> decide)]
    simp [controls_integrationsEl, control_actionStop]
  | proof =>
    dsimp only
    rw [find_surface_eq_none (by intro id; cases id <;> decide)]
    cases hproof : app.proof with
    | none => simp [controls_el, plainTags, plainNames]
    | some view => simp [controls_proofEl, control_actionStop]
  | firstRun =>
    dsimp only
    rw [find_surface_eq_none (by intro id; cases id <;> decide)]
    simp only [controls_onboardingEl, Option.map_none, Option.getD_none, List.flatMap_nil,
      List.nil_append, List.map_map]
    rfl

theorem controls_appEl {app : AppView} (h : Apart app) :
    controls (appEl app) = (stopsFor app).map Stop.control := by
  have hchildren : (noticeEls app ++ [bodyEl app]).flatMap controls = controls (bodyEl app) := by
    rw [List.flatMap_append, controls_noticeEls, List.nil_append, List.flatMap_singleton]
  rw [appEl, stopsFor, controls_el (by simp [plainTags]) (by simp [plainNames]),
    List.append_assoc, List.map_append, ← controls_bodyEl h]
  split
  · rw [hchildren]
    rfl
  · rw [List.flatMap_cons, hchildren, controls_navEl, List.map_map]
    rfl

theorem rendered_el (htag : tag ∈ plainTags)
    (hattrs : ∀ a ∈ attrs, a.1 ∈ text "aria-label" :: plainNames) (h : ∀ c ∈ children, Rendered c) :
    Rendered (el tag attrs children) :=
  .shown htag hattrs h

theorem rendered_textEl (htag : tag ∈ plainTags)
    (hattrs : ∀ a ∈ attrs, a.1 ∈ text "aria-label" :: plainNames) : Rendered (textEl tag s attrs) :=
  .shown htag hattrs (List.forall_mem_nil _)

theorem rendered_actionsEl (actions : List RenderableAction) (describedBy : Option Text) :
    Rendered (actionsEl actions describedBy) := by
  have haction (action : RenderableAction) : Rendered (actionEl describedBy action) := by
    refine .button ?_
    cases describedBy <;> simp [buttonNames]
  simp [actionsEl, rendered_el, haction, plainTags, plainNames]

theorem rendered_sealEl (shape : SealShape) (label : Text) (relief : Option SealRelief) :
    Rendered (sealEl shape label relief) := by
  simp [sealEl, rendered_el, plainTags, plainNames]

theorem rendered_partyPairEl (party : PartyView) : Rendered (partyPairEl party) := by
  simp [partyPairEl, rendered_el, rendered_textEl, plainTags, plainNames]

theorem rendered_cardsEl (cards : List CardView) (empty : Text) : Rendered (cardsEl cards empty) := by
  have hwith (card : CardView) : Rendered (withWhomOf card) := by
    unfold withWhomOf
    split
    · simp [rendered_el, rendered_textEl, rendered_sealEl, plainTags, plainNames]
    · simp [rendered_el, rendered_sealEl, rendered_partyPairEl, plainTags, plainNames]
  have hcard (card : CardView) : Rendered (cardEl card) := by
    simp [cardEl, actionsOf, rendered_el, rendered_textEl, rendered_actionsEl, hwith, plainTags,
      plainNames]
  unfold cardsEl
  split
  · simp [rendered_textEl, plainTags, plainNames]
  · simp [rendered_el, hcard, plainTags, plainNames]

theorem rendered_lineEl (cls : String) (line : Option Text) : ∀ c ∈ lineEl cls line, Rendered c := by
  cases line <;> simp [lineEl, rendered_textEl, plainTags, plainNames]

theorem rendered_bodyEl (app : AppView) : Rendered (bodyEl app) := by
  have hbrief : Rendered (briefEl app.brief) := by
    refine rendered_el (by simp [plainTags]) (by simp [plainNames]) ?_
    rw [List.forall_mem_append, List.forall_mem_append]
    refine ⟨⟨?_, rendered_lineEl _ _⟩, rendered_lineEl _ _⟩
    simp [rendered_textEl, rendered_cardsEl, plainTags, plainNames]
  have hledger (id : SectionId) : Rendered (ledgerEl app.ledger (some id)) := by
    have hsection (s : SectionView) : ∀ c ∈ sectionEls s, Rendered c := by
      simp [sectionEls, rendered_textEl, rendered_cardsEl, plainTags, plainNames]
    refine rendered_el (by simp [plainTags]) (by simp [plainNames]) fun c hc ↦ ?_
    obtain ⟨s, -, hc⟩ := List.mem_flatMap.mp hc
    exact hsection s c hc
  have hinbox : Rendered (inboxEl app.inbox) := by
    simp [inboxEl, rendered_el, rendered_textEl, rendered_cardsEl, plainTags, plainNames]
  have hteam : Rendered (teamEl app.team) := by
    have hentry (e : TeamEntryView) : Rendered (teamEntryEl e) := by
      simp [teamEntryEl, rendered_el, rendered_textEl, rendered_sealEl, rendered_partyPairEl,
        plainTags, plainNames]
    unfold teamEl
    split
    · simp [rendered_el, rendered_textEl, plainTags, plainNames]
    · simp [rendered_el, rendered_textEl, hentry, plainTags, plainNames]
  have hproof (view : ProofView) : Rendered (proofEl view) := by
    have hparty (p : ProofPartyView) : Rendered (partyRowEl p) := by
      simp [partyRowEl, rendered_el, rendered_textEl, rendered_partyPairEl, plainTags, plainNames]
    have hdate (d : ProofDateView) : Rendered (dateRowEl d) := by
      simp [dateRowEl, rendered_el, rendered_textEl, plainTags, plainNames]
    have hstep (step : ProofStepView) : Rendered (chainStepEl step) := by
      cases hevidence : step.evidence <;>
        simp [chainStepEl, hevidence, rendered_el, rendered_textEl, rendered_sealEl, plainTags,
          plainNames]
    refine rendered_el (by simp [plainTags]) (by simp [plainNames]) ?_
    rw [List.forall_mem_append, List.forall_mem_append, List.forall_mem_append]
    refine ⟨⟨⟨?_, rendered_lineEl _ _⟩, ?_⟩, ?_⟩
    · simp [rendered_el, rendered_textEl, hparty, hdate, hstep, plainTags, plainNames]
    · simp [rendered_textEl, plainTags, plainNames]
    · split
      · exact List.forall_mem_nil _
      · simp [rendered_actionsEl]
  have honboarding : Rendered (onboardingEl app.onboarding) := by
    have hstep (step : OnboardingStepView) : Rendered (stepEl step) := by
      cases haction : step.action <;>
        simp [stepEl, haction, rendered_el, rendered_textEl, rendered_actionsEl, plainTags,
          plainNames]
    have hwords (words : List Text) : Rendered (el (text "ol")
        [entry "class" (text "recovery-words")]
        (words.map fun word ↦ textEl (text "li") word [entry "class" (text "hash")])) := by
      simp [rendered_el, rendered_textEl, plainTags, plainNames]
    have hrecovery (sheet : RecoverySheetView) : Rendered (recoveryEl sheet) := by
      simp [recoveryEl, rendered_el, rendered_textEl, rendered_actionsEl, hwords, plainTags,
        plainNames]
    simp [onboardingEl, rendered_el, rendered_textEl, hstep, hrecovery, plainTags, plainNames]
  have hintegrations : Rendered (integrationsEl app.integrations) := by
    have hsource (source : SourceView) : Rendered (sourceEl source) := by
      simp [sourceEl, rendered_el, rendered_textEl, rendered_actionsEl, plainTags, plainNames]
    have hrung (rung : RungView) : Rendered (rungEl rung) := by
      cases hexplains : rung.explains <;>
        simp [rungEl, hexplains, rendered_el, rendered_textEl, plainTags, plainNames]
    have hclass (workClass : WorkClassView) : Rendered (workClassEl workClass) := by
      simp [workClassEl, rendered_el, rendered_textEl, hrung, plainTags, plainNames]
    simp [integrationsEl, rendered_el, rendered_textEl, hsource, hclass, plainTags, plainNames]
  unfold bodyEl
  split
  · exact hbrief
  · exact hinbox
  · exact hteam
  · exact hintegrations
  · exact honboarding
  · split
    · simp [rendered_el, plainTags, plainNames]
    · exact hproof _
  all_goals exact hledger _

theorem rendered_appEl (app : AppView) : Rendered (appEl app) := by
  have hnotices : ∀ c ∈ noticeEls app, Rendered c := by
    rw [noticeEls, List.forall_mem_append, List.forall_mem_append]
    refine ⟨⟨?_, ?_⟩, ?_⟩
    · cases app.vault <;> simp [vaultEl, rendered_el, rendered_textEl, plainTags, plainNames]
    · have hentry (e : DeliveryEntryView) : Rendered (deliveryEntryEl e) := by
        simp [deliveryEntryEl, rendered_textEl, plainTags, plainNames]
      have hlist (entries : List DeliveryEntryView) : Rendered (el (text "ul")
          [entry "class" (text "notice-list")] (entries.map deliveryEntryEl)) := by
        simp [rendered_el, hentry, plainTags, plainNames]
      cases hline : app.delivery.line <;>
        simp [deliveryEl, hline, rendered_el, rendered_textEl, hlist, plainTags, plainNames]
    · cases hline : app.reach.line <;>
        simp [reachEl, hline, rendered_textEl, plainTags, plainNames]
  have hnav : Rendered (navEl app.surface) := by
    have hitem (item : SurfaceId × Text) : Rendered (navItemEl app.surface item) :=
      .button (by simp [buttonNames])
    refine rendered_el (by simp [plainTags]) (by simp) fun c hc ↦ ?_
    obtain ⟨item, -, rfl⟩ := List.mem_map.mp hc
    exact hitem item
  have hbase : ∀ c ∈ noticeEls app ++ [bodyEl app], Rendered c := by
    rw [List.forall_mem_append]
    exact ⟨hnotices, List.forall_mem_singleton.mpr (rendered_bodyEl app)⟩
  refine rendered_el (by simp [plainTags]) (by simp [plainNames]) ?_
  split
  · exact hbase
  · exact List.forall_mem_cons.mpr ⟨hnav, hbase⟩

/-- A keyboard reaches the stops of a page in their order, each by its name and doing what it stands
for; and nothing acts that it does not reach. -/
theorem keyboard_reaches_stops {app : AppView} (h : Apart app) :
    controls (appEl app) = (stopsFor app).map Stop.control ∧
      pointerOnlyControls (appEl app) = [] :=
  ⟨controls_appEl h, (rendered_appEl app).pointerOnlyControls⟩

end Rendering

section Sample

def sampleCard : CardView where
  id := text "card"
  what := text "<b>Send the draft</b>"
  withWhom := none
  ifIDoNothing := text "Due today."
  tone := .plain
  mark := noSeal
  actions := [⟨text "card:done", text "Mark done", true⟩, ⟨text "card:release", text "Let it go", false⟩]

/-- A register of one promise, under what is owed. -/
def sampleApp : AppView where
  surface := .owe
  reach := ⟨true, none⟩
  vault := none
  delivery := ⟨text "Messages out", [], none⟩
  brief := ⟨text "Today", text "As of now.", text "Nothing is waiting on you today.", [], none, none⟩
  ledger := ⟨[⟨.owe, text "You owe", text "You owe nothing that is still open.", [sampleCard]⟩,
    ⟨.closed, text "Closed", text "Nothing closed yet.", []⟩]⟩
  inbox := ⟨text "To confirm", text "Nothing to confirm.", text "Nothing is recorded.", []⟩
  team := ⟨text "Standup", [], [], [], []⟩
  integrations := ⟨text "Sources and trust", [], [], [], [], []⟩
  onboarding := ⟨text "Welcome", [], [], [], ⟨[], [], [], [], [], []⟩⟩
  proof := none

theorem sample_reaches : controls (appEl sampleApp) = (stopsFor sampleApp).map Stop.control ∧
    pointerOnlyControls (appEl sampleApp) = [] :=
  keyboard_reaches_stops (show Apart sampleApp by unfold Apart; decide)

end Sample

end Servanda.Screen
