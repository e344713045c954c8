import Servanda.Stops

/-!
The one surface in a terminal: the same views as lines of text. It says what the page says, in the
same order, and nothing that is said adds a line or takes one away.
-/

namespace Servanda.Frame

open Unicode Scan Element View ProofPage Keyboard Screen

section Lines

def isControl (u : CodeUnit) : Bool := u.toNat ≤ 0x1F || 0x7F ≤ u.toNat && u.toNat ≤ 0x9F

def isBidi (u : CodeUnit) : Bool :=
  0x202A ≤ u.toNat && u.toNat ≤ 0x202E || 0x2066 ≤ u.toNat && u.toNat ≤ 0x2069

def escapeLine (line : Text) : Text :=
  (line.map fun u ↦ if isControl u then unit ' ' else u).filter fun u ↦ !isBidi u

def mark : SealShape → Text
  | .unsealed => text "( )"
  | .half => text "(="
  | .joined => text "(=)"
  | .marked => text "(x)"
  | .cracked => text "(/)"
  | .arrow => text "(>)"

def rule : Text := List.replicate 64 (BitVec.ofNat 16 0x2500)

def dot : Text := text " · "

def actionText (focused : Option Text) (action : RenderableAction) : Text :=
  (if some action.id = focused then text "> [" else text "  [") ++ action.label ++ text "]"

def loneActionsLine (actions : List RenderableAction) (focused : Option Text) : Text :=
  (text " ").intercalate (actions.map (actionText focused))

def actionsLine (card : CardView) (focused : Option Text) : Text :=
  (text " ").intercalate (card.actions.map (actionText focused))

def withWhomLine (card : CardView) : Text :=
  match card.withWhom with
  | none => mark card.mark.shape ++ text " " ++ card.mark.label ++ dot ++ Copy.justYou
  | some party => mark card.mark.shape ++ text " " ++ card.mark.label ++ dot ++ party.display ++
      dot ++ party.trust.label

def cardLines (card : CardView) (focused : Option Text) : List Text :=
  [actionsLine card focused, card.what, withWhomLine card, card.ifIDoNothing, []]

def navText (current : SurfaceId) (focused : Option Text) (item : SurfaceId × Text) : Text :=
  let marker :=
    if item.1 = current then text "[" ++ item.2 ++ text "]" else text " " ++ item.2 ++ text " "
  (if some item.1.id = focused then text ">" else text " ") ++ marker

def navLine (current : SurfaceId) (focused : Option Text) : Text :=
  (text " ").intercalate (Copy.nav.map (navText current focused))

structure FrameState where
  app : AppView
  cursor : ℕ
  banner : Option Text

def teamEntryLines (e : TeamEntryView) : List Text :=
  let parties := dot.intercalate (e.between.map fun p ↦ p.display ++ dot ++ p.trust.label)
  [e.what, mark e.mark.shape ++ text " " ++ e.mark.label ++ dot ++ parties, e.ifNothingHappens,
    e.blocksLine, []]

def teamLines (team : TeamView) : List Text :=
  [team.heading, team.lede, []] ++ (if team.entries = [] then [team.empty, []] else []) ++
    team.entries.flatMap teamEntryLines ++ [team.note]

def sourceLines (focused : Option Text) (source : SourceView) : List Text :=
  [loneActionsLine [source.action] focused, source.label, source.status, source.lastRead, []]

def rungLine (rung : RungView) : Text :=
  text "  " ++ rung.label ++ dot ++ rung.stateLabel ++
    match rung.explains with
    | none => []
    | some s => dot ++ s

def workClassLines (workClass : WorkClassView) : List Text :=
  workClass.label :: workClass.rungs.map rungLine ++ [[]]

def integrationsLines (view : IntegrationsView) (focused : Option Text) : List Text :=
  [view.heading, [], view.sourcesHeading, []] ++ view.sources.flatMap (sourceLines focused) ++
    [view.trustHeading, view.trustLede, []] ++ view.classes.flatMap workClassLines

def stepLines (focused : Option Text) (step : OnboardingStepView) : List Text :=
  (step.action.map fun action ↦ loneActionsLine [action] focused).toList ++
    [step.heading, step.blurb, []]

def onboardingLines (view : OnboardingView) (focused : Option Text) : List Text :=
  let sheet := view.recovery
  [view.heading, view.lede, []] ++ view.steps.flatMap (stepLines focused) ++ [view.custody, []] ++
    [sheet.heading, loneActionsLine sheet.actions focused, sheet.blurb, sheet.wordsHeading] ++
    sheet.words ++ [[], sheet.later]

def partyLines (p : ProofPartyView) : List Text :=
  [p.role ++ dot ++ p.party.display ++ dot ++ p.party.trust.label, hashText p.key]

def dateLine (d : ProofDateView) : Text := d.label ++ dot ++ dateText d.value

def chainLine (step : ProofStepView) : Text :=
  mark step.mark.shape ++ text " " ++ step.mark.label ++ dot ++ step.label ++ dot ++
    dateText step.when ++ dot ++ step.signedBy ++
    match step.evidence with
    | none => []
    | some _ => dot ++ Copy.evidence

def proofLines (view : ProofView) (focused : Option Text) : List Text :=
  [view.heading, view.lede, view.outcome, [], view.betweenHeading] ++
    view.parties.flatMap partyLines ++ [[], view.datesHeading] ++ view.dates.map dateLine ++
    [[], view.chainHeading] ++ view.chain.map chainLine ++
    [[], view.fingerprintHeading, hashText view.fingerprint, view.fingerprintNote] ++
    [[], view.wordsHeading] ++ view.words.toList ++ [view.wordsNote] ++
    if view.actions = [] then []
    else [loneActionsLine (view.actions.map consentAction) focused]

/-- Cards under a heading, or what is said where there are none. -/
def cardsLines (cards : List CardView) (empty : Text) (focused : Option Text) : List Text :=
  (if cards = [] then [empty, []] else []) ++ cards.flatMap (cardLines · focused)

def noticeLines (app : AppView) : List Text :=
  (match app.vault with
    | none => []
    | some warning => [warning.heading, warning.reassurance, warning.line,
        text "  " ++ warning.command, []]) ++
  (match app.delivery.line with
    | none => []
    | some line => [app.delivery.heading, line] ++
        ((app.delivery.entries.filter (·.needsYou)).map fun e ↦ text "  " ++ e.line) ++ [[]]) ++
  match app.reach.line with
    | none => []
    | some line => [line, []]

def sectionLines (app : AppView) (focused : Option Text) : List Text :=
  match app.ledger.sections.find? fun s ↦ s.id.surface = app.surface with
  | none => []
  | some s => [s.heading, []] ++ cardsLines s.cards s.empty focused

def bodyLines (app : AppView) (focused : Option Text) : List Text :=
  match app.surface with
  | .team => teamLines app.team
  | .trust => integrationsLines app.integrations focused
  | .firstRun => onboardingLines app.onboarding focused
  | .proof => match app.proof with
    | none => []
    | some proof => proofLines proof focused
  | .brief => [app.brief.heading, app.brief.generatedLine, []] ++
      cardsLines app.brief.cards app.brief.empty focused ++ app.brief.belowTheLine.toList ++
      app.brief.unresolvedLine.toList
  | .inbox => [app.inbox.heading, app.inbox.consequence, []] ++
      cardsLines app.inbox.cards app.inbox.empty focused
  | _ => sectionLines app focused

/-- The stop the cursor is on. -/
def FrameState.focused (state : FrameState) : Option Text :=
  (stopsFor state.app)[state.cursor]?.map (·.id)

def composeLines (state : FrameState) : List Text :=
  let focused := state.focused
  state.banner.toList ++ [Copy.appName] ++
    (if state.app.surface ∈ standaloneSurfaces then [] else [navLine state.app.surface focused]) ++
    [rule] ++ noticeLines state.app ++ bodyLines state.app focused

def frameLines (state : FrameState) : List Text := (composeLines state).map escapeLine

def frame (state : FrameState) : Text := (text "\n").intercalate (frameLines state)

end Lines

section Rows

/-- What a line is put together from: what the frame writes itself, what is said, and controls. -/
inductive Piece
  | mark (s : Text)
  | word (s : Text)
  | control (focused : Bool) (label : Text)
  | tab (focused current : Bool) (label : Text)

namespace Piece

def spell : Piece → Text
  | mark s | word s => s
  | control focused label => (if focused then text "> [" else text "  [") ++ label ++ text "]"
  | tab focused current label => (if focused then text ">" else text " ") ++
      if current then text "[" ++ label ++ text "]" else text " " ++ label ++ text " "

/-- What a person reads of a piece. -/
def heard : Piece → List Text
  | mark _ => []
  | word s | control _ s | tab _ _ s => (spoken (some s)).toList

/-- A control, and whether the cursor is on it. -/
def offered : Piece → List (Text × Bool)
  | control focused label | tab focused _ label => [(label, focused)]
  | _ => []

end Piece

abbrev Row := List Piece

def Row.line (row : Row) : Text := row.flatMap Piece.spell

def Row.heard (row : Row) : List Text := row.flatMap Piece.heard

def Row.offered (row : Row) : List (Text × Bool) := row.flatMap Piece.offered

/-- A line that says one thing. -/
abbrev said (s : Text) : Row := [.word s]

def actionRow (actions : List RenderableAction) (focused : Option Text) : Row :=
  [Piece.mark (text " ")].intercalate
    (actions.map fun action ↦ [.control (some action.id = focused) action.label])

def partyPieces (party : PartyView) : Row :=
  [.word party.display, .mark dot, .word party.trust.label]

def sealPieces (seen : SealView) : Row := [.mark (mark seen.shape ++ text " "), .word seen.label]

def withWhomRow (card : CardView) : Row :=
  sealPieces card.mark ++ .mark dot :: match card.withWhom with
    | none => [.word Copy.justYou]
    | some party => partyPieces party

def cardRows (card : CardView) (focused : Option Text) : List Row :=
  [actionRow card.actions focused, [.word card.what], withWhomRow card, [.word card.ifIDoNothing],
    []]

def navRow (current : SurfaceId) (focused : Option Text) : Row :=
  [Piece.mark (text " ")].intercalate
    (Copy.nav.map fun item ↦ [.tab (some item.1.id = focused) (item.1 = current) item.2])

def teamEntryRows (e : TeamEntryView) : List Row :=
  [[.word e.what],
    sealPieces e.mark ++ .mark dot :: [Piece.mark dot].intercalate (e.between.map partyPieces),
    [.word e.ifNothingHappens], [.word e.blocksLine], []]

def teamRows (team : TeamView) : List Row :=
  [[.word team.heading], [.word team.lede], []] ++
    (if team.entries = [] then [[.word team.empty], []] else []) ++
    team.entries.flatMap teamEntryRows ++ [[.word team.note]]

def sourceRows (focused : Option Text) (source : SourceView) : List Row :=
  [actionRow [source.action] focused, [.word source.label], [.word source.status],
    [.word source.lastRead], []]

def rungRow (rung : RungView) : Row :=
  [.mark (text "  "), .word rung.label, .mark dot, .word rung.stateLabel] ++
    match rung.explains with
    | none => []
    | some s => [.mark dot, .word s]

def workClassRows (workClass : WorkClassView) : List Row :=
  [.word workClass.label] :: workClass.rungs.map rungRow ++ [[]]

def integrationsRows (view : IntegrationsView) (focused : Option Text) : List Row :=
  [[.word view.heading], [], [.word view.sourcesHeading], []] ++
    view.sources.flatMap (sourceRows focused) ++
    [[.word view.trustHeading], [.word view.trustLede], []] ++ view.classes.flatMap workClassRows

def stepRows (focused : Option Text) (step : OnboardingStepView) : List Row :=
  (step.action.map fun action ↦ actionRow [action] focused).toList ++
    [[.word step.heading], [.word step.blurb], []]

def onboardingRows (view : OnboardingView) (focused : Option Text) : List Row :=
  let sheet := view.recovery
  [[.word view.heading], [.word view.lede], []] ++ view.steps.flatMap (stepRows focused) ++
    [[.word view.custody], []] ++
    [[.word sheet.heading], actionRow sheet.actions focused, [.word sheet.blurb],
      [.word sheet.wordsHeading]] ++
    sheet.words.map said ++ [[], [.word sheet.later]]

def partyRows (p : ProofPartyView) : List Row :=
  [[.word p.role, .mark dot] ++ partyPieces p.party, [.word (hashText p.key)]]

def dateRow (d : ProofDateView) : Row := [.word d.label, .mark dot, .word (dateText d.value)]

def chainRow (step : ProofStepView) : Row :=
  sealPieces step.mark ++ [.mark dot, .word step.label, .mark dot, .word (dateText step.when),
    .mark dot, .word step.signedBy] ++
    match step.evidence with
    | none => []
    | some _ => [.mark dot, .word Copy.evidence]

def proofRows (view : ProofView) (focused : Option Text) : List Row :=
  [[.word view.heading], [.word view.lede], [.word view.outcome], [],
    [.word view.betweenHeading]] ++
    view.parties.flatMap partyRows ++ [[], [.word view.datesHeading]] ++ view.dates.map dateRow ++
    [[], [.word view.chainHeading]] ++ view.chain.map chainRow ++
    [[], [.word view.fingerprintHeading], [.word (hashText view.fingerprint)],
      [.word view.fingerprintNote]] ++
    [[], [.word view.wordsHeading]] ++ (view.words.map said).toList ++
    [[.word view.wordsNote]] ++
    if view.actions = [] then [] else [actionRow (view.actions.map consentAction) focused]

def cardsRows (cards : List CardView) (empty : Text) (focused : Option Text) : List Row :=
  (if cards = [] then [[.word empty], []] else []) ++ cards.flatMap (cardRows · focused)

def noticeRows (app : AppView) : List Row :=
  (match app.vault with
    | none => []
    | some warning => [[.word warning.heading], [.word warning.reassurance], [.word warning.line],
        [.mark (text "  "), .word warning.command], []]) ++
  (match app.delivery.line with
    | none => []
    | some line => [[.word app.delivery.heading], [.word line]] ++
        ((app.delivery.entries.filter (·.needsYou)).map
          fun e ↦ [Piece.mark (text "  "), .word e.line]) ++ [[]]) ++
  match app.reach.line with
    | none => []
    | some line => [[.word line], []]

def sectionRows (app : AppView) (focused : Option Text) : List Row :=
  match app.ledger.sections.find? fun s ↦ s.id.surface = app.surface with
  | none => []
  | some s => [[.word s.heading], []] ++ cardsRows s.cards s.empty focused

def bodyRows (app : AppView) (focused : Option Text) : List Row :=
  match app.surface with
  | .team => teamRows app.team
  | .trust => integrationsRows app.integrations focused
  | .firstRun => onboardingRows app.onboarding focused
  | .proof => match app.proof with
    | none => []
    | some proof => proofRows proof focused
  | .brief => [[.word app.brief.heading], [.word app.brief.generatedLine], []] ++
      cardsRows app.brief.cards app.brief.empty focused ++
      (app.brief.belowTheLine.map said).toList ++
      (app.brief.unresolvedLine.map said).toList
  | .inbox => [[.word app.inbox.heading], [.word app.inbox.consequence], []] ++
      cardsRows app.inbox.cards app.inbox.empty focused
  | _ => sectionRows app focused

/-- What a frame holds, before it is put in words. -/
def FrameState.rows (state : FrameState) : List Row :=
  (state.banner.map said).toList ++ [[.word Copy.appName]] ++
    (if state.app.surface ∈ standaloneSurfaces then []
      else [navRow state.app.surface state.focused]) ++
    [[.mark rule]] ++ noticeRows state.app ++ bodyRows state.app state.focused

end Rows

section Spelling

theorem flatMap_intercalate {α β : Type} (f : α → List β) (sep : List α) (ls : List (List α)) :
    (sep.intercalate ls).flatMap f = (sep.flatMap f).intercalate (ls.map (·.flatMap f)) := by
  induction ls with
  | nil => rfl
  | cons l ls ih =>
    cases ls with
    | nil => simp
    | cons l' ls =>
      rw [List.intercalate_cons_cons, List.flatMap_append, List.flatMap_append, ih]
      simp [List.intercalate_cons_cons]

@[simp] theorem line_nil : Row.line [] = [] := rfl

@[simp] theorem line_cons (p : Piece) (row : Row) : Row.line (p :: row) = p.spell ++ row.line :=
  List.flatMap_cons

@[simp] theorem line_append (row other : Row) : Row.line (row ++ other) = row.line ++ other.line :=
  List.flatMap_append

@[simp] theorem line_actionRow (actions : List RenderableAction) (focused : Option Text) :
    (actionRow actions focused).line = loneActionsLine actions focused := by
  rw [actionRow, Row.line, flatMap_intercalate, loneActionsLine, List.map_map]
  simp only [List.flatMap_singleton, Piece.spell]
  congr 2
  funext action
  simp [Piece.spell, actionText]

theorem line_navRow (current : SurfaceId) (focused : Option Text) :
    (navRow current focused).line = navLine current focused := by
  rw [navRow, Row.line, flatMap_intercalate, navLine, List.map_map]
  simp only [List.flatMap_singleton, Piece.spell]
  congr 2
  funext item
  simp [Piece.spell, navText]

theorem lines_cardsRows (cards : List CardView) (empty : Text) (focused : Option Text) :
    (cardsRows cards empty focused).map Row.line = cardsLines cards empty focused := by
  have hcard (card : CardView) : (cardRows card focused).map Row.line = cardLines card focused := by
    have hactions : loneActionsLine card.actions focused = actionsLine card focused := rfl
    have hwith : (withWhomRow card).line = withWhomLine card := by
      cases hparty : card.withWhom <;>
        simp [withWhomRow, withWhomLine, hparty, sealPieces, partyPieces, Piece.spell]
    simp [cardRows, cardLines, hactions, hwith, Piece.spell]
  rw [cardsRows, cardsLines, List.map_append, List.map_flatMap]
  simp only [hcard]
  split
  · simp [Piece.spell]
  · rfl

theorem lines_teamRows (team : TeamView) : (teamRows team).map Row.line = teamLines team := by
  have hentry (e : TeamEntryView) : (teamEntryRows e).map Row.line = teamEntryLines e := by
    have hparties : Row.line ([Piece.mark dot].intercalate (e.between.map partyPieces)) =
        dot.intercalate (e.between.map fun p ↦ p.display ++ dot ++ p.trust.label) := by
      rw [Row.line, flatMap_intercalate, List.map_map]
      simp only [List.flatMap_singleton, Piece.spell]
      congr 2
      funext p
      simp [partyPieces, Piece.spell]
    simp [teamEntryRows, teamEntryLines, sealPieces, hparties, Piece.spell]
  simp only [teamRows, teamLines, List.map_append, List.map_flatMap, hentry]
  split
  · simp [Piece.spell]
  · simp [Piece.spell]

theorem lines_integrationsRows (view : IntegrationsView) (focused : Option Text) :
    (integrationsRows view focused).map Row.line = integrationsLines view focused := by
  have hsource (source : SourceView) :
      (sourceRows focused source).map Row.line = sourceLines focused source := by
    simp [sourceRows, sourceLines, Piece.spell]
  have hrung (rung : RungView) : (rungRow rung).line = rungLine rung := by
    cases hexplains : rung.explains <;> simp [rungRow, rungLine, hexplains, Piece.spell]
  have hclass (workClass : WorkClassView) :
      (workClassRows workClass).map Row.line = workClassLines workClass := by
    simp [workClassRows, workClassLines, hrung, Piece.spell]
  simp [integrationsRows, integrationsLines, List.map_flatMap, hsource, hclass, Piece.spell]

@[simp] theorem line_said (s : Text) : Row.line (said s) = s := List.append_nil s

theorem lines_said (words : List Text) : (words.map said).map Row.line = words := by
  rw [List.map_map]
  exact (List.map_congr_left fun s _ ↦ line_said s).trans (List.map_id words)

theorem lines_onboardingRows (view : OnboardingView) (focused : Option Text) :
    (onboardingRows view focused).map Row.line = onboardingLines view focused := by
  have hstep (step : OnboardingStepView) :
      (stepRows focused step).map Row.line = stepLines focused step := by
    cases haction : step.action <;> simp [stepRows, stepLines, haction, Piece.spell]
  simp only [onboardingRows, onboardingLines, List.map_append, List.map_flatMap, hstep, lines_said]
  simp [Piece.spell]

theorem lines_option (line : Option Text) : (line.map said).toList.map Row.line = line.toList := by
  cases line <;> simp [Piece.spell]

theorem lines_proofRows (view : ProofView) (focused : Option Text) :
    (proofRows view focused).map Row.line = proofLines view focused := by
  have hparty (p : ProofPartyView) : (partyRows p).map Row.line = partyLines p := by
    simp [partyRows, partyLines, partyPieces, Piece.spell]
  have hdates : (view.dates.map dateRow).map Row.line = view.dates.map dateLine := by
    rw [List.map_map]
    refine List.map_congr_left fun d _ ↦ ?_
    simp [dateRow, dateLine, Piece.spell]
  have hchain : (view.chain.map chainRow).map Row.line = view.chain.map chainLine := by
    rw [List.map_map]
    refine List.map_congr_left fun step _ ↦ ?_
    cases hevidence : step.evidence <;>
      simp [chainRow, chainLine, sealPieces, hevidence, Piece.spell]
  simp only [proofRows, proofLines, List.map_append, List.map_flatMap, hparty, hdates, hchain,
    lines_option]
  split
  · simp [Piece.spell]
  · simp [Piece.spell]

theorem lines_noticeRows (app : AppView) : (noticeRows app).map Row.line = noticeLines app := by
  have hentries (entries : List DeliveryEntryView) :
      (entries.map fun e ↦ [Piece.mark (text "  "), .word e.line]).map Row.line =
        entries.map fun e ↦ text "  " ++ e.line := by
    rw [List.map_map]
    refine List.map_congr_left fun e _ ↦ ?_
    simp [Piece.spell]
  rw [noticeRows, noticeLines, List.map_append, List.map_append]
  congr 2
  · cases app.vault <;> simp [Piece.spell]
  · cases app.delivery.line with
    | none => rfl
    | some line =>
      simp only [List.map_append, hentries]
      simp [Piece.spell]
  · cases app.reach.line <;> simp [Piece.spell]

theorem lines_sectionRows (app : AppView) (focused : Option Text) :
    (sectionRows app focused).map Row.line = sectionLines app focused := by
  unfold sectionRows sectionLines
  split
  · rfl
  · rw [List.map_append, lines_cardsRows]
    simp [Piece.spell]

theorem lines_bodyRows (app : AppView) (focused : Option Text) :
    (bodyRows app focused).map Row.line = bodyLines app focused := by
  unfold bodyRows bodyLines
  cases app.surface with
  | team => exact lines_teamRows _
  | trust => exact lines_integrationsRows _ _
  | firstRun => exact lines_onboardingRows _ _
  | proof =>
    cases app.proof with
    | none => rfl
    | some proof => exact lines_proofRows _ _
  | brief =>
    simp only [List.map_append, lines_cardsRows, lines_option]
    simp [Piece.spell]
  | inbox =>
    simp only [List.map_append, lines_cardsRows]
    simp [Piece.spell]
  | owe => exact lines_sectionRows _ _
  | waiting => exact lines_sectionRows _ _
  | closed => exact lines_sectionRows _ _

/-- A frame puts in words, line by line, what its rows hold. -/
theorem composeLines_eq (state : FrameState) : composeLines state = state.rows.map Row.line := by
  rw [FrameState.rows, composeLines]
  simp only [List.map_append, lines_option, lines_noticeRows, lines_bodyRows]
  split
  · simp [Piece.spell]
  · simp [line_navRow, Piece.spell]

end Spelling

section Offers

theorem flatMap_separated {α β : Type} (f : α → List β) {sep : List α} (h : sep.flatMap f = [])
    (ls : List (List α)) : (sep.intercalate ls).flatMap f = ls.flatMap (·.flatMap f) := by
  rw [flatMap_intercalate, h]
  induction ls with
  | nil => rfl
  | cons l ls ih =>
    rw [List.map_cons, List.flatMap_cons, ← ih]
    cases ls with
    | nil => simp
    | cons l' ls => rw [List.map_cons, List.intercalate_cons_cons, List.append_nil]

@[simp] theorem offered_nil : Row.offered [] = [] := rfl

@[simp] theorem offered_cons (p : Piece) (row : Row) :
    Row.offered (p :: row) = p.offered ++ row.offered :=
  List.flatMap_cons

@[simp] theorem offered_append (row other : Row) :
    Row.offered (row ++ other) = row.offered ++ other.offered :=
  List.flatMap_append

theorem offered_option (line : Option Text) :
    (line.map said).toList.flatMap Row.offered = [] := by
  cases line <;> simp [Piece.offered]

/-- A stop as it stands in a frame, under the cursor or not. -/
def offer (focused : Option Text) (stop : Stop) : Text × Bool :=
  (stop.label, some stop.id = focused)

variable (focused : Option Text)

theorem offered_actionRow (cardId : Option Text) (actions : List RenderableAction) :
    (actionRow actions focused).offered =
      (actions.map (actionStop cardId)).map (offer focused) := by
  rw [actionRow, Row.offered, flatMap_separated _ rfl, List.flatMap_map, List.map_map,
    List.map_eq_flatMap]
  rfl

theorem offered_navRow (current : SurfaceId) :
    (navRow current focused).offered = (Copy.nav.map surfaceStop).map (offer focused) := by
  rw [navRow, Row.offered, flatMap_separated _ rfl, List.flatMap_map, List.map_map,
    List.map_eq_flatMap]
  rfl

theorem offered_cardsRows (cards : List CardView) (empty : Text) :
    (cardsRows cards empty focused).flatMap Row.offered =
      (cards.flatMap fun card ↦ card.actions.map (actionStop (some card.id))).map
        (offer focused) := by
  have hwith (card : CardView) : (withWhomRow card).offered = [] := by
    cases hparty : card.withWhom <;>
      simp [withWhomRow, hparty, sealPieces, partyPieces, Piece.offered]
  have hcard (card : CardView) : (cardRows card focused).flatMap Row.offered =
      (card.actions.map (actionStop (some card.id))).map (offer focused) := by
    simp [cardRows, hwith, offered_actionRow focused (some card.id), Piece.offered]
  rw [cardsRows, List.flatMap_append, List.flatMap_assoc, List.map_flatMap]
  simp only [hcard]
  split
  · simp [Piece.offered]
  · rfl

theorem offered_teamRows (team : TeamView) : (teamRows team).flatMap Row.offered = [] := by
  have hparties (between : List PartyView) :
      Row.offered ([Piece.mark dot].intercalate (between.map partyPieces)) = [] := by
    rw [Row.offered, flatMap_separated _ rfl]
    simp [partyPieces, Piece.offered]
  have hentry (e : TeamEntryView) : (teamEntryRows e).flatMap Row.offered = [] := by
    simp [teamEntryRows, sealPieces, hparties, Piece.offered]
  unfold teamRows
  split <;> simp [hentry, List.flatMap_assoc, Piece.offered]

theorem offered_integrationsRows (view : IntegrationsView) :
    (integrationsRows view focused).flatMap Row.offered =
      (view.sources.map fun source ↦ actionStop (some source.id) source.action).map
        (offer focused) := by
  have hsource (source : SourceView) : (sourceRows focused source).flatMap Row.offered =
      [offer focused (actionStop (some source.id) source.action)] := by
    simp [sourceRows, offered_actionRow focused (some source.id), Piece.offered]
  have hrung (rung : RungView) : (rungRow rung).offered = [] := by
    cases hexplains : rung.explains <;> simp [rungRow, hexplains, Piece.offered]
  have hclasses : view.classes.flatMap (fun c ↦ (workClassRows c).flatMap Row.offered) = [] := by
    simp [workClassRows, hrung, Piece.offered]
  simp [integrationsRows, List.flatMap_assoc, hsource, hclasses, Piece.offered, List.map_eq_flatMap]

theorem offered_onboardingRows (view : OnboardingView) :
    (onboardingRows view focused).flatMap Row.offered =
      ((view.steps.filterMap (·.action) ++ view.recovery.actions).map (actionStop none)).map
        (offer focused) := by
  have hstep (step : OnboardingStepView) : (stepRows focused step).flatMap Row.offered =
      (step.action.toList.map (actionStop none)).map (offer focused) := by
    cases haction : step.action <;>
      simp [stepRows, haction, offered_actionRow focused none, Piece.offered]
  have hsteps : view.steps.flatMap (fun step ↦ (stepRows focused step).flatMap Row.offered) =
      ((view.steps.filterMap (·.action)).map (actionStop none)).map (offer focused) := by
    simp only [hstep, List.filterMap_eq_flatMap_toList, List.map_flatMap]
  simp [onboardingRows, List.flatMap_assoc, hsteps, offered_actionRow focused none, Piece.offered,
    List.flatMap_map]

theorem offered_proofRows (view : ProofView) : (proofRows view focused).flatMap Row.offered =
    (view.actions.map fun action ↦ actionStop none (consentAction action)).map
      (offer focused) := by
  have hparties : view.parties.flatMap (fun p ↦ (partyRows p).flatMap Row.offered) = [] := by
    simp [partyRows, partyPieces, Piece.offered]
  have hdates : view.dates.flatMap (fun d ↦ (dateRow d).offered) = [] := by
    simp [dateRow, Piece.offered]
  have hstep (step : ProofStepView) : (chainRow step).offered = [] := by
    cases hevidence : step.evidence <;> simp [chainRow, sealPieces, hevidence, Piece.offered]
  have hchain : view.chain.flatMap (fun step ↦ (chainRow step).offered) = [] := by
    simp [hstep]
  have hactions : (if view.actions = [] then [] else
      [actionRow (view.actions.map consentAction) focused]).flatMap Row.offered =
      (view.actions.map fun action ↦ actionStop none (consentAction action)).map
        (offer focused) := by
    split
    · simp_all
    · simp [offered_actionRow focused none]
  rw [proofRows, List.flatMap_append, hactions]
  simp [List.flatMap_assoc, List.flatMap_map, hparties, hdates, hchain,
    offered_option, Piece.offered]

theorem offered_noticeRows (app : AppView) : (noticeRows app).flatMap Row.offered = [] := by
  have hentries (entries : List DeliveryEntryView) :
      (entries.map fun e ↦ [Piece.mark (text "  "), .word e.line]).flatMap Row.offered = [] := by
    simp [List.flatMap_map, Piece.offered]
  rw [noticeRows, List.flatMap_append, List.flatMap_append]
  cases app.vault <;> cases app.delivery.line <;> cases app.reach.line <;>
    simp [hentries, Piece.offered]

theorem offered_bodyRows (app : AppView) : (bodyRows app focused).flatMap Row.offered =
    ((cardsShowing app).flatMap (fun card ↦ card.actions.map (actionStop (some card.id))) ++
      loneStops app).map (offer focused) := by
  have hsection : (sectionRows app focused).flatMap Row.offered =
      ((((app.ledger.sections.find? fun s ↦ s.id.surface = app.surface).map (·.cards)).getD
        []).flatMap fun card ↦ card.actions.map (actionStop (some card.id))).map
        (offer focused) := by
    unfold sectionRows
    cases app.ledger.sections.find? fun s ↦ s.id.surface = app.surface with
    | none => rfl
    | some s => simp [offered_cardsRows, Piece.offered]
  unfold bodyRows cardsShowing loneStops
  cases hsurface : app.surface with
  | brief =>
    simp only [List.flatMap_append, offered_cardsRows, offered_option]
    simp [Piece.offered]
  | inbox =>
    simp only [List.flatMap_append, offered_cardsRows]
    simp [Piece.offered]
  | owe | waiting | closed =>
    rw [hsurface] at hsection
    rw [List.append_nil]
    exact hsection
  | team =>
    dsimp only
    rw [find_surface_eq_none (by intro id; cases id <;> decide), offered_teamRows]
    rfl
  | trust =>
    dsimp only
    rw [find_surface_eq_none (by intro id; cases id <;> decide), offered_integrationsRows]
    rfl
  | proof =>
    dsimp only
    rw [find_surface_eq_none (by intro id; cases id <;> decide)]
    cases app.proof with
    | none => rfl
    | some proof => exact offered_proofRows focused proof
  | firstRun =>
    dsimp only
    rw [find_surface_eq_none (by intro id; cases id <;> decide), offered_onboardingRows]
    rfl

/-- A frame offers the stops in their order, and shows the cursor at those that go by the name of
its own. -/
theorem offered_rows (state : FrameState) :
    state.rows.flatMap Row.offered = (stopsFor state.app).map (offer state.focused) := by
  rw [FrameState.rows, stopsFor, List.append_assoc (ite _ _ _), List.map_append, ← offered_bodyRows]
  simp only [List.flatMap_append, offered_option, offered_noticeRows]
  split
  · simp [Piece.offered]
  · simp [offered_navRow, Piece.offered]

end Offers

section Words

@[simp] theorem heard_nil : Row.heard [] = [] := rfl

@[simp] theorem heard_cons (p : Piece) (row : Row) : Row.heard (p :: row) = p.heard ++ row.heard :=
  List.flatMap_cons

@[simp] theorem heard_append (row other : Row) :
    Row.heard (row ++ other) = row.heard ++ other.heard :=
  List.flatMap_append

variable {tag s : Text} {attrs : Attrs} {content : Option Text} {children : List El}

/-- What an element that is not labelled says is its text. -/
theorem visibleText_plain (hattrs : ∀ a ∈ attrs, a.1 ∈ plainNames ++ buttonNames) :
    visibleText (.mk tag attrs content children) =
      (spoken content).toList ++ children.flatMap visibleText := by
  have hlabel : ariaLabel (.mk tag attrs content children) = none := by
    refine ariaLabel_of_notMem fun a ha ↦ ?_
    rcases List.mem_append.mp (hattrs a ha) with hname | hname
    · exact unlabelled a.1 hname
    · exact (inert_button a.1 hname).2.2.2
  rw [visibleText_mk, hlabel]
  simp [spoken]

theorem visibleText_el (hattrs : ∀ a ∈ attrs, a.1 ∈ plainNames ++ buttonNames) :
    visibleText (el tag attrs children) = children.flatMap visibleText := by
  rw [el, visibleText_plain hattrs]
  rfl

theorem visibleText_textEl (hattrs : ∀ a ∈ attrs, a.1 ∈ plainNames ++ buttonNames) :
    visibleText (textEl tag s attrs) = (spoken (some s)).toList := by
  rw [textEl, visibleText_plain hattrs]
  simp

theorem visibleText_sealEl (shape : SealShape) (label : Text) (relief : Option SealRelief) :
    visibleText (sealEl shape label relief) = (spoken (some label)).toList := by
  have hlabel (cls role : Text) : ariaLabel (.mk (text "span")
      [entry "class" cls, entry "role" role, entry "aria-label" label] none []) = some label := by
    rfl
  unfold sealEl
  rw [el, visibleText_mk, hlabel]
  simp [spoken]

theorem visibleText_partyPairEl (party : PartyView) :
    visibleText (partyPairEl party) = Row.heard (partyPieces party) := by
  simp [partyPairEl, visibleText_el, visibleText_textEl, plainNames, buttonNames, partyPieces,
    Piece.heard]

theorem visibleText_actionEl (describedBy : Option Text) (action : RenderableAction) :
    visibleText (actionEl describedBy action) = (spoken (some action.label)).toList := by
  refine visibleText_textEl ?_
  cases describedBy <;> simp [plainNames, buttonNames]

variable (focused : Option Text)

theorem heard_actionRow (actions : List RenderableAction) (describedBy : Option Text) :
    (actionRow actions focused).heard = visibleText (actionsEl actions describedBy) := by
  rw [actionRow, Row.heard, flatMap_separated _ rfl, List.flatMap_map, actionsEl,
    visibleText_el (by simp [plainNames]), List.flatMap_map]
  simp only [visibleText_actionEl, List.flatMap_singleton, Piece.heard]

theorem heard_sealPieces (seen : SealView) (relief : Option SealRelief) :
    Row.heard (sealPieces seen) = visibleText (sealEl seen.shape seen.label relief) := by
  simp [sealPieces, visibleText_sealEl, Piece.heard]

theorem spoken_appName : (spoken (some Copy.appName)).toList = [Copy.appName] := by decide

theorem heard_navRow (current : SurfaceId) :
    Copy.appName :: (navRow current focused).heard = visibleText (navEl current) := by
  have hitem (item : SurfaceId × Text) :
      visibleText (navItemEl current item) = (spoken (some item.2)).toList :=
    visibleText_textEl (by simp [plainNames, buttonNames])
  have hlabel : ariaLabel (.mk (text "nav") [entry "aria-label" Copy.appName] none
      (Copy.nav.map (navItemEl current))) = some Copy.appName := by
    rfl
  rw [navRow, Row.heard, flatMap_separated _ rfl, List.flatMap_map, navEl, el, visibleText_mk,
    hlabel, spoken_appName, List.flatMap_map]
  simp only [hitem, List.flatMap_singleton, Piece.heard]
  rfl

theorem heard_cardsRows (cards : List CardView) (empty : Text) :
    (cardsRows cards empty focused).flatMap Row.heard = visibleText (cardsEl cards empty) := by
  have hwith (card : CardView) : (withWhomRow card).heard = visibleText (withWhomOf card) := by
    unfold withWhomOf withWhomRow
    cases card.withWhom with
    | none =>
      simp [visibleText_el, visibleText_textEl, visibleText_sealEl, plainNames, buttonNames,
        sealPieces, Piece.heard]
    | some party =>
      simp [visibleText_el, visibleText_sealEl, visibleText_partyPairEl, plainNames, buttonNames,
        sealPieces, Piece.heard]
  have hcard (card : CardView) : (cardRows card focused).flatMap Row.heard =
      visibleText (cardEl card) := by
    simp [cardRows, cardEl, actionsOf, visibleText_el, visibleText_textEl, plainNames, buttonNames,
      hwith, heard_actionRow focused _ (some (whatId card.id)), Piece.heard]
  rw [cardsRows, List.flatMap_append, List.flatMap_assoc, cardsEl]
  simp only [hcard]
  split
  · simp_all [visibleText_textEl, plainNames, Piece.heard]
  · simp [visibleText_el, plainNames, List.flatMap_map]

theorem heard_teamRows (team : TeamView) :
    (teamRows team).flatMap Row.heard = visibleText (teamEl team) := by
  have hparties (between : List PartyView) :
      Row.heard ([Piece.mark dot].intercalate (between.map partyPieces)) =
        between.flatMap fun p ↦ visibleText (partyPairEl p) := by
    rw [Row.heard, flatMap_separated _ rfl, List.flatMap_map]
    simp only [visibleText_partyPairEl]
    rfl
  have hentry (e : TeamEntryView) :
      (teamEntryRows e).flatMap Row.heard = visibleText (teamEntryEl e) := by
    simp [teamEntryRows, teamEntryEl, visibleText_el, visibleText_textEl, visibleText_sealEl,
      plainNames, buttonNames, sealPieces, hparties, List.flatMap_map, Piece.heard]
  unfold teamRows teamEl
  split
  · simp_all [visibleText_el, visibleText_textEl, plainNames, buttonNames, Piece.heard]
  · simp [visibleText_el, visibleText_textEl, plainNames, buttonNames, List.flatMap_assoc, hentry,
      List.flatMap_map, Piece.heard]

theorem heard_integrationsRows (view : IntegrationsView) :
    (integrationsRows view focused).flatMap Row.heard = visibleText (integrationsEl view) := by
  have hsource (source : SourceView) : (sourceRows focused source).flatMap Row.heard =
      visibleText (sourceEl source) := by
    simp [sourceRows, sourceEl, visibleText_el, visibleText_textEl, plainNames, buttonNames,
      heard_actionRow focused _ none, Piece.heard]
  have hrung (rung : RungView) : (rungRow rung).heard = visibleText (rungEl rung) := by
    cases hexplains : rung.explains <;>
      simp [rungRow, rungEl, hexplains, visibleText_el, visibleText_textEl, plainNames, buttonNames,
        Piece.heard]
  have hclass (workClass : WorkClassView) : (workClassRows workClass).flatMap Row.heard =
      visibleText (workClassEl workClass) := by
    simp [workClassRows, workClassEl, visibleText_el, visibleText_textEl, plainNames, buttonNames,
      hrung, List.flatMap_map, Piece.heard]
  simp [integrationsRows, integrationsEl, visibleText_el, visibleText_textEl, plainNames,
    buttonNames, List.flatMap_assoc, hsource, hclass, List.flatMap_map, Piece.heard]

theorem heard_onboardingRows (view : OnboardingView) :
    (onboardingRows view focused).flatMap Row.heard = visibleText (onboardingEl view) := by
  have hstep (step : OnboardingStepView) : (stepRows focused step).flatMap Row.heard =
      visibleText (stepEl step) := by
    cases haction : step.action <;>
      simp [stepRows, stepEl, haction, visibleText_el, visibleText_textEl, plainNames, buttonNames,
        heard_actionRow focused _ none, Piece.heard]
  simp [onboardingRows, onboardingEl, recoveryEl, visibleText_el, visibleText_textEl, plainNames,
    buttonNames, List.flatMap_assoc, hstep, heard_actionRow focused _ none, List.flatMap_map,
    Piece.heard]

theorem heard_lineEl (cls : String) (line : Option Text) :
    (line.map said).toList.flatMap Row.heard = (lineEl cls line).flatMap visibleText := by
  cases line <;>
    simp [lineEl, visibleText_textEl, plainNames, buttonNames, Piece.heard]

theorem heard_proofRows (view : ProofView) :
    (proofRows view focused).flatMap Row.heard = visibleText (proofEl view) := by
  have hparty (p : ProofPartyView) :
      (partyRows p).flatMap Row.heard = visibleText (partyRowEl p) := by
    simp [partyRows, partyRowEl, visibleText_el, visibleText_textEl, visibleText_partyPairEl,
      plainNames, buttonNames, Piece.heard]
  have hdate (d : ProofDateView) : (dateRow d).heard = visibleText (dateRowEl d) := by
    simp [dateRow, dateRowEl, visibleText_el, visibleText_textEl, plainNames, buttonNames,
      Piece.heard]
  have hstep (step : ProofStepView) : (chainRow step).heard = visibleText (chainStepEl step) := by
    cases hevidence : step.evidence <;>
      simp [chainRow, chainStepEl, hevidence, visibleText_el, visibleText_textEl,
        visibleText_sealEl, plainNames, buttonNames, sealPieces, Piece.heard]
  have hactions : (if view.actions = [] then [] else
      [actionRow (view.actions.map consentAction) focused]).flatMap Row.heard =
      (if view.actions = [] then [] else
        [actionsEl (view.actions.map consentAction) none]).flatMap visibleText := by
    split
    · rfl
    · simp [heard_actionRow focused _ none]
  rw [proofRows, List.flatMap_append, hactions, proofEl, visibleText_el (by simp [plainNames]),
    List.flatMap_append]
  simp [visibleText_el, visibleText_textEl, plainNames, buttonNames, List.flatMap_assoc,
    hparty, hdate, hstep, heard_lineEl "what", List.flatMap_map, Piece.heard]

theorem heard_noticeRows (app : AppView) :
    (noticeRows app).flatMap Row.heard = (noticeEls app).flatMap visibleText := by
  have hentries (entries : List DeliveryEntryView) :
      (entries.map fun e ↦ [Piece.mark (text "  "), .word e.line]).flatMap Row.heard =
        (entries.map deliveryEntryEl).flatMap visibleText := by
    simp [deliveryEntryEl, visibleText_textEl, plainNames, buttonNames, List.flatMap_map,
      Piece.heard]
  rw [noticeRows, noticeEls]
  simp only [List.flatMap_append]
  refine congrArg₂ _ (congrArg₂ _ ?_ ?_) ?_
  · cases app.vault <;>
      simp [vaultEl, visibleText_el, visibleText_textEl, plainNames, buttonNames, Piece.heard]
  · cases hline : app.delivery.line <;>
      simp [deliveryEl, hline, visibleText_el, visibleText_textEl, plainNames, buttonNames,
        hentries, Piece.heard]
  · cases hline : app.reach.line <;>
      simp [reachEl, hline, visibleText_textEl, plainNames, buttonNames, Piece.heard]

theorem heard_sectionRows {app : AppView} (h : Apart app) {id : SectionId}
    (hsurface : app.surface = id.surface) :
    (sectionRows app focused).flatMap Row.heard = visibleText (ledgerEl app.ledger (some id)) := by
  have hledger : visibleText (ledgerEl app.ledger (some id)) =
      (app.ledger.sections.find? (·.id = id)).toList.flatMap
        fun s ↦ (sectionEls s).flatMap visibleText := by
    rw [← filter_id_of_nodup h id]
    simp [ledgerEl, visibleText_el, plainNames, buttonNames, List.flatMap_assoc]
  rw [hledger, sectionRows, hsurface]
  simp only [surface_injective.eq_iff]
  cases app.ledger.sections.find? (·.id = id) with
  | none => rfl
  | some s =>
    simp [heard_cardsRows, sectionEls, visibleText_textEl, plainNames, buttonNames, Piece.heard]

theorem heard_bodyRows {app : AppView} (h : Apart app) :
    (bodyRows app focused).flatMap Row.heard = visibleText (bodyEl app) := by
  unfold bodyRows bodyEl
  cases hsurface : app.surface with
  | team => exact heard_teamRows _
  | trust => exact heard_integrationsRows _ _
  | firstRun => exact heard_onboardingRows _ _
  | proof =>
    cases app.proof with
    | none => simp [visibleText_el, plainNames, buttonNames]
    | some proof => exact heard_proofRows _ _
  | brief =>
    simp [briefEl, visibleText_el, visibleText_textEl, plainNames, buttonNames, heard_cardsRows,
      heard_lineEl "below-the-line", Piece.heard]
  | inbox =>
    simp [inboxEl, visibleText_el, visibleText_textEl, plainNames, buttonNames, heard_cardsRows,
      Piece.heard]
  | owe => exact heard_sectionRows focused h hsurface
  | waiting => exact heard_sectionRows focused h hsurface
  | closed => exact heard_sectionRows focused h hsurface

theorem heard_rows {state : FrameState} (h : Apart state.app) :
    state.rows.flatMap Row.heard = (spoken state.banner).toList ++
      (if state.app.surface ∈ standaloneSurfaces then [Copy.appName] else []) ++
      visibleText (appEl state.app) := by
  have hbanner : (state.banner.map said).toList.flatMap Row.heard =
      (spoken state.banner).toList := by
    cases hline : state.banner with
    | none => rfl
    | some s => simp [Piece.heard]
  have hbase : (noticeEls state.app ++ [bodyEl state.app]).flatMap visibleText =
      (noticeRows state.app).flatMap Row.heard ++
        (bodyRows state.app state.focused).flatMap Row.heard := by
    simp [heard_noticeRows, heard_bodyRows state.focused h]
  have hnav : (navEl state.app.surface :: (noticeEls state.app ++ [bodyEl state.app])).flatMap
      visibleText = Copy.appName :: (navRow state.app.surface state.focused).heard ++
        ((noticeRows state.app).flatMap Row.heard ++
          (bodyRows state.app state.focused).flatMap Row.heard) := by
    rw [List.flatMap_cons, hbase, heard_navRow]
  rw [FrameState.rows, appEl, visibleText_el (by simp [plainNames])]
  simp only [List.flatMap_append, hbanner]
  split
  · rw [hbase]
    simp [Piece.heard, spoken_appName]
  · rw [hnav]
    simp [Piece.heard, spoken_appName]

/-- A frame is its rows put in words. It says what the page says, under the banner and the name of
the place, and offers the stops in their order with the cursor where it stands. -/
theorem rows_shown {state : FrameState} (h : Apart state.app) :
    composeLines state = state.rows.map Row.line ∧
      state.rows.flatMap Row.heard = (spoken state.banner).toList ++
        (if state.app.surface ∈ standaloneSurfaces then [Copy.appName] else []) ++
        visibleText (appEl state.app) ∧
      state.rows.flatMap Row.offered = (stopsFor state.app).map (offer state.focused) :=
  ⟨composeLines_eq state, heard_rows h, offered_rows state⟩

/-- The sample, under a banner and with the cursor on its first action. -/
def sampleFrame : FrameState := ⟨sampleApp, 7, some (text "Invented promises")⟩

theorem sample_rows_shown : composeLines sampleFrame = sampleFrame.rows.map Row.line ∧
    sampleFrame.rows.flatMap Row.heard = (spoken sampleFrame.banner).toList ++
      (if sampleFrame.app.surface ∈ standaloneSurfaces then [Copy.appName] else []) ++
      visibleText (appEl sampleFrame.app) ∧
    sampleFrame.rows.flatMap Row.offered =
      (stopsFor sampleFrame.app).map (offer sampleFrame.focused) :=
  rows_shown (show Apart sampleApp by unfold Apart; decide)

end Words

section Breaks

theorem mem_escapeLine {u : CodeUnit} {line : Text} (h : u ∈ escapeLine line) :
    isControl u = false ∧ isBidi u = false := by
  rw [escapeLine, List.mem_filter] at h
  obtain ⟨hmem, hbidi⟩ := h
  obtain ⟨v, -, rfl⟩ := List.mem_map.mp hmem
  refine ⟨?_, by simpa using hbidi⟩
  split
  · decide
  · simpa using ‹¬isControl v = true›

theorem escapeLine_append (line other : Text) :
    escapeLine (line ++ other) = escapeLine line ++ escapeLine other := by
  simp [escapeLine]

theorem escapeLine_line (row : Row) :
    escapeLine row.line = row.flatMap fun p ↦ escapeLine p.spell := by
  induction row with
  | nil => rfl
  | cons p row ih => rw [line_cons, escapeLine_append, ih, List.flatMap_cons]

/-- Whatever is said, a frame breaks into one line for each of its rows, spelt piece by piece, and
nothing in a line steers the terminal. -/
theorem lines_frame (state : FrameState) :
    (frame state).splitOn (unit '\n') =
        state.rows.map (fun row ↦ row.flatMap fun p ↦ escapeLine p.spell) ∧
      ∀ line ∈ (frame state).splitOn (unit '\n'), ∀ u ∈ line,
        isControl u = false ∧ isBidi u = false := by
  have hlines : frameLines state =
      state.rows.map (fun row ↦ row.flatMap fun p ↦ escapeLine p.spell) := by
    rw [frameLines, composeLines_eq, List.map_map]
    exact List.map_congr_left fun row _ ↦ escapeLine_line row
  have hplain : ∀ line ∈ frameLines state, ∀ u ∈ line, isControl u = false ∧ isBidi u = false := by
    intro line hline u hu
    obtain ⟨plain, -, rfl⟩ := List.mem_map.mp hline
    exact mem_escapeLine hu
  have hbreak : ∀ line ∈ frameLines state, unit '\n' ∉ line := by
    intro line hline hmem
    have hcontrol : isControl (unit '\n') = true := by decide
    rw [(hplain line hline _ hmem).1] at hcontrol
    cases hcontrol
  have hne : frameLines state ≠ [] := by
    rw [hlines, FrameState.rows]
    simp
  have hsplit : (frame state).splitOn (unit '\n') = frameLines state :=
    List.splitOn_intercalate (unit '\n') hbreak hne
  rw [hsplit]
  exact ⟨hlines, hplain⟩

end Breaks

end Servanda.Frame
