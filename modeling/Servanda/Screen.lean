import Servanda.Keyboard
import Servanda.ProofPage

/-!
The one surface as a page: what is shown of a register, as a tree of elements.
-/

namespace Servanda.Screen

open Unicode Scan Element View ProofPage Keyboard

section Views

/-- The views of the one surface, and the two that stand outside it. -/
inductive SurfaceId
  | brief | owe | waiting | closed | inbox | team | trust | proof | firstRun
  deriving DecidableEq, Repr

def SurfaceId.id : SurfaceId → Text
  | .brief => text "brief"
  | .owe => text "owe"
  | .waiting => text "waiting"
  | .closed => text "closed"
  | .inbox => text "inbox"
  | .team => text "team"
  | .trust => text "trust"
  | .proof => text "proof"
  | .firstRun => text "first-run"

def standaloneSurfaces : List SurfaceId := [.proof, .firstRun]

/-- What a button needs of an action. -/
structure RenderableAction where
  id : Text
  label : Text
  primary : Bool

inductive ConsequenceTone
  | plain | passed | settled
  deriving DecidableEq, Repr

structure CardView where
  id : Text
  what : Text
  withWhom : Option PartyView
  ifIDoNothing : Text
  tone : ConsequenceTone
  mark : SealView
  actions : List RenderableAction

inductive SectionId
  | owe | waiting | closed
  deriving DecidableEq, Repr

def SectionId.surface : SectionId → SurfaceId
  | .owe => .owe
  | .waiting => .waiting
  | .closed => .closed

structure SectionView where
  id : SectionId
  heading : Text
  empty : Text
  cards : List CardView

structure BriefView where
  heading : Text
  generatedLine : Text
  empty : Text
  cards : List CardView
  belowTheLine : Option Text
  unresolvedLine : Option Text

structure LedgerView where
  sections : List SectionView

structure InboxView where
  heading : Text
  empty : Text
  consequence : Text
  cards : List CardView

structure TeamEntryView where
  id : Text
  what : Text
  between : List PartyView
  ifNothingHappens : Text
  tone : ConsequenceTone
  mark : SealView
  blocksLine : Text

structure TeamView where
  heading : Text
  lede : Text
  empty : Text
  note : Text
  entries : List TeamEntryView

structure SourceView where
  id : Text
  label : Text
  status : Text
  lastRead : Text
  action : RenderableAction

inductive RungState
  | earned | standing | locked | closed
  deriving DecidableEq, Repr

structure RungView where
  label : Text
  state : RungState
  stateLabel : Text
  explains : Option Text

structure WorkClassView where
  label : Text
  rungs : List RungView

structure IntegrationsView where
  heading : Text
  sourcesHeading : Text
  sources : List SourceView
  trustHeading : Text
  trustLede : Text
  classes : List WorkClassView

structure OnboardingStepView where
  heading : Text
  blurb : Text
  done : Bool
  current : Bool
  action : Option RenderableAction

structure RecoverySheetView where
  heading : Text
  blurb : Text
  wordsHeading : Text
  words : List Text
  later : Text
  actions : List RenderableAction

structure OnboardingView where
  heading : Text
  lede : Text
  steps : List OnboardingStepView
  custody : Text
  recovery : RecoverySheetView

structure ReachView where
  complete : Bool
  line : Option Text

/-- What is said of a vault that is weaker than one made today. -/
structure VaultWarning where
  heading : Text
  reassurance : Text
  line : Text
  command : Text

/-- A view that is not weak says nothing. -/
abbrev VaultStrengthView := Option VaultWarning

inductive DeliveryState
  | queued | unroutable | sent | acknowledged
  deriving DecidableEq, Repr

structure DeliveryEntryView where
  id : Text
  state : DeliveryState
  line : Text
  needsYou : Bool

structure DeliveryView where
  heading : Text
  entries : List DeliveryEntryView
  line : Option Text

structure AppView where
  surface : SurfaceId
  reach : ReachView
  vault : VaultStrengthView
  delivery : DeliveryView
  brief : BriefView
  ledger : LedgerView
  inbox : InboxView
  team : TeamView
  integrations : IntegrationsView
  onboarding : OnboardingView
  proof : Option ProofView

end Views

namespace Copy

def appName : Text := text "Servanda"
def justYou : Text := text "Just you"
def evidence : Text := text "Evidence attached"

def nav : List (SurfaceId × Text) :=
  [(.brief, text "Today"), (.owe, text "You owe"), (.waiting, text "You are waiting"),
    (.closed, text "Closed"), (.inbox, text "To confirm"), (.team, text "Standup"),
    (.trust, text "Sources and trust")]

end Copy

section Names

def shapeName : SealShape → Text
  | .unsealed => text "unsealed"
  | .half => text "half"
  | .joined => text "joined"
  | .marked => text "marked"
  | .cracked => text "cracked"
  | .arrow => text "arrow"

def reliefName : SealRelief → Text
  | .flat => text "flat"
  | .continuity => text "continuity"
  | .attested => text "attested"
  | .domain => text "domain"
  | .external => text "external"

def levelName : VerificationLevel → Text
  | .zero => text "0"
  | .one => text "1"
  | .two => text "2"
  | .three => text "3"
  | .ext => text "ext"

def toneName : ConsequenceTone → Text
  | .plain => text "plain"
  | .passed => text "passed"
  | .settled => text "settled"

def rungStateName : RungState → Text
  | .earned => text "earned"
  | .standing => text "standing"
  | .locked => text "locked"
  | .closed => text "closed"

def deliveryStateName : DeliveryState → Text
  | .queued => text "queued"
  | .unroutable => text "unroutable"
  | .sent => text "sent"
  | .acknowledged => text "acknowledged"

end Names

section Elements

/-- An attribute with a text. -/
def entry (name : String) (value : Text) : Text × AttrValue := (text name, .str value)

def actionEl (describedBy : Option Text) (action : RenderableAction) : El :=
  textEl (text "button") action.label <|
    [entry "type" (text "button"),
      entry "class" (text (if action.primary then "action action-primary" else "action")),
      entry "data-action" action.id] ++
    (describedBy.map (entry "aria-describedby")).toList

def actionsEl (actions : List RenderableAction) (describedBy : Option Text) : El :=
  el (text "div") [entry "class" (text "card-actions")] (actions.map (actionEl describedBy))

def whatId (cardId : Text) : Text := text "what-" ++ cardId

def actionsOf (card : CardView) : El := actionsEl card.actions (some (whatId card.id))

def partyPairEl (party : PartyView) : El :=
  el (text "span") [entry "class" (text "party-pair")]
    [textEl (text "bdi") party.display
        [entry "class" (text (if party.isKey then "party party-key" else "party"))],
      textEl (text "span") party.trust.label
        [entry "class" (text "trust relief-" ++ reliefName party.trust.relief),
          entry "data-level" (levelName party.trust.level)]]

def sealEl (shape : SealShape) (label : Text) (relief : Option SealRelief) : El :=
  let relieved := match relief with
    | none => []
    | some relief => text " relief-" ++ reliefName relief
  el (text "span")
    [entry "class" (text "seal seal-" ++ shapeName shape ++ relieved), entry "role" (text "img"),
      entry "aria-label" label] []

def withWhomOf (card : CardView) : El :=
  match card.withWhom with
  | none =>
    el (text "p") [entry "class" (text "with")]
      [sealEl card.mark.shape card.mark.label none,
        textEl (text "span") Copy.justYou [entry "class" (text "party party-self")]]
  | some party =>
    el (text "p") [entry "class" (text "with")]
      [sealEl card.mark.shape card.mark.label (some party.trust.relief), partyPairEl party]

def cardEl (card : CardView) : El :=
  el (text "li")
    [entry "class" (text "card"), entry "data-card" card.id, entry "aria-labelledby" (whatId card.id)]
    [actionsOf card,
      textEl (text "p") card.what [entry "class" (text "what"), entry "id" (whatId card.id)],
      withWhomOf card,
      textEl (text "p") card.ifIDoNothing
        [entry "class" (text "consequence tone-" ++ toneName card.tone)]]

def cardsEl (cards : List CardView) (empty : Text) : El :=
  if cards = [] then textEl (text "p") empty [entry "class" (text "empty")]
  else el (text "ul") [entry "class" (text "cards")] (cards.map cardEl)

def navItemEl (current : SurfaceId) (item : SurfaceId × Text) : El :=
  textEl (text "button") item.2
    [entry "type" (text "button"),
      entry "class" (text (if item.1 = current then "nav-item nav-current" else "nav-item")),
      entry "data-surface" item.1.id,
      (text "aria-current", if item.1 = current then .str (text "page") else .bool false)]

def navEl (current : SurfaceId) : El :=
  el (text "nav") [entry "aria-label" Copy.appName] (Copy.nav.map (navItemEl current))

/-- A paragraph that is there if there is something to say. -/
def lineEl (cls : String) (line : Option Text) : List El :=
  (line.map fun s ↦ textEl (text "p") s [entry "class" (text cls)]).toList

def briefEl (brief : BriefView) : El :=
  el (text "section")
    [entry "aria-labelledby" (text "brief-heading"), entry "class" (text "surface")] <|
    [textEl (text "h1") brief.heading [entry "id" (text "brief-heading")],
      textEl (text "p") brief.generatedLine [entry "class" (text "generated")],
      cardsEl brief.cards brief.empty] ++
    lineEl "below-the-line" brief.belowTheLine ++ lineEl "below-the-line" brief.unresolvedLine

def sectionEls (s : SectionView) : List El :=
  [textEl (text "h2") s.heading [entry "id" (text "section-" ++ s.id.surface.id)],
    cardsEl s.cards s.empty]

def ledgerEl (ledger : LedgerView) (only : Option SectionId) : El :=
  let sections := ledger.sections.filter fun s ↦ only = none ∨ some s.id = only
  el (text "section") [entry "class" (text "surface")] (sections.flatMap sectionEls)

def inboxEl (inbox : InboxView) : El :=
  el (text "section")
    [entry "aria-labelledby" (text "inbox-heading"), entry "class" (text "surface")]
    [textEl (text "h1") inbox.heading [entry "id" (text "inbox-heading")],
      textEl (text "p") inbox.consequence [entry "class" (text "generated")],
      cardsEl inbox.cards inbox.empty]

def teamEntryEl (e : TeamEntryView) : El :=
  el (text "li") [entry "class" (text "card"), entry "data-card" e.id]
    [textEl (text "p") e.what [entry "class" (text "what")],
      el (text "p") [entry "class" (text "with")]
        (sealEl e.mark.shape e.mark.label none :: e.between.map partyPairEl),
      textEl (text "p") e.ifNothingHappens
        [entry "class" (text "consequence tone-" ++ toneName e.tone)],
      textEl (text "p") e.blocksLine [entry "class" (text "blocks")]]

def teamEl (team : TeamView) : El :=
  el (text "section")
    [entry "aria-labelledby" (text "team-heading"), entry "class" (text "surface")]
    [textEl (text "h1") team.heading [entry "id" (text "team-heading")],
      textEl (text "p") team.lede [entry "class" (text "generated")],
      if team.entries = [] then textEl (text "p") team.empty [entry "class" (text "empty")]
      else el (text "ul") [entry "class" (text "cards")] (team.entries.map teamEntryEl),
      textEl (text "p") team.note [entry "class" (text "below-the-line")]]

/-- The texts of a certificate's keys, hashes and dates. -/
def hashText (h : Sha256Hex) : Text := (hexId h).val

def dateText (t : Rfc3339) : Text := units t.text

def consentAction (action : ConsentAction) : RenderableAction :=
  ⟨action.id, action.label, action.primary⟩

def partyRowEl (p : ProofPartyView) : El :=
  el (text "li") [entry "class" (text "party-row")]
    [textEl (text "span") p.role [entry "class" (text "party-role")], partyPairEl p.party,
      textEl (text "span") (hashText p.key) [entry "class" (text "hash")]]

def dateRowEl (d : ProofDateView) : El :=
  el (text "li") [entry "class" (text "date-row")]
    [textEl (text "span") d.label [entry "class" (text "date-label")],
      textEl (text "span") (dateText d.value) [entry "class" (text "hash")]]

def chainStepEl (step : ProofStepView) : El :=
  el (text "li") [entry "class" (text "chain-step")] <|
    [sealEl step.mark.shape step.mark.label none,
      textEl (text "span") step.label [entry "class" (text "chain-label")],
      textEl (text "span") (dateText step.when) [entry "class" (text "hash")],
      textEl (text "span") step.signedBy [entry "class" (text "hash")]] ++
    (step.evidence.map fun _ ↦
      textEl (text "span") Copy.evidence [entry "class" (text "chain-evidence")]).toList

def proofEl (view : ProofView) : El :=
  el (text "section")
    [entry "aria-labelledby" (text "proof-heading"), entry "class" (text "surface proof")] <|
    [textEl (text "h1") view.heading [entry "id" (text "proof-heading")],
      textEl (text "p") view.lede [entry "class" (text "generated")],
      textEl (text "p") view.outcome [entry "class" (text "outcome")],
      textEl (text "h2") view.betweenHeading [entry "id" (text "proof-between")],
      el (text "ul") [entry "class" (text "parties")] (view.parties.map partyRowEl),
      textEl (text "h2") view.datesHeading [entry "id" (text "proof-dates")],
      el (text "ul") [entry "class" (text "dates")] (view.dates.map dateRowEl),
      textEl (text "h2") view.chainHeading [entry "id" (text "proof-chain")],
      el (text "ol") [entry "class" (text "chain")] (view.chain.map chainStepEl),
      textEl (text "h2") view.fingerprintHeading [entry "id" (text "proof-fingerprint")],
      textEl (text "p") (hashText view.fingerprint) [entry "class" (text "hash fingerprint")],
      textEl (text "p") view.fingerprintNote [entry "class" (text "below-the-line")],
      textEl (text "h2") view.wordsHeading [entry "id" (text "proof-words")]] ++
    lineEl "what" view.words ++
    [textEl (text "p") view.wordsNote [entry "class" (text "below-the-line")]] ++
    if view.actions = [] then [] else [actionsEl (view.actions.map consentAction) none]

def stepEl (step : OnboardingStepView) : El :=
  el (text "li")
    [entry "class" (text (if step.current then "step step-current" else
      if step.done then "step step-done" else "step"))] <|
    (step.action.map fun action ↦ actionsEl [action] none).toList ++
    [textEl (text "h2") step.heading [],
      textEl (text "p") step.blurb [entry "class" (text "consequence")]]

def recoveryEl (sheet : RecoverySheetView) : El :=
  el (text "section")
    [entry "aria-labelledby" (text "recovery-heading"), entry "class" (text "recovery")]
    [textEl (text "h2") sheet.heading [entry "id" (text "recovery-heading")],
      actionsEl sheet.actions none,
      textEl (text "p") sheet.blurb [entry "class" (text "consequence")],
      textEl (text "p") sheet.wordsHeading [entry "class" (text "date-label")],
      el (text "ol") [entry "class" (text "recovery-words")]
        (sheet.words.map fun word ↦ textEl (text "li") word [entry "class" (text "hash")]),
      textEl (text "p") sheet.later [entry "class" (text "below-the-line")]]

def onboardingEl (view : OnboardingView) : El :=
  el (text "section")
    [entry "aria-labelledby" (text "first-run-heading"), entry "class" (text "surface")]
    [textEl (text "h1") view.heading [entry "id" (text "first-run-heading")],
      textEl (text "p") view.lede [entry "class" (text "generated")],
      el (text "ol") [entry "class" (text "steps")] (view.steps.map stepEl),
      textEl (text "p") view.custody [entry "class" (text "below-the-line")],
      recoveryEl view.recovery]

def rungEl (rung : RungView) : El :=
  el (text "li") [entry "class" (text "rung rung-" ++ rungStateName rung.state)] <|
    [textEl (text "span") rung.label [entry "class" (text "rung-label")],
      textEl (text "span") rung.stateLabel [entry "class" (text "rung-state")]] ++
    (rung.explains.map fun s ↦
      textEl (text "span") s [entry "class" (text "rung-explains")]).toList

def workClassEl (workClass : WorkClassView) : El :=
  el (text "li") [entry "class" (text "work-class")]
    [textEl (text "h3") workClass.label [],
      el (text "ul") [entry "class" (text "rungs")] (workClass.rungs.map rungEl)]

def sourceEl (source : SourceView) : El :=
  el (text "li") [entry "class" (text "card"), entry "data-card" source.id]
    [actionsEl [source.action] none,
      textEl (text "p") source.label [entry "class" (text "what")],
      textEl (text "p") source.status [entry "class" (text "consequence")],
      textEl (text "p") source.lastRead [entry "class" (text "below-the-line")]]

def integrationsEl (view : IntegrationsView) : El :=
  el (text "section")
    [entry "aria-labelledby" (text "trust-heading"), entry "class" (text "surface")]
    [textEl (text "h1") view.heading [entry "id" (text "trust-heading")],
      textEl (text "h2") view.sourcesHeading [entry "id" (text "sources-heading")],
      el (text "ul") [entry "class" (text "cards")] (view.sources.map sourceEl),
      textEl (text "h2") view.trustHeading [entry "id" (text "trust-gradient-heading")],
      textEl (text "p") view.trustLede [entry "class" (text "generated")],
      el (text "ul") [entry "class" (text "classes")] (view.classes.map workClassEl)]

def bodyEl (app : AppView) : El :=
  match app.surface with
  | .brief => briefEl app.brief
  | .inbox => inboxEl app.inbox
  | .team => teamEl app.team
  | .trust => integrationsEl app.integrations
  | .firstRun => onboardingEl app.onboarding
  | .proof => match app.proof with
    | none => el (text "section") [entry "class" (text "surface")] []
    | some proof => proofEl proof
  | .owe => ledgerEl app.ledger (some .owe)
  | .waiting => ledgerEl app.ledger (some .waiting)
  | .closed => ledgerEl app.ledger (some .closed)

def reachEl (reach : ReachView) : Option El :=
  reach.line.map fun line ↦ textEl (text "p") line
    [entry "class" (text (if reach.complete then "reach" else "reach reach--short")),
      entry "role" (text "status")]

def vaultEl (vault : VaultStrengthView) : Option El :=
  vault.map fun warning ↦
    el (text "aside") [entry "class" (text "notice notice--vault"), entry "role" (text "status")]
      [textEl (text "h2") warning.heading [entry "class" (text "notice-heading")],
        textEl (text "p") warning.reassurance [entry "class" (text "notice-reassurance")],
        textEl (text "p") warning.line [entry "class" (text "notice-body")],
        textEl (text "code") warning.command [entry "class" (text "notice-command")]]

def deliveryEntryEl (e : DeliveryEntryView) : El :=
  textEl (text "li") e.line
    [entry "class" (text "delivery delivery--" ++ deliveryStateName e.state), entry "data-out" e.id]

def deliveryEl (delivery : DeliveryView) : Option El :=
  delivery.line.map fun line ↦
    el (text "aside") [entry "class" (text "notice notice--delivery"), entry "role" (text "status")]
      [textEl (text "h2") delivery.heading [entry "class" (text "notice-heading")],
        textEl (text "p") line [entry "class" (text "notice-body")],
        el (text "ul") [entry "class" (text "notice-list")]
          ((delivery.entries.filter (·.needsYou)).map deliveryEntryEl)]

def noticeEls (app : AppView) : List El :=
  (vaultEl app.vault).toList ++ (deliveryEl app.delivery).toList ++ (reachEl app.reach).toList

def appEl (app : AppView) : El :=
  let base := noticeEls app ++ [bodyEl app]
  el (text "main") [entry "id" (text "servanda"), entry "class" (text "servanda")] <|
    if app.surface ∈ standaloneSurfaces then base else navEl app.surface :: base

end Elements

end Servanda.Screen
