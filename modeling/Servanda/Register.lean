import Servanda.Inbox
import Servanda.Node

namespace Servanda

open Calendar

inductive ViewerRole
  | owner | owedTo | nonParty
  deriving DecidableEq, Repr

inductive ActionArgs
  | none
  | confirm (id : Sha256Hex) (decision : ConfirmDecision)
  | act (id : Sha256Hex) (act : Act)
  deriving DecidableEq

structure ItemAction where
  act : Act
  tool : Option ActTool
  args : ActionArgs
  deriving DecidableEq

def ItemAction.bound (act : Act) (args : ActionArgs) : ItemAction := ⟨act, act.tool, args⟩

open ItemAction (bound) in
/-- The affordances a node advertises for an edge to one viewer. -/
def actionsFor (state : EffectiveState) (role : ViewerRole) (edgeId : Sha256Hex)
    (windowElapsed disputeWindowElapsed dueElapsed : Bool) : List ItemAction :=
  if role = .nonParty then []
  else match state with
    | .proposed =>
      if role = .owner then [bound .ping .none]
      else
        [bound .confirm (.confirm edgeId .confirm), bound .dismiss (.confirm edgeId .dismiss)]
    | .opened =>
      let expire := if dueElapsed then [bound .expire (.act edgeId .expire)] else []
      if role = .owner then
        [bound .done (.act edgeId .done)] ++ expire ++
          [bound .supersede .none, bound .delegate .none]
      else
        [bound .release (.act edgeId .release)] ++ expire ++
          [bound .ping .none, bound .supersede .none]
    | .pendingAcceptance =>
      if role = .owedTo then [bound .supersede .none]
      else if windowElapsed then
        [bound .done (.act edgeId .done), bound .supersede .none, bound .delegate .none]
      else [bound .supersede .none, bound .delegate .none]
    | .disputed | .contestedClosure =>
      if disputeWindowElapsed then [bound .expire (.act edgeId .expire), bound .supersede .none]
      else [bound .supersede .none]
    | _ => []

def primaryActionOf (actions : List ItemAction) : Option ItemAction :=
  actions.find? fun a ↦ a.tool.isSome

/-- What ranks an item, and nothing of what it says. -/
structure OrderingKey where
  persona : PublicKeyHex
  kind : OrderingKind
  id : Sha256Hex
  since : Rfc3339
  due : Option Rfc3339
  blockingCount : ℕ
  deriving DecidableEq

structure Rank where
  band : ℕ
  weight : ℚ
  score : ℚ

def bandUndated : ℕ := 0

def bandDueSoon : ℕ := 1

def bandOverdue : ℕ := 2

def dueSoonHorizonDays : ℚ := 14

def bandStride : ℚ := 1000000000

/-- A weight clamped so that it does not spill into the next band. -/
def band (b : ℕ) (weight : ℚ) : Rank :=
  let clamped := min (max weight 0) (bandStride - 1)
  ⟨b, clamped, binary64 (b * bandStride + clamped)⟩

def daysBetween (start finish : Rfc3339) : ℚ :=
  binary64 (((Date.parse finish - Date.parse start : ℤ) : ℚ) / 86400000)

def ageDays (since now : Rfc3339) : ℚ := max 0 (daysBetween since now)

def rank (key : OrderingKey) (now : Rfc3339) : Rank :=
  let ageWeight := binary64 (ageDays key.since now * (1 + key.blockingCount))
  match key.due with
  | none => band bandUndated ageWeight
  | some due =>
    let daysToDue := daysBetween now due
    if daysToDue < 0 then band bandOverdue (binary64 (-daysToDue * (1 + key.blockingCount)))
    else if daysToDue ≤ dueSoonHorizonDays then
      band bandDueSoon
        (binary64 (binary64 (dueSoonHorizonDays - daysToDue) * (1 + key.blockingCount)))
    else band bandUndated ageWeight

inductive OpenLoopsView
  | owe | waiting | closed | pending | all
  deriving DecidableEq, Repr

inductive ItemKind
  | commitment | expectation | edge
  deriving DecidableEq, Repr

inductive ItemState
  | vaultLocal
  | edge (state : EffectiveState)
  | expectation (state : ExpectationState)
  deriving DecidableEq, Repr

inductive NameOrigin
  | attested | selfLabelled
  deriving DecidableEq, Repr

structure OpenLoopItem where
  kind : ItemKind
  id : Sha256Hex
  intentOrExpect : String
  counterparty : Option (Counterparty × NameOrigin)
  verificationLevel : VerificationLevel
  ageDays : ℚ
  due : Option Rfc3339
  state : ItemState
  actions : List ItemAction
  deriving DecidableEq

structure BriefSlot where
  headline : String
  itemId : Sha256Hex
  primaryAction : Option ItemAction
  persona : PublicKeyHex
  deriving DecidableEq

structure BriefOutput where
  generatedAt : Rfc3339
  slots : List BriefSlot
  belowTheLineCount : ℕ

structure PairwiseHistory where
  closed : ℕ := 0
  released : ℕ := 0
  expired : ℕ := 0
  disputed : ℕ := 0
  opened : ℕ := 0
  deriving DecidableEq, Repr

def PairwiseHistory.count (h : PairwiseHistory) : EffectiveState → PairwiseHistory
  | .closed => { h with closed := h.closed + 1 }
  | .released => { h with released := h.released + 1 }
  | .expired => { h with expired := h.expired + 1 }
  | .disputed => { h with disputed := h.disputed + 1 }
  | .opened | .pendingAcceptance => { h with opened := h.opened + 1 }
  | _ => h

def plaintextDeleted : String := "(the words were deleted after the keeping period)"

def plaintextNeverHeld : String := "(the words stayed with the person who wrote them)"

def noLocalPlaintext : String := "(no local plaintext for this commitment)"

def isWhitespace (c : Char) : Bool :=
  [0x09, 0x0A, 0x0B, 0x0C, 0x0D, 0x20, 0xA0, 0x1680, 0x2028, 0x2029, 0x202F, 0x205F, 0x3000,
    0xFEFF].contains c.toNat || decide (0x2000 ≤ c.toNat ∧ c.toNat ≤ 0x200A)

/-- A counterparty's name, with the origin this node can vouch for. -/
def counterpartyOf : Option Counterparty → Option (Counterparty × NameOrigin)
  | none => none
  | some (.persona key) => some (.persona key, .selfLabelled)
  | some (.label text) =>
    if text.toList.all isWhitespace then none else some (.label text, .selfLabelled)

def dueElapsed (edge : Edge) (now : Rfc3339) : Bool :=
  edge.due.any fun due ↦ decide (Date.parse due ≤ Date.parse now)

namespace Subtree

def listOrderingKeys (persona : PublicKeyHex) (s : Subtree) : List OrderingKey :=
  s.commitments.values.map (fun c ↦
    ⟨persona, .commitment, c.1, c.2.createdAt, c.2.due, c.2.conditions.length⟩) ++
  s.edges.values.map (fun edge ↦
    ⟨persona, .edge, edge.edgeId, edge.proposedAt, edge.due, edge.blockedBy.length⟩) ++
  s.expectations.values.map fun e ↦ ⟨persona, .expectation, e.1, e.2.since, none, 0⟩

def carried (s : Subtree) (commitmentHash : Sha256Hex) : Bool :=
  s.edges.values.any fun edge ↦ edge.commitmentHash = commitmentHash

def missingPlaintext (s : Subtree) (edgeId : Sha256Hex) : String :=
  if (s.getEdgeMeta edgeId).plaintextDeletedAt.isNone then plaintextNeverHeld else plaintextDeleted

end Subtree

namespace ServandaNode

open Transitions Serve

def liveStates : List EffectiveState :=
  [.opened, .pendingAcceptance, .proposed, .disputed, .contestedClosure]

def edgeInView (view : OpenLoopsView) (isOwner : Bool) (state : EffectiveState) : Bool :=
  match view with
  | .owe => isOwner && liveStates.contains state
  | .waiting => !isOwner && liveStates.contains state
  | .closed => !liveStates.contains state
  | .pending => state == .proposed && !isOwner
  | .all => true

variable (crypto : Crypto) (now : Rfc3339) (node : ServandaNode)

/-- Has the acceptance window run out, counted from the first `closed` by the owner's key? -/
def acceptanceWindowElapsed (persona : PublicKeyHex) (edge : Edge) (now : Rfc3339) : Bool :=
  edge.closurePolicy == .onAcceptance && edge.acceptanceWindow.any fun window ↦
    let chain := (node.vault persona).getAssertions edge.edgeId
    (chain.find? fun a ↦ a.state == .closed && a.signer == edge.owner).any fun openedAt ↦
      reaches (Date.parse now) (addDuration (Date.parse openedAt.assertedAt) window)

def disputeWindowElapsed (verified : ChainVerification) (now : Rfc3339) : Bool :=
  verified.deadlockedSince.any fun since ↦
    reaches (Date.parse now) (addDuration (Date.parse since) disputeWindow)

/-- The acts advertised for an edge a persona holds, as of an instant. -/
def edgeActions (persona : PublicKeyHex) (edge : Edge) (asOf : Rfc3339) : List ItemAction :=
  let verified := node.edgeState crypto persona edge
  actionsFor verified.finalState (if edge.owner = persona then .owner else .owedTo) edge.edgeId
    (node.acceptanceWindowElapsed persona edge asOf) (disputeWindowElapsed verified asOf)
    (dueElapsed edge asOf)

def verificationLevel (persona : PublicKeyHex) : Option Counterparty → VerificationLevel
  | some (.persona counterparty) =>
    let s := node.vault persona
    let attested := (s.attestations counterparty).bind fun attestation ↦
      let revoked := (s.revocations counterparty).any fun r ↦
        decide (Date.parse r.revokedAt ≤ Date.parse now)
      let expired := decide (Date.parse attestation.expiresAt < Date.parse now)
      if revoked || expired then none
      else if s.domainAnchors attestation.org then some .three else some .two
    let lineage := partyLineage crypto s
    let sameParty (key : PublicKeyHex) : Bool :=
      key == counterparty || (lineage key).any fun k ↦ k.key == counterparty
    let known := s.edges.values.any fun edge ↦
      (sameParty edge.owner || sameParty edge.owedTo) &&
        !([.none, .proposed].contains (node.edgeState crypto persona edge).finalState)
    attested.getD (if known then .one else .zero)
  | _ => .zero

def localPairwiseHistory (persona counterparty : PublicKeyHex) : Option PairwiseHistory :=
  (node.vault persona).edges.values.foldlM (fun counts edge ↦
    if !isParty edge persona then none
    else if !isParty edge counterparty then some counts
    else some (counts.count (node.edgeState crypto persona edge).finalState)) {}

def edgeItem (persona : PublicKeyHex) (view : OpenLoopsView) (asOf : Rfc3339) (edge : Edge) :
    Option OpenLoopItem :=
  let s := node.vault persona
  let state := (node.edgeState crypto persona edge).finalState
  let isOwner := edge.owner == persona
  let counterparty := some (.persona (if isOwner then edge.owedTo else edge.owner))
  if (s.getEdgeMeta edge.edgeId).dismissed then none
  else if !edgeInView view isOwner state then none
  else some
    { kind := .edge
      id := edge.edgeId
      intentOrExpect := ((s.getCommitment edge.commitmentHash).map (·.intent)).getD
        (s.missingPlaintext edge.edgeId)
      counterparty := counterpartyOf counterparty
      verificationLevel := node.verificationLevel crypto now persona counterparty
      ageDays := ageDays edge.proposedAt asOf
      due := edge.due
      state := .edge state
      actions := node.edgeActions crypto persona edge asOf }

def commitmentItem (persona : PublicKeyHex) (view : OpenLoopsView) (asOf : Rfc3339)
    (c : Sha256Hex × Commitment) : Option OpenLoopItem :=
  if (node.vault persona).carried c.1 then none
  else if view = .waiting ∨ view = .closed ∨ view = .pending then none
  else some
    { kind := .commitment
      id := c.1
      intentOrExpect := c.2.intent
      counterparty := counterpartyOf c.2.owedTo
      verificationLevel := node.verificationLevel crypto now persona c.2.owedTo
      ageDays := ageDays c.2.createdAt asOf
      due := c.2.due
      state := .vaultLocal
      actions := [⟨.propose, none, .none⟩] }

/-- The members of a candidate that a queue entry shows; an expectation has none of them. -/
def candidateMembers : Candidate → Option String × Option Counterparty × Option Rfc3339
  | .commitment c => (some c.intent, c.owedTo, c.due)
  | .expectation _ => (none, none, none)

def pendingItem (persona : PublicKeyHex) (asOf : Rfc3339) (p : PendingExtraction) :
    OpenLoopItem :=
  let (intent, owedTo, due) := candidateMembers p.candidate
  { kind := .commitment
    id := p.id
    intentOrExpect := intent.getD noLocalPlaintext
    counterparty := counterpartyOf owedTo
    verificationLevel := node.verificationLevel crypto now persona owedTo
    ageDays := ageDays p.queuedAt asOf
    due := due
    state := .vaultLocal
    actions := [⟨.confirm, some .confirm, .confirm p.id .confirm⟩,
      ⟨.dismiss, some .confirm, .confirm p.id .dismiss⟩] }

def expectationItem (persona : PublicKeyHex) (view : OpenLoopsView) (asOf : Rfc3339)
    (e : Sha256Hex × Expectation) : Option OpenLoopItem :=
  if view = .owe ∨ view = .pending then none
  else if view = .waiting ∧ e.2.state ≠ .opened then none
  else if view = .closed ∧ e.2.state ≠ .closed then none
  else some
    { kind := .expectation
      id := e.1
      intentOrExpect := e.2.expect
      counterparty := counterpartyOf (some e.2.source)
      verificationLevel := node.verificationLevel crypto now persona (some e.2.source)
      ageDays := ageDays e.2.since asOf
      due := none
      state := .expectation e.2.state
      actions := if e.2.state = .opened then [⟨.ping, none, .none⟩] else [] }

/-- The items of a view, aged as of an instant, in the order of the records. -/
def itemsFor (persona : PublicKeyHex) (view : OpenLoopsView) (asOf : Rfc3339) :
    List OpenLoopItem :=
  let s := node.vault persona
  s.edges.values.filterMap (node.edgeItem crypto now persona view asOf) ++
  s.commitments.values.filterMap (node.commitmentItem crypto now persona view asOf) ++
  (if view = .pending ∨ view = .all then
    (node.pending persona).map (node.pendingItem crypto now persona asOf) else []) ++
  s.expectations.values.filterMap (node.expectationItem crypto now persona view asOf)

def listOrderingKeys (persona : PublicKeyHex) : List OrderingKey :=
  (node.vault persona).listOrderingKeys persona

def listOrderingKeysAcrossPersonas : List OrderingKey :=
  node.personas.flatMap node.listOrderingKeys

/-- Is the key that of a commitment which an edge of the same persona carries? -/
def supersededByAnEdge (key : OrderingKey) : Bool :=
  key.kind == .commitment && (node.vault key.persona).carried key.id

def slotFor (key : OrderingKey) : Option BriefSlot :=
  let s := node.vault key.persona
  match key.kind with
  | .edge => (s.getEdge key.id).map fun edge ↦
    { headline := ((s.getCommitment edge.commitmentHash).map (·.intent)).getD
        (s.missingPlaintext key.id)
      itemId := key.id
      primaryAction := primaryActionOf (node.edgeActions crypto key.persona edge now)
      persona := key.persona }
  | .commitment => (s.getCommitment key.id).map fun c ↦
    ⟨c.intent, key.id, some ⟨.propose, none, .none⟩, key.persona⟩
  | _ => (s.getExpectation key.id).map fun e ↦
    ⟨e.expect, key.id, some ⟨.ping, none, .none⟩, key.persona⟩

/-- The keys that compete for the slots, the highest score first. -/
def ranked (keys : List OrderingKey) : List OrderingKey :=
  (keys.filter fun key ↦ !node.supersededByAnEdge key).insertionSort fun a b ↦
    (rank b now).score ≤ (rank a now).score

/-- The slots that the best of the keys win. -/
def slots (briefSlots : ℕ) (keys : List OrderingKey) : List BriefSlot :=
  ((node.ranked now keys).take briefSlots).filterMap (node.slotFor crypto now)

/-- `none` where the call throws: no persona has the name. -/
def brief (briefSlots : ℕ) (persona : Option PersonaName) : Option BriefOutput :=
  let keys := match persona with
    | none => some node.listOrderingKeysAcrossPersonas
    | some name => (node.resolvePersona (some name)).map node.listOrderingKeys
  keys.map fun keys ↦
    let slots := node.slots crypto now briefSlots keys
    ⟨now, slots, (node.ranked now keys).length - slots.length⟩

end ServandaNode

end Servanda
