import Servanda.Paging
import Servanda.View

/-! The cards a person meets a queued candidate through, where the words were spoken. -/

namespace Servanda.Gestures

open Unicode Scan View

inductive PlaceId
  | chat | prComment | meeting | agent
  deriving DecidableEq, Repr

inductive UtteranceKind
  | message | url
  deriving DecidableEq, Repr

structure UtteranceRef where
  kind : UtteranceKind
  value : Text

inductive DeliveryMoment
  | inSitu | batched
  deriving DecidableEq, Repr

def quoteMaxChars : ℕ := 500

def isControl (u : CodeUnit) : Bool := u.toNat ≤ 0x1F || 0x7F ≤ u.toNat && u.toNat ≤ 0x9F

/-- Zero-width characters, marks that turn the reading direction, and the byte order mark. -/
def isInvisible (u : CodeUnit) : Bool :=
  u.toNat = 0xAD || 0x200B ≤ u.toNat && u.toNat ≤ 0x200F || 0x202A ≤ u.toNat && u.toNat ≤ 0x202E ||
    0x2060 ≤ u.toNat && u.toNat ≤ 0x2064 || 0x2066 ≤ u.toNat && u.toNat ≤ 0x2069 || u.toNat = 0xFEFF

/-- Text somebody else wrote, without the characters that let text act. -/
def quote (raw : Text) : Text :=
  let spaced := raw.map fun u ↦ if isControl u then unit ' ' else u
  let flattened := trim (replaceAll (run 1 isSpace [unit ' ']) (spaced.filter (!isInvisible ·)))
  if quoteMaxChars < flattened.length then flattened.take (quoteMaxChars - 1) ++ text "…"
  else flattened

structure Speaker where
  display : Text
  externalId : Text
  personaId : Option PublicKeyHex
  verification : VerificationLevel

structure Utterance where
  place : PlaceId
  ref : UtteranceRef
  speaker : Speaker
  text : Text
  occurredAt : Text
  pendingId : Option Sha256Hex
  owedTo : Option Speaker

structure FlywheelLabel where
  decision : ConfirmDecision
  place : PlaceId
  item : Sha256Hex
  instant : Text

/-- One of the two answers to a card: a call of `confirm`, and the label it leaves. -/
structure GestureAction where
  id : Text
  label : Text
  primary : Bool
  args : ConfirmInput
  flywheel : FlywheelLabel

/-- The card `confirm-own-promise`. -/
structure ConfirmCard where
  id : Sha256Hex
  place : PlaceId
  ref : UtteranceRef
  heading : Text
  provenance : Text
  what : Text
  withWhom : Option PartyView
  ifIDoNothing : Text
  mark : SealView
  moment : DeliveryMoment
  actions : List GestureAction

def placeName : PlaceId → Text
  | .chat => text "a message you sent"
  | .prComment => text "a review comment you wrote"
  | .meeting => text "a meeting you were in"
  | .agent => text "something you told your assistant"

def partyOf : Option Speaker → Option PartyView
  | none => none
  | some speaker => partyFor speaker.display .selfLabelled speaker.verification

def confirmAction (utterance : Utterance) (pendingId : Sha256Hex) (decision : ConfirmDecision)
    (name label : Text) (primary : Bool) : GestureAction where
  id := (hexId pendingId).val ++ text ":" ++ name
  label := label
  primary := primary
  args := ⟨pendingId, decision, none⟩
  flywheel := ⟨decision, utterance.place, pendingId, utterance.occurredAt⟩

def confirmCard (utterance : Utterance) (pendingId : Sha256Hex) (moment : DeliveryMoment) :
    ConfirmCard where
  id := pendingId
  place := utterance.place
  ref := utterance.ref
  heading := text "To confirm"
  provenance := text "From " ++ placeName utterance.place ++ text "."
  what := utterance.text
  withWhom := partyOf utterance.owedTo
  ifIDoNothing := text "Nothing is recorded until you confirm."
  mark := noSeal
  moment := moment
  actions := [
    confirmAction utterance pendingId .confirm (text "confirm") (text "Confirm") true,
    confirmAction utterance pendingId .dismiss (text "dismiss") (text "Not a promise") false]

structure QueueCardOptions where
  viewer : PublicKeyHex
  place : PlaceId
  refFor : OpenLoopItem → UtteranceRef
  delivery : Option DeliveryMoment := none
  limit : ℕ := 50
  limit_pos : 0 < limit := by decide

def counterpartyText : Counterparty → Text
  | .persona key => (hexId key).val
  | .label s => Servanda.text s

/-- The item, as the utterance it came from: the viewer's own words, whoever's they were. -/
def utteranceOf (item : OpenLoopItem) (options : QueueCardOptions) : Utterance where
  place := options.place
  ref := options.refFor item
  speaker := ⟨quote [], (hexId options.viewer).val, some options.viewer, .three⟩
  text := quote (Servanda.text item.intentOrExpect)
  occurredAt := Servanda.text "1970-01-01T00:00:00.000Z"
  pendingId := some item.id
  owedTo := item.counterparty.map fun counterparty ↦
    let value := counterpartyText counterparty.1
    ⟨quote value, value, none, item.verificationLevel⟩

/-- The call of `open_loops` the cards are read from. -/
def queuePage (options : QueueCardOptions) : OpenLoopsInput :=
  ⟨.pending, some (.key options.viewer), options.limit, options.limit_pos, none⟩

def queueCards (crypto : Crypto) (now : Rfc3339) (node : ServandaNode) (options : QueueCardOptions) :
    Except OpenLoopsError (List ConfirmCard) :=
  (node.openLoops crypto now (queuePage options)).map fun page ↦
    (page.items.filter (·.kind = .commitment)).map fun item ↦
      confirmCard (utteranceOf item options) item.id (options.delivery.getD .inSitu)

end Servanda.Gestures
