import Servanda.Bounding
import Servanda.Capture

/-!
A message delivered to the node: a copy it is not named on, or a forward, whose original is text in a
body and stays a string of the payload.
-/

namespace Servanda.Mime

open Unicode Scan UnidentifiedEnvelope

inductive IngestKind
  | emailBcc
  | emailForwarded
  deriving DecidableEq

def IngestKind.name : IngestKind → Text
  | emailBcc => text "email_bcc"
  | emailForwarded => text "email_forwarded"

def forwardWords : List String := ["fwd", "fw", "tr", "wg", "rv", "vs", "enc"]

/-- Subjects that announce a forward. -/
def forwardSubject (subject : Text) : Bool :=
  forwardWords.any fun word ↦
    ((dropFolded word.toList (subject.dropWhile isSpace)).bind fun rest ↦
      dropChar ':' (rest.dropWhile isSpace)).isSome

def isLineEnd (u : CodeUnit) : Bool := u.toNat ∈ [0x0A, 0x0D, 0x2028, 0x2029]

/-- The blanks up to the last line end among them, or to the end of the text: how many there are. -/
def blanksToLineEnd (s : Text) : Option ℕ :=
  let blanks := s.takeWhile isSpace
  let lines := blanks.rdropWhile fun u ↦ !isLineEnd u
  if blanks.length = s.length then some blanks.length
  else if lines = [] then none
  else some (lines.length - 1)

/-- A word that may hold one code point that is not looked at, but for a line end. -/
def dropPhrase (front : String) (back : Option String) (s : Text) : Option Text := do
  let rest ← dropFolded front.toList s
  match back with
  | none => some rest
  | some back =>
    let point ← (points rest).head?
    guard (!point.any isLineEnd)
    dropFolded back.toList (rest.drop point.length)

def forwardPhrases : List (String × Option String) :=
  [("forwarded message", none), ("original message", none), ("urspr", some "ngliche nachricht")]

def dashes (s : Text) : Option Text :=
  let run := s.takeWhile (· = unit '-')
  if 2 ≤ run.length then some (s.drop run.length) else none

/-- A separator's length, where one stands in front of a text. -/
def throughLineEnd (s rest : Text) : Option ℕ :=
  (blanksToLineEnd rest).map (s.length - rest.length + ·)

def dashedSeparator (s : Text) : Option ℕ := do
  let rest ← dashes s
  let rest ← forwardPhrases.findSome? fun phrase ↦
    dropPhrase phrase.1 phrase.2 (rest.dropWhile isSpace)
  let rest ← dashes (rest.dropWhile isSpace)
  throughLineEnd s rest

def beginSeparator (s : Text) : Option ℕ := do
  let rest ← dropFolded "begin forwarded message:".toList s
  throughLineEnd s rest

def ruleSeparator (s : Text) : Option ℕ :=
  let run := s.takeWhile (· = unit '_')
  if 16 ≤ run.length then throughLineEnd s (s.drop run.length) else none

/-- Inline forward separators. -/
def forwardSeparators : List (Text → Option ℕ) := [dashedSeparator, beginSeparator, ruleSeparator]

/-- The first start of a line at which something is read: where, and how long that is. -/
def searchLines (read : Text → Option ℕ) (lineStart : Bool) (i : ℕ) : Text → Option (ℕ × ℕ)
  | [] => if lineStart then (read []).map (i, ·) else none
  | u :: s =>
    match if lineStart then read (u :: s) else none with
    | some width => some (i, width)
    | none => searchLines read (isLineEnd u) (i + 1) s

structure InlineOriginal where
  headerText : Text
  bodyText : Text

/-- A line break, and another one with nothing but blanks in between. -/
def blankLine (s : Text) : Option ℕ :=
  (List.range s.length).find? fun i ↦
    s[i]? = some (unit '\n') && ((s.drop (i + 1)).takeWhile isSpace).contains (unit '\n')

/-- The earliest separator; of two at one place, the one that is listed first. -/
def earliest (s : Text) : Option (ℕ × ℕ) :=
  forwardSeparators.foldl (fun best re ↦
    match best, searchLines re true 0 s with
    | none, found => found
    | some best, some found => if found.1 < best.1 then some found else some best
    | some best, none => some best) none

def splitAtSeparator (s : Text) : Option InlineOriginal :=
  (earliest s).map fun (best, width) ↦
    let after := s.drop (best + width)
    match blankLine after with
    | none => ⟨after.take 2048, []⟩
    | some blank => ⟨(after.take blank).take 2048, after.drop blank⟩

def pseudoNames : List String := ["from", "to", "cc", "subject", "date", "sent", "reply-to"]

/-- A line of prose in the shape of a header: its name as it is written, and its value. -/
def pseudoHeader (line : Text) : Option (Text × Text) :=
  let line := line.dropWhile isSpace
  pseudoNames.findSome? fun name ↦ do
    let rest ← dropFolded name.toList line
    let value ← dropChar ':' (rest.dropWhile isSpace)
    let value := value.dropWhile isSpace
    guard (value.all fun u ↦ !isLineEnd u)
    some (line.take (line.length - rest.length), value)

section

variable (platform : Platform)

/-- The loop over the lines of a forwarded block: the first line of a name counts. -/
def readPseudoHeaders (headerText : Text) : List (Text × Text) :=
  ((headerText.splitOn (unit '\n')).take 24).foldl (fun out line ↦
    match pseudoHeader line with
    | none => out
    | some (name, value) =>
      let lowered := platform.toLowerCase name
      let key := if lowered = text "sent" then text "date" else lowered
      if (out.lookup key).isSome then out
      else out ++ [(key, (decodeEncodedWords platform (trim value)).take 512)]) []

def embeddedKind : Text := text "message/rfc822"

def inlineKind : Text := text "inline_quoted"

def originalFromEmbedded (embedded : ParsedMessage) : Members :=
  let sender := embedded.from.head?
  compact
    [(text "kind", some (.str embeddedKind)),
      (text "from_display_name", (sender.bind (·.name)).map fun name ↦ .str (clip name 320)),
      (text "from_address", (sender.bind (·.address)).map fun address ↦ .str (clip address 320)),
      (text "from_raw", sender.map fun sender ↦ .str (clip sender.raw 512)),
      (text "to", some (texts (addressesOf 32 [] embedded.to))),
      (text "cc", some (texts (addressesOf 32 [] embedded.cc))),
      (text "subject", embedded.subject.map .str),
      (text "date", embedded.date.map fun date ↦ .str date.val),
      (text "message_id", embedded.messageId.map .str),
      (text "in_reply_to", embedded.inReplyTo.map .str),
      (text "references_count", count embedded.references),
      (text "text", some (.str embedded.text)),
      (text "text_source_chars", some (.num (.ofNat embedded.textLength))),
      (text "html", some (.bool embedded.html)),
      (text "attachment_count", count embedded.attachments),
      (text "raw_bytes", some (.num (.ofNat embedded.rawBytes))),
      (text "header_anomalies", some (texts embedded.anomalies))]

def originalFromInline (inline : InlineOriginal) : Members :=
  let pseudo := readPseudoHeaders platform inline.headerText
  let date := pseudo.lookup (text "date")
  compact
    [(text "kind", some (.str inlineKind)),
      (text "from_raw", (pseudo.lookup (text "from")).map .str),
      (text "to_raw", (pseudo.lookup (text "to")).map .str),
      (text "cc_raw", (pseudo.lookup (text "cc")).map .str),
      (text "subject", (pseudo.lookup (text "subject")).map .str),
      (text "date", (rfc3339FromMailDate platform date).map fun date ↦ .str date.val),
      (text "date_raw", date.map .str),
      (text "text", some (.str (trim inline.bodyText)))]

/-- The kind of original a message carries, with its record: an embedded one before a quoted one. -/
def originalOf (parsed : ParsedMessage) : Option (Text × Members) :=
  (parsed.embedded.map fun embedded ↦ (embeddedKind, originalFromEmbedded embedded)) <|>
    (splitAtSeparator parsed.text).map fun inline ↦ (inlineKind, originalFromInline platform inline)

def isForward (parsed : ParsedMessage) : Bool :=
  parsed.embedded.isSome || forwardSubject (parsed.subject.getD []) ||
    (splitAtSeparator parsed.text).isSome

/-- The node's own addresses that the message was delivered to. -/
def deliveredToSelf (parsed : ParsedMessage) (identity : EmailIdentity) : List Text :=
  (parsed.deliveredTo.map platform.toLowerCase).filter (· ∈ identity.addresses)

/-- A copy that went to an address which the message does not name. -/
def isBcc (parsed : ParsedMessage) (identity : EmailIdentity) : Bool :=
  let named := (addressesOf 64 [] parsed.to ++ addressesOf 64 [] parsed.cc).map platform.toLowerCase
  let delivered := deliveredToSelf platform parsed identity
  !delivered.isEmpty && !delivered.any (· ∈ named)

/-- Members as the entries of an object literal. -/
def defined (ms : Members) : Entries := ms.map fun m ↦ (m.1, some m.2)

/-- A forward before a copy: what the gesture adds to the envelope. -/
def gestureExtras (parsed : ParsedMessage) (identity : EmailIdentity) : CaptureExtras :=
  let original := originalOf platform parsed
  let originalId := parsed.embedded.bind fun embedded ↦
    normalizeMessageId platform embedded.messageId
  let forward := isForward parsed
  { kind := some (if forward then IngestKind.emailForwarded else IngestKind.emailBcc).name
    payload := defined (compact
      [(text "gesture", some (.str (if forward then text "forward" else text "bcc"))),
        (text "delivered_to", some (texts (deliveredToSelf platform parsed identity))),
        (text "bcc_inferred", some (.bool (isBcc platform parsed identity))),
        (text "original", original.map fun original ↦ .obj original.2),
        (text "original_source", some (.str ((original.map Prod.fst).getD (text "none"))))])
    refs := originalId.toList.map fun id ↦ ⟨.message, clip id maxRef⟩ }

variable (crypto : Crypto)

/-- Nothing for a message that is neither of the two gestures. -/
def envelopeFromDelivered (source : ImapMessageSource) (persona : Checked isHex64)
    (identity : EmailIdentity) (ctx : CaptureContext) : Except EnvelopeError (Option Envelope) :=
  let parsed := parsedOf platform source ctx
  if !isForward parsed && !isBcc platform parsed identity then .ok none
  else
    buildEnvelope platform crypto parsed source persona identity ctx
      (gestureExtras platform parsed identity)

end

end Servanda.Mime
