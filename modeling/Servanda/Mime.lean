import Servanda.Instant
import Servanda.Scan

namespace Servanda.Mime

open Unicode Scan

structure MimeLimits where
  maxBytes : ℕ
  maxHeaderBytes : ℕ
  maxHeaders : ℕ
  maxParts : ℕ
  maxDepth : ℕ
  maxAddresses : ℕ
  maxReferences : ℕ
  maxTextChars : ℕ
  maxAttachments : ℕ

def defaultLimits : MimeLimits where
  maxBytes := 2 * 1024 * 1024
  maxHeaderBytes := 128 * 1024
  maxHeaders := 256
  maxParts := 64
  maxDepth := 8
  maxAddresses := 64
  maxReferences := 32
  maxTextChars := 256 * 1024
  maxAttachments := 32

structure MailAddress where
  name : Option Text
  address : Option Text
  raw : Text
  deriving DecidableEq

structure MailAttachment where
  filename : Option Text
  contentType : Text
  bytes : ℕ

structure ParsedMessage where
  subject : Option Text
  «from» : List MailAddress
  «to» : List MailAddress
  cc : List MailAddress
  replyTo : List MailAddress
  deliveredTo : List Text
  date : Option (Checked isRfc3339)
  messageId : Option Text
  inReplyTo : Option Text
  references : List Text
  text : Text
  textLength : ℕ
  html : Bool
  attachments : List MailAttachment
  embedded : Option ParsedMessage
  rawBytes : ℕ
  truncated : Bool
  anomalies : List Text
  observedAuthResults : List Text

structure Header where
  name : Text
  value : Text

inductive Anomaly
  | noHeaderSeparator
  | headerLimit
  | malformedHeaderLine
  | malformedHeaderName
  | duplicateHeader (name : Text)
  | mimeDepthLimit
  | multipartWithoutBoundary
  | multipartWithoutParts
  | truncated
  | emptyMessage
  | textClipped
  | unparseableDate

def Anomaly.token : Anomaly → Text
  | noHeaderSeparator => text "no-header-separator"
  | headerLimit => text "header-limit"
  | malformedHeaderLine => text "malformed-header-line"
  | malformedHeaderName => text "malformed-header-name"
  | duplicateHeader name => text "duplicate-header:" ++ name
  | mimeDepthLimit => text "mime-depth-limit"
  | multipartWithoutBoundary => text "multipart-without-boundary"
  | multipartWithoutParts => text "multipart-without-parts"
  | truncated => text "truncated"
  | emptyMessage => text "empty-message"
  | textClipped => text "text-clipped"
  | unparseableDate => text "unparseable-date"

structure Entity where
  headers : List Header
  body : List UInt8
  anomalies : List Anomaly

/-- What the platform brings: its character encodings, its base64 decoder, its reading of dates and
its Unicode tables. -/
structure Platform where
  /-- `new TextDecoder(label)`; it throws where the label names no encoding. -/
  textDecoder : Text → Option (List UInt8 → Text)
  base64 : Text → List UInt8
  /-- `Date.parse`, and nothing for `NaN`. -/
  dateParse : Text → Option ℤ
  toLowerCase : Text → Text
  /-- `\p{Cf}`. -/
  isFormat : ℕ → Bool

def cr : UInt8 := 13

def lf : UInt8 := 10

def hyphen : UInt8 := 45

def space : CodeUnit := unit ' '

def quote : CodeUnit := unit '"'

def decodeUtf8 (bytes : List UInt8) : Text := units (Unicode.decodeUtf8 bytes)

section

variable (platform : Platform)

/-- A label that names no encoding is not fatal. -/
def decodeCharset (bytes : List UInt8) : Option Text → Text
  | none | some [] => decodeUtf8 bytes
  | some charset =>
    match platform.textDecoder charset with
    | some decode => decode bytes
    | none => decodeUtf8 bytes

/-- Where a header ends, and where its body starts. -/
def headerEnd (bytes : List UInt8) (limit : ℕ) : Option (ℕ × ℕ) :=
  (List.range (min bytes.length limit)).findSome? fun i ↦
    if bytes[i]? ≠ some lf then none
    else if bytes[i + 1]? = some lf then some (i, i + 2)
    else if bytes[i + 1]? = some cr ∧ bytes[i + 2]? = some lf then some (i, i + 3)
    else none

def isHeaderName (name : Text) : Bool :=
  !name.isEmpty && name.all fun u ↦ 0x21 ≤ u.toNat && u.toNat ≤ 0x39 || 0x3B ≤ u.toNat && u.toNat ≤ 0x7E

def dropReturn (line : Text) : Text :=
  if line.getLast? = some (unit '\r') then line.dropLast else line

/-- A line that begins with a blank continues the one before it. -/
def unfoldLine (unfolded : List Text) (line : Text) : List Text :=
  let clean := dropReturn line
  if clean = [] then unfolded
  else if clean.head? ∈ [some space, some (unit '\t')] ∧ unfolded ≠ [] then
    unfolded.dropLast ++ [unfolded.getLastD [] ++ space :: trim clean]
  else unfolded ++ [clean]

def readHeaders (limits : MimeLimits) (out : List Header) (anomalies : List Anomaly) :
    List Text → List Header × List Anomaly
  | [] => (out, anomalies)
  | line :: lines =>
    if limits.maxHeaders ≤ out.length then (out, anomalies ++ [.headerLimit])
    else
      match line.idxOf? (unit ':') with
      | none | some 0 => readHeaders limits out (anomalies ++ [.malformedHeaderLine]) lines
      | some colon =>
        let name := platform.toLowerCase (trim (line.take colon))
        if isHeaderName name then
          readHeaders limits (out ++ [⟨name, trim (line.drop (colon + 1))⟩]) anomalies lines
        else readHeaders limits out (anomalies ++ [.malformedHeaderName]) lines

def parseHeaderBlock (block : Text) (limits : MimeLimits) (anomalies : List Anomaly) :
    List Header × List Anomaly :=
  readHeaders platform limits [] anomalies ((block.splitOn (unit '\n')).foldl unfoldLine [])

def singleton : List Text :=
  [text "from", text "date", text "subject", text "message-id", text "in-reply-to", text "sender",
    text "return-path"]

/-- The first of a header's occurrences; a second one of a singleton is noted. -/
def first (headers : List Header) (name : Text) (anomalies : List Anomaly) :
    Option Text × List Anomaly :=
  let found := headers.filter (·.name = name)
  (found.head?.map (·.value),
    if 1 < found.length ∧ name ∈ singleton then anomalies ++ [.duplicateHeader name] else anomalies)

def all (headers : List Header) (name : Text) : List Text :=
  (headers.filter (·.name = name)).map (·.value)

def hexValue (u : CodeUnit) : Option ℕ :=
  if 0x30 ≤ u.toNat ∧ u.toNat ≤ 0x39 then some (u.toNat - 0x30)
  else if 0x41 ≤ u.toNat ∧ u.toNat ≤ 0x46 then some (u.toNat - 0x37)
  else if 0x61 ≤ u.toNat ∧ u.toNat ≤ 0x66 then some (u.toNat - 0x57)
  else none

def hexPair : Text → Option ℕ
  | high :: low :: _ =>
    match hexValue high, hexValue low with
    | some h, some l => some (16 * h + l)
    | _, _ => none
  | _ => none

/-- The loop over a quoted-printable text: `skip` units of it belong to the octet before. -/
def quotedPrintable (underscoreIsSpace : Bool) : ℕ → Text → List UInt8
  | _, [] => []
  | skip + 1, _ :: s => quotedPrintable underscoreIsSpace skip s
  | 0, c :: s =>
    if c = unit '_' ∧ underscoreIsSpace then 32 :: quotedPrintable underscoreIsSpace 0 s
    else if c ≠ unit '=' then UInt8.ofNat c.toNat :: quotedPrintable underscoreIsSpace 0 s
    else
      match hexPair s with
      | some n => UInt8.ofNat n :: quotedPrintable underscoreIsSpace 2 s
      | none => 61 :: quotedPrintable underscoreIsSpace 0 s

def decodeQuotedPrintableText (s : Text) (underscoreIsSpace : Bool) : List UInt8 :=
  quotedPrintable underscoreIsSpace 0 s

/-- An encoded word at the front of a text, and what it stands for: itself, where that is empty. -/
def encodedWord : Pattern Text := fun s ↦ do
  let rest ← dropWord (text "=?") s
  let charset := rest.takeWhile (· ≠ unit '?')
  guard (1 ≤ (points charset).length ∧ (points charset).length ≤ 64)
  let _ :: enc :: mark :: rest := rest.drop charset.length | none
  guard (enc ∈ text "BbQq" ∧ mark = unit '?')
  let word := rest.takeWhile (· ≠ unit '?')
  guard ((points word).length ≤ 1024)
  let after ← dropWord (text "?=") (rest.drop word.length)
  let whole := s.take (s.length - after.length)
  let bytes :=
    if platform.toLowerCase [enc] = text "b" then platform.base64 word
    else decodeQuotedPrintableText word true
  let decoded := decodeCharset platform bytes (some (charset.takeWhile (· ≠ unit '*')))
  some (if decoded = [] ∧ word ≠ [] then whole else decoded, whole.length)

def decodeEncodedWords (s : Text) : Text := replaceAll (encodedWord platform) s

/-- A list cut at its commas, but for those inside quotes or angle brackets. -/
def splitCommas (buf : Text) (quoted angle : Bool) : Text → List Text
  | [] => [buf]
  | c :: s =>
    let quoted' := if c = quote ∧ !angle then !quoted else quoted
    let angle' := if c = quote ∧ !angle then angle
      else if c = unit '<' ∧ !quoted then true
      else if c = unit '>' ∧ !quoted then false
      else angle
    if c = unit ',' ∧ !quoted' ∧ !angle' then buf :: splitCommas [] quoted' angle' s
    else splitCommas (buf ++ [c]) quoted' angle' s

def splitAddressList (s : Text) : List Text :=
  ((splitCommas [] false false s).map trim).filter (· ≠ [])

def isAddress (s : Text) : Bool :=
  match s.splitOn (unit '@') with
  | [mailbox, domain] => !mailbox.isEmpty && !domain.isEmpty &&
      (mailbox ++ domain).all fun u ↦ !isSpace u && u ≠ unit '<' && u ≠ unit '>'
  | _ => false

/-- A text without a quote at its front and one at its back. -/
def stripQuotes (s : Text) : Text :=
  let s := if s.head? = some quote then s.tail else s
  if s.getLast? = some quote then s.dropLast else s

/-- What stands in front of the first angle bracket, and inside it. -/
def angleOf (token : Text) : Option (Text × Text) :=
  let before := token.takeWhile (· ≠ unit '<')
  match token.drop before.length with
  | [] => none
  | _ :: rest =>
    let inside := rest.takeWhile (· ≠ unit '>')
    if inside.length < rest.length then some (before, inside) else none

/-- A bare token is an address only where it is not quoted. -/
def mailAddress (token : Text) : MailAddress :=
  match angleOf token with
  | some (before, inside) =>
    let address := trim inside
    let name := trim (stripQuotes (trim before))
    { name := if name = [] then none else some name
      address := if isAddress address then some address else none
      raw := token.take 512 }
  | none =>
    let quoted := 2 ≤ token.length ∧ token.head? = some quote ∧ token.getLast? = some quote
    let bare := trim (stripQuotes token)
    { name := if quoted ∧ bare ≠ [] then some bare else none
      address := if ¬quoted ∧ isAddress bare then some bare else none
      raw := token.take 512 }

def parseAddressList (raw : Option Text) (limits : MimeLimits) : List MailAddress :=
  match raw with
  | none => []
  | some raw =>
    ((splitAddressList (decodeEncodedWords platform raw)).take limits.maxAddresses).map mailAddress

def isControl (point : ℕ) : Bool := point < 0x20 || 0x7F ≤ point && point ≤ 0x9F

def isInvisible (point : Text) : Bool :=
  isControl (pointValue point) || platform.isFormat (pointValue point)

/-- A message id without controls, format characters and whitespace. -/
def stripInvalid (s : Text) : Text :=
  ((points s).filter fun point ↦ !isInvisible platform point && !point.any isSpace).flatten

/-- A message id in angle brackets. -/
def angled : Pattern Text := fun s ↦ do
  let rest ← dropWord (text "<") s
  let inside := rest.takeWhile (· ≠ unit '>')
  guard (1 ≤ (points inside).length ∧ (points inside).length ≤ 512 ∧ inside.length < rest.length)
  some (inside, inside.length + 2)

def normalizeMessageId (raw : Option Text) : Option Text :=
  match raw with
  | none => none
  | some raw =>
    let id := stripInvalid platform ((matchAll angled raw).head?.getD raw)
    let inner := (id.dropWhile (· = unit '<')).rdropWhile (· = unit '>')
    if inner = [] then none else some (inner.take 512)

/-- The loop over the tokens of a `References` header. -/
def collectIds (limits : MimeLimits) (cut : Text → Text) (tokens : List Text) : List Text :=
  tokens.foldl (fun out token ↦
    let id := stripInvalid platform token
    if limits.maxReferences ≤ out.length ∨ id = [] ∨ id ∈ out then out else out ++ [cut id]) []

def parseReferences (raw : Option Text) (limits : MimeLimits) : List Text :=
  match raw with
  | none => []
  | some raw =>
    let out := collectIds platform limits id (matchAll angled raw)
    if out = [] then collectIds platform limits (·.take 512) (raw.splitOnP isSpace) else out

def rfc3339FromMailDate (raw : Option Text) : Option (Checked isRfc3339) :=
  match raw with
  | none => none
  | some raw =>
    match platform.dateParse (trim raw) with
    | none => none
    | some ms =>
      if h : 0 ≤ ms ∧ ms ≤ maxMailTime then
        some ⟨units (dropMillis (toISOString ms (abs_le_maxTime h))), isRfc3339_second h⟩
      else none

structure ContentType where
  type : Text
  params : List (Text × Text)

def ContentType.param (c : ContentType) (key : String) : Option Text := c.params.lookup (text key)

/-- The names an object literal inherits: a parameter under one of them is never set. -/
def inherited : List Text :=
  [text "constructor", text "__defineGetter__", text "__defineSetter__", text "hasOwnProperty",
    text "__lookupGetter__", text "__lookupSetter__", text "isPrototypeOf",
    text "propertyIsEnumerable", text "toString", text "valueOf", text "__proto__",
    text "toLocaleString"]

def readParam (params : List (Text × Text)) (part : Text) : List (Text × Text) :=
  match part.idxOf? (unit '=') with
  | none | some 0 => params
  | some eq =>
    let key := platform.toLowerCase (trim (part.take eq))
    let value := trim (part.drop (eq + 1))
    let value := if value.head? = some quote then value.tail.takeWhile (· ≠ quote) else value
    if key ≠ [] ∧ key ∉ inherited ∧ params.lookup key = none then params ++ [(key, value.take 256)]
    else params

def parseContentType (raw : Option Text) : ContentType :=
  match raw with
  | none => ⟨text "text/plain", []⟩
  | some raw =>
    let parts := raw.splitOn (unit ';')
    let type := platform.toLowerCase (trim (parts.headD []))
    ⟨if type = [] then text "text/plain" else type, parts.tail.foldl (readParam platform) []⟩

/-- A line break that quoted-printable adds. -/
def softBreak : Pattern Text := fun s ↦
  match dropWord (text "=\n") s, dropWord (text "=\r\n") s with
  | some _, _ => some ([], 2)
  | none, some _ => some ([], 3)
  | none, none => none

def decodeTransfer (body : List UInt8) (encoding : Option Text) : List UInt8 :=
  let enc := platform.toLowerCase (trim (encoding.getD []))
  if enc = text "base64" then platform.base64 (decodeUtf8 body)
  else if enc = text "quoted-printable" then
    decodeQuotedPrintableText (replaceAll softBreak (decodeUtf8 body)) false
  else body

def indexOfBytes (hay needle : List UInt8) (start : ℕ) : Option ℕ :=
  (List.range (hay.length + 1 - needle.length)).find? fun i ↦
    start ≤ i && needle.isPrefixOf (hay.drop i)

/-- The parts from a boundary line on, at most so many. -/
def splitParts (body marker : List UInt8) : ℕ → ℕ → List (List UInt8)
  | 0, _ => []
  | room + 1, cursor =>
    let start := cursor + marker.length
    if body[start]? = some hyphen ∧ body[start + 1]? = some hyphen then []
    else
      let s := if body[start]? = some cr then start + 1 else start
      let s := if body[s]? = some lf then s + 1 else s
      match indexOfBytes body marker start with
      | none => [body.drop s]
      | some next => (body.take next).drop s :: splitParts body marker room next

def splitMultipart (body : List UInt8) (boundary : Text) (limits : MimeLimits) : List (List UInt8) :=
  let marker := encodeUtf8 (scalars (text "--" ++ boundary))
  match indexOfBytes body marker 0 with
  | none => []
  | some cursor => splitParts body marker limits.maxParts cursor

end

end Servanda.Mime
