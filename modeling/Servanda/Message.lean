import Servanda.Mime

namespace Servanda.Mime

open Unicode Scan

def dropChar (c : Char) (s : Text) : Option Text := dropWord [unit c] s

/-- A closing tag: its name, in any case, and blanks. -/
def closingTag (name : String) (s : Text) : Option Text := do
  let rest ← dropFolded ('<' :: '/' :: name.toList) s
  dropChar '>' (rest.dropWhile isSpace)

/-- The rest of a text after a tag's name, which ends there. -/
def tagName (name : String) (s : Text) : Option Text := do
  let rest ← dropFolded name.toList s
  guard (rest.head?.all fun u ↦ !isWordUnit u)
  some rest

/-- What a match leaves of a text decides how long it is. -/
def replacing (out : Text) (read : Text → Option Text) : Pattern Text := fun s ↦
  (read s).map fun rest ↦ (out, s.length - rest.length)

/-- An element with all it holds. -/
def element (name : String) (s : Text) : Option Text := do
  let rest ← dropChar '<' s
  let rest ← tagName name rest
  let body ← dropThrough (unit '>') rest
  firstSuffix (closingTag name) body

def comment (s : Text) : Option Text := do
  let rest ← dropWord (text "<!--") s
  firstSuffix (dropWord (text "-->")) rest

def blockNames : List String :=
  ["p", "div", "br", "tr", "li", "h1", "h2", "h3", "h4", "h5", "h6"]

def blockTag (s : Text) : Option Text := do
  let rest ← dropChar '<' s
  let rest := (dropChar '/' rest).getD rest
  let rest ← blockNames.findSome? (tagName · rest)
  dropThrough (unit '>') rest

def tag (s : Text) : Option Text := (dropChar '<' s).bind (dropThrough (unit '>'))

def entities : List (Text × Text) :=
  [(text "&amp;", text "&"), (text "&lt;", text "<"), (text "&gt;", text ">"),
    (text "&quot;", text "\""), (text "&#39;", text "'"), (text "&apos;", text "'"),
    (text "&nbsp;", text " ")]

def isEntityUnit (u : CodeUnit) : Bool :=
  0x30 ≤ u.toNat && u.toNat ≤ 0x39 || 0x41 ≤ u.toNat && u.toNat ≤ 0x5A ||
    0x61 ≤ u.toNat && u.toNat ≤ 0x7A || u = unit '#'

section

variable (platform : Platform)

def entity : Pattern Text := fun s ↦ do
  let rest ← dropChar '&' s
  let name := rest.takeWhile isEntityUnit
  guard (1 ≤ name.length ∧ name.length ≤ 8)
  let _ ← dropChar ';' (rest.drop name.length)
  let whole := s.take (name.length + 2)
  some ((entities.lookup (platform.toLowerCase whole)).getD whole, whole.length)

def isBlank (u : CodeUnit) : Bool := u.toNat ∈ [0x20, 0x09, 0x0C, 0x0B]

def htmlToText (html : Text) : Text :=
  let stripped := replaceAll (replacing (text " ") (element "script")) html
  let stripped := replaceAll (replacing (text " ") (element "style")) stripped
  let stripped := replaceAll (replacing (text " ") comment) stripped
  let stripped := replaceAll (replacing (text "\n") blockTag) stripped
  let stripped := replaceAll (replacing (text " ") tag) stripped
  let decoded := replaceAll (entity platform) stripped
  let lines := (decoded.splitOn (unit '\n')).map fun line ↦
    trim (replaceAll (run 1 isBlank (text " ")) line)
  trim (replaceAll (run 3 (· = unit '\n') (text "\n\n")) ([unit '\n'].intercalate lines))

def parseEntity (bytes : List UInt8) (limits : MimeLimits) : Entity :=
  match headerEnd bytes limits.maxHeaderBytes with
  | none =>
    let block := decodeUtf8 (bytes.take (min bytes.length limits.maxHeaderBytes))
    let (headers, anomalies) := parseHeaderBlock platform block limits [.noHeaderSeparator]
    ⟨headers, [], anomalies⟩
  | some (finish, bodyStart) =>
    let (headers, anomalies) := parseHeaderBlock platform (decodeUtf8 (bytes.take finish)) limits []
    ⟨headers, bytes.drop bodyStart, anomalies⟩

structure Leaf where
  contentType : ContentType
  disposition : Text
  filename : Option Text
  bytes : List UInt8

/-- What a walk over the MIME tree has collected. -/
structure Walked where
  leaves : List Leaf
  embedded : Option (List UInt8)
  anomalies : List Anomaly

/-- The walk over the MIME tree. `levels` is how much deeper a multipart may still nest. -/
def walk (limits : MimeLimits) (levels : ℕ) (entity : Entity) (w : Walked) : Walked :=
  if limits.maxParts ≤ w.leaves.length then w
  else
    let (typeHeader, anomalies) := first entity.headers (text "content-type") w.anomalies
    let contentType := parseContentType platform typeHeader
    let (disposition, anomalies) := first entity.headers (text "content-disposition") anomalies
    let (described, anomalies) := first entity.headers (text "content-disposition") anomalies
    let filename := (parseContentType platform described).param "filename" <|>
      contentType.param "name"
    if (text "multipart/").isPrefixOf contentType.type then
      match levels with
      | 0 => { w with anomalies := anomalies ++ [.mimeDepthLimit] }
      | levels + 1 =>
        match contentType.param "boundary" with
        | none | some [] => { w with anomalies := anomalies ++ [.multipartWithoutBoundary] }
        | some boundary =>
          let parts := splitMultipart entity.body boundary limits
          let anomalies := if parts = [] then anomalies ++ [.multipartWithoutParts] else anomalies
          parts.foldl (fun w part ↦
            let sub := parseEntity platform part limits
            walk limits levels sub { w with anomalies := w.anomalies ++ sub.anomalies })
            { w with anomalies := anomalies }
    else
      let (encoding, anomalies) := first entity.headers (text "content-transfer-encoding") anomalies
      let decoded := decodeTransfer platform entity.body encoding
      if contentType.type = text "message/rfc822" then
        { w with
          embedded := if w.embedded.isNone ∧ levels ≠ 0 then some decoded else w.embedded
          anomalies := anomalies }
      else
        let leaf : Leaf := {
          contentType := contentType
          disposition := platform.toLowerCase (disposition.getD [])
          filename := filename.map (·.take 256)
          bytes := decoded }
        { w with leaves := w.leaves ++ [leaf], anomalies := anomalies }

/-- Where the first leaf of a type is that is not an attachment. -/
def inlineAt (leaves : List Leaf) (type : String) : Option ℕ :=
  leaves.findIdx? fun leaf ↦
    !(text "attachment").isPrefixOf leaf.disposition && leaf.contentType.type = text type

/-- The leaves that are attachments: a leaf the body is read from is one only under a file name. -/
def attachmentsOf (leaves : List Leaf) (limits : MimeLimits) : List MailAttachment :=
  let bodies := [inlineAt leaves "text/plain", inlineAt leaves "text/html"]
  let attached := leaves.zipIdx.filter fun leaf ↦ !(some leaf.2 ∈ bodies && leaf.1.filename.isNone)
  (attached.take limits.maxAttachments).map fun leaf ↦
    ⟨leaf.1.filename, leaf.1.contentType.type, leaf.1.bytes.length⟩

/-- The text of a message, and whether it was HTML. -/
def bodyText (leaves : List Leaf) : Text × Bool :=
  match (inlineAt leaves "text/plain").bind (leaves[·]?),
    (inlineAt leaves "text/html").bind (leaves[·]?) with
  | some plain, _ => (decodeCharset platform plain.bytes (plain.contentType.param "charset"), false)
  | none, some html =>
    (htmlToText platform (decodeCharset platform html.bytes (html.contentType.param "charset")), true)
  | none, none => ([], false)

def deliveredHeaders : List Text :=
  [text "delivered-to", text "x-original-to", text "envelope-to", text "x-forwarded-to"]

def deliveredTo (headers : List Header) (limits : MimeLimits) : List Text :=
  let addresses := deliveredHeaders.flatMap fun name ↦ (all headers name).flatMap fun value ↦
    (parseAddressList platform (some value) limits).filterMap (·.address)
  addresses.foldl (fun out a ↦ if a ∈ out then out else out ++ [a]) []

/-- `levels` is how much deeper an embedded message is still parsed. -/
def parseMessageAt (limits : MimeLimits) (levels : ℕ) (raw : List UInt8) : ParsedMessage :=
  let truncated := limits.maxBytes < raw.length
  let entity := parseEntity platform (raw.take limits.maxBytes) limits
  let anomalies := entity.anomalies ++ (if truncated then [.truncated] else []) ++
    (if raw = [] then [.emptyMessage] else [])
  let walked := walk platform limits limits.maxDepth entity ⟨[], none, anomalies⟩
  let (body, html) := bodyText platform walked.leaves
  let anomalies := walked.anomalies ++
    (if limits.maxTextChars < body.length then [.textClipped] else [])
  let (subject, anomalies) := first entity.headers (text "subject") anomalies
  let (dateHeader, anomalies) := first entity.headers (text "date") anomalies
  let date := rfc3339FromMailDate platform dateHeader
  let anomalies :=
    if date = none then
      let (dateHeader, anomalies) := first entity.headers (text "date") anomalies
      if dateHeader = none then anomalies else anomalies ++ [.unparseableDate]
    else anomalies
  let (sender, anomalies) := first entity.headers (text "from") anomalies
  let (recipients, anomalies) := first entity.headers (text "to") anomalies
  let (copied, anomalies) := first entity.headers (text "cc") anomalies
  let (replyTo, anomalies) := first entity.headers (text "reply-to") anomalies
  let (messageId, anomalies) := first entity.headers (text "message-id") anomalies
  let (inReplyTo, anomalies) := first entity.headers (text "in-reply-to") anomalies
  let (references, anomalies) := first entity.headers (text "references") anomalies
  { subject := subject.map fun s ↦ (decodeEncodedWords platform s).take limits.maxTextChars
    «from» := parseAddressList platform sender limits
    «to» := parseAddressList platform recipients limits
    cc := parseAddressList platform copied limits
    replyTo := parseAddressList platform replyTo limits
    deliveredTo := deliveredTo platform entity.headers limits
    date := date
    messageId := normalizeMessageId platform messageId
    inReplyTo := normalizeMessageId platform inReplyTo
    references := parseReferences platform references limits
    text := body.take limits.maxTextChars
    textLength := body.length
    html := html
    attachments := attachmentsOf walked.leaves limits
    embedded :=
      match levels, walked.embedded with
      | levels + 1, some raw => some (parseMessageAt limits levels raw)
      | _, _ => none
    rawBytes := raw.length
    truncated := truncated
    anomalies := (anomalies.map Anomaly.token).dedup.insertionSort (· ≤ ·)
    observedAuthResults := (all entity.headers (text "authentication-results")).map (·.take 512) }

def parseMessage (raw : List UInt8) (limits : MimeLimits) : ParsedMessage :=
  parseMessageAt platform limits limits.maxDepth raw

end

/-- What no message makes the parser keep more of than its limits say, embedded ones included. -/
inductive Limited (limits : MimeLimits) : ParsedMessage → Prop
  | mk {m : ParsedMessage}
      (addresses : ∀ list ∈ [m.from, m.to, m.cc, m.replyTo], list.length ≤ limits.maxAddresses)
      (references : m.references.length ≤ limits.maxReferences)
      (subject : ∀ s ∈ m.subject, s.length ≤ limits.maxTextChars)
      (body : m.text.length ≤ limits.maxTextChars)
      (attachments : m.attachments.length ≤ limits.maxAttachments)
      (embedded : ∀ inner ∈ m.embedded, Limited limits inner) : Limited limits m

section

variable {platform : Platform} {limits : MimeLimits}

theorem length_parseAddressList_le (raw : Option Text) :
    (parseAddressList platform raw limits).length ≤ limits.maxAddresses := by
  cases raw with
  | none => exact Nat.zero_le _
  | some raw =>
    rw [parseAddressList, List.length_map, List.length_take]
    exact min_le_left _ _

theorem length_collectIds_le (cut : Text → Text) (tokens : List Text) :
    (collectIds platform limits cut tokens).length ≤ limits.maxReferences := by
  have hfold : ∀ (tokens out : List Text), out.length ≤ limits.maxReferences →
      (tokens.foldl (fun out token ↦
        let id := stripInvalid platform token
        if limits.maxReferences ≤ out.length ∨ id = [] ∨ id ∈ out then out else out ++ [cut id])
        out).length ≤ limits.maxReferences := by
    intro tokens
    induction tokens with
    | nil => exact fun _ h ↦ h
    | cons token tokens ih =>
      intro out hout
      apply ih _
      dsimp only
      split
      · exact hout
      · next hroom =>
        rw [List.length_append, List.length_singleton]
        omega
  exact hfold tokens [] (Nat.zero_le _)

theorem length_parseReferences_le (raw : Option Text) :
    (parseReferences platform raw limits).length ≤ limits.maxReferences := by
  cases raw with
  | none => exact Nat.zero_le _
  | some raw =>
    rw [parseReferences]
    split
    · exact length_collectIds_le _ _
    · exact length_collectIds_le _ _

theorem length_attachmentsOf_le (leaves : List Leaf) :
    (attachmentsOf leaves limits).length ≤ limits.maxAttachments := by
  rw [attachmentsOf, List.length_map, List.length_take]
  exact min_le_left _ _

theorem limited_of_embedded {levels : ℕ} {raw : List UInt8}
    (h : ∀ inner ∈ (parseMessageAt platform limits levels raw).embedded, Limited limits inner) :
    Limited limits (parseMessageAt platform limits levels raw) := by
  refine .mk ?_ ?_ ?_ ?_ ?_ h
  all_goals unfold parseMessageAt
  · intro list hlist
    simp only [List.mem_cons, List.not_mem_nil, or_false] at hlist
    rcases hlist with rfl | rfl | rfl | rfl
    all_goals exact length_parseAddressList_le _
  · exact length_parseReferences_le _
  · intro s hs
    obtain ⟨subject, -, rfl⟩ := Option.mem_map.1 hs
    rw [List.length_take]
    exact min_le_left _ _
  · rw [List.length_take]
    exact min_le_left _ _
  · exact length_attachmentsOf_le _

theorem parseMessageAt_limited (levels : ℕ) (raw : List UInt8) :
    Limited limits (parseMessageAt platform limits levels raw) := by
  induction levels generalizing raw with
  | zero =>
    apply limited_of_embedded
    intro inner hinner
    unfold parseMessageAt at hinner
    cases hinner
  | succ levels ih =>
    apply limited_of_embedded
    intro inner hinner
    unfold parseMessageAt at hinner
    dsimp only at hinner
    split at hinner
    · next raw' hlevels hraw =>
      obtain rfl := Nat.succ.inj hlevels
      obtain rfl := Option.some.inj hinner
      exact ih _
    · cases hinner

end

/-- No message gets past the limits. -/
theorem parseMessage_limited (platform : Platform) (raw : List UInt8) (limits : MimeLimits) :
    Limited limits (parseMessage platform raw limits) := parseMessageAt_limited _ _

end Servanda.Mime
