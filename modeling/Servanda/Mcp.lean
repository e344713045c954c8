import Servanda.Tools

/-!
The tool server: one line in, at most one line out, and the vault the call between them leaves.
-/

namespace Servanda

open Unicode JsonRpc

/-- What the server runs over: the node's primitives, and the texts and values of what its tools
throw and return. -/
structure McpServer where
  crypto : Crypto
  briefSlots : ℕ
  -- `JSON.parse`, with nothing for an exception
  jsonParse : Text → Option Value
  decodeCursor : Text → Option PageCursor
  expectationId : Expectation → Sha256Hex
  present : ToolOutput → Value
  describe : ToolError → Text

namespace McpServer

open Tools

def supportedProtocolVersions : List Text :=
  [text "2025-11-25", text "2025-06-18", text "2024-11-05"]

def serverInfo : Value :=
  .obj [(text "name", str "servanda-node"), (text "version", str "0.5.2-pre")]

def negative (n : ℕ) : JsNumber where
  digits := '-' :: (JsNumber.ofNat n).digits
  numeric := ⟨List.cons_ne_nil _ _, List.forall_mem_cons.mpr
    ⟨.inr (by simp), (JsNumber.ofNat n).numeric.2⟩⟩

def methodNotFound : Value := .num (negative 32601)

def invalidParams : Value := .num (negative 32602)

def internalError : Value := .num (negative 32603)

def textBlock (s : Text) : Value := .obj [(text "type", str "text"), (text "text", .str s)]

def ok (id result : Value) : Value :=
  .obj [(text "jsonrpc", str "2.0"), (text "id", id), (text "result", result)]

def fail (id code : Value) (message : Text) : Value :=
  .obj [(text "jsonrpc", str "2.0"), (text "id", id),
    (text "error", .obj [(text "code", code), (text "message", .str message)])]

def initializeResult (params : Option Value) : Value :=
  let version := match params.bind fun v ↦ v.member (text "protocolVersion") with
    | some (.str requested) =>
      if requested ∈ supportedProtocolVersions then requested else text "2025-11-25"
    | _ => text "2025-11-25"
  .obj [(text "protocolVersion", .str version),
    (text "capabilities", .obj [(text "tools", .obj [])]),
    (text "serverInfo", serverInfo),
    (text "instructions", .str (text "Servanda node (§7). " ++
      units (Nat.toDigits 10 toolDefinitions.length) ++ text " tools: " ++ toolNames ++
      text (". A promise is owned by its giver — use `expect` for what someone else said they" ++
        " would do.")))]

def toolsList : Value :=
  .obj [(text "tools", .arr (toolDefinitions.map fun t ↦
    .obj [(text "name", .str t.name), (text "description", .str t.description),
      (text "inputSchema", t.inputSchema)]))]

/-- The result of a tool that refuses. -/
def toolError (message : Text) : Value :=
  .obj [(text "content", .arr [textBlock message]), (text "isError", .bool true)]

def toolResult (result : Value) : Value :=
  .obj [(text "content", .arr [textBlock (units result.stringify)]),
    (text "structuredContent", result), (text "isError", .bool false)]

variable (server : McpServer)

def message : ToolError → Text
  | .unknownTool name =>
    text "no such tool: " ++ name ++ text ". §7 defines exactly " ++ toolNames
  | .foreignOwner => text ("M-1: a promise is owned by its giver. `commit` records the calling" ++
      " persona’s own promise and takes no `owner`; use `expect` for what someone else said they" ++
      " would do.")
  | error => server.describe error

/-- The tool that a call names, on its arguments. -/
def tool (now : Rfc3339) (node : ServandaNode) (name : Text) (params : Option Value) :
    ServandaNode × Except ToolError ToolOutput :=
  Tools.callTool server.crypto server.briefSlots server.decodeCursor server.expectationId now node
    name (params.bind fun v ↦ v.member (text "arguments"))

def toolName (params : Option Value) : Option Text :=
  (params.bind fun v ↦ v.member (text "name")).bind ToolInput.string

def callTool (now : Rfc3339) (node : ServandaNode) (params : Option Value) :
    ServandaNode × Value :=
  match toolName params with
  | none => (node, toolError (text "tools/call requires a string `name`"))
  | some name =>
    let r := server.tool now node name params
    (r.1, match r.2 with
      | .ok output => toolResult (server.present output)
      | .error error => toolError (server.message error))

/-- What is answered to a method that is none. The name is converted in the message, and may be an
object that throws there. -/
def noMethod (id : Value) (method : Option Value) : Value :=
  match method.elim (some (text "undefined")) Value.asString with
  | some name => fail id methodNotFound (text "method not found: " ++ name)
  | none => fail id internalError (text "Cannot convert object to primitive value")

/-- The answer to a message with an id. -/
def respond (now : Rfc3339) (node : ServandaNode) (id : Value) (method params : Option Value) :
    ServandaNode × Value :=
  let name := method.bind ToolInput.string
  if name = some (text "initialize") then (node, ok id (initializeResult params))
  else if name = some (text "ping") then (node, ok id (.obj []))
  else if name = some (text "tools/list") then (node, ok id toolsList)
  else if name = some (text "tools/call") then
    ((server.callTool now node params).1, ok id (server.callTool now node params).2)
  else (node, noMethod id method)

/-- `none` where an exception leaves the handler: no member can be read of `null`. -/
def handle (now : Rfc3339) (node : ServandaNode) (message : Value) :
    Option (ServandaNode × Option Value) :=
  if message.isNull then none
  else match message.member (text "id") with
    | none => some (node, none)
    | some id =>
      let r := server.respond now node id (message.member (text "method"))
        (message.member (text "params"))
      some (r.1, some r.2)

/-- One line, and the responses it is answered with: `none` where an exception leaves its handler. -/
def onLine (now : Rfc3339) (node : ServandaNode) (line : Text) :
    Option (ServandaNode × List Value) :=
  if Scan.trim line = [] then some (node, [])
  else match server.jsonParse (Scan.trim line) with
    | none => some (node, [fail (integer 0) invalidParams (text "parse error")])
    | some message =>
      (server.handle now node message).map fun r ↦ (r.1, r.2.toList)

/-- The lines of a stream, each at the instant it is handled: the responses that are written, and
whether the last of the lines was reached. -/
def serve (node : ServandaNode) : List (Rfc3339 × Text) → ServandaNode × List Value × Bool
  | [] => (node, [], true)
  | (now, line) :: lines =>
    match server.onLine now node line with
    | none => (node, [], false)
    | some (next, responses) =>
      let rest := serve next lines
      (rest.1, responses ++ rest.2.1, rest.2.2)

/-- The call that a message holds, by its name and its arguments, where it is answered. -/
def called (message : Value) : Option (Text × Option Value) :=
  if (message.member (text "id")).isSome ∧
      (message.member (text "method")).bind ToolInput.string = some (text "tools/call") then
    (toolName (message.member (text "params"))).map fun name ↦
      (name, (message.member (text "params")).bind fun v ↦ v.member (text "arguments"))
  else none

/-- A response that reports an error, of the protocol or of the tool it called. -/
def isError (response : Value) : Bool :=
  (response.member (text "error")).isSome ||
    match (response.member (text "result")).bind fun v ↦ v.member (text "isError") with
    | some (.bool b) => b
    | _ => false

/-- The message on a line, if it is JSON. -/
def Holds (line : Text) (message : Value) : Prop :=
  Scan.trim line ≠ [] ∧ server.jsonParse (Scan.trim line) = some message

/-- The responses a line is to have. -/
structure Answered (line : Text) (responses : List Value) : Prop where
  blank : Scan.trim line = [] → responses = []
  unparsed : Scan.trim line ≠ [] → server.jsonParse (Scan.trim line) = none →
    ∃ r, responses = [r] ∧ (r.member (text "error")).isSome
  notification : ∀ message, server.Holds line message → message.member (text "id") = none →
    responses = []
  request : ∀ message id, server.Holds line message → message.member (text "id") = some id →
    ∃ r, responses = [r] ∧ r.written.member (text "id") = some id
  oneLine : ∀ r ∈ responses, '\n' ∉ r.stringify

/-- No exception leaves the handler of a line, the line is answered as it is to be, and the vault is
as it was where that is with an error. -/
def Survived (now : Rfc3339) (node : ServandaNode) (line : Text) : Prop :=
  ∃ next responses, server.onLine now node line = some (next, responses) ∧
    server.Answered line responses ∧ ((∃ r ∈ responses, isError r = true) → next = node)

/-- What a line may not be, in the state it comes to. -/
structure Manageable (now : Rfc3339) (node : ServandaNode) (line : Text) : Prop where
  notNull : ∀ message, server.Holds line message → message.isNull = false
  writable : ∀ message id, server.Holds line message → message.member (text "id") = some id →
    id.written = id
  unstranded : ∀ message name args input persona edge held, server.Holds line message →
    called message = some (name, args) → commitInput name args = some input →
    ¬ServandaNode.Strands server.crypto now node input persona edge held

/-- Each line has the property, in the state that the lines before it left. -/
def Along (P : Rfc3339 → ServandaNode → Text → Prop) (node : ServandaNode) :
    List (Rfc3339 × Text) → Prop
  | [] => True
  | (now, line) :: lines => P now node line ∧ ∀ next responses,
      server.onLine now node line = some (next, responses) → Along P next lines

/-- Every line of a stream survives, and the last of them is reached. -/
structure Survives (node : ServandaNode) (lines : List (Rfc3339 × Text)) : Prop where
  each : server.Along server.Survived node lines
  reached : (server.serve node lines).2.2 = true

section Lines

variable {server} {now : Rfc3339} {node : ServandaNode} {id result : Value}

theorem ok_id : (ok id result).written.member (text "id") = some id.written := rfl

theorem fail_id {code : Value} {message : Text} :
    (fail id code message).written.member (text "id") = some id.written := rfl

theorem isError_toolResult {v : Value} : isError (ok id (toolResult v)) = false := rfl

theorem isError_toolError {message : Text} : isError (ok id (toolError message)) = true := rfl

theorem noMethod_id {method : Option Value} :
    (noMethod id method).written.member (text "id") = some id.written := by
  unfold noMethod
  cases method.elim (some (text "undefined")) Value.asString <;> rfl

theorem respond_id {method params : Option Value} :
    (server.respond now node id method params).2.written.member (text "id") = some id.written := by
  unfold respond
  dsimp only
  split_ifs
  · exact ok_id
  · exact ok_id
  · exact ok_id
  · exact ok_id
  · exact noMethod_id

theorem callTool_kept_iff {params : Option Value} :
    (isError (ok id (server.callTool now node params).2) = true →
        (server.callTool now node params).1 = node) ↔
      ∀ name, toolName params = some name →
        ServandaNode.Untouched node (server.tool now node name params) := by
  unfold callTool
  cases hname : toolName params with
  | none => exact iff_of_true (fun _ ↦ rfl) nofun
  | some name =>
    dsimp only
    cases hresult : (server.tool now node name params).2 with
    | ok output =>
      refine iff_of_true (fun h ↦ ?_) fun name' hname' e he ↦ ?_
      · rw [isError_toolResult] at h
        exact absurd h Bool.false_ne_true
      · obtain rfl : name = name' := Option.some.inj hname'
        rw [hresult] at he
        cases he
    | error error =>
      constructor
      · intro h name' hname' _ _
        obtain rfl : name = name' := Option.some.inj hname'
        exact h isError_toolError
      · exact fun h _ ↦ h name rfl error hresult

/-- What an error leaves of the vault, for a message that is answered. -/
theorem respond_kept_iff {message : Value} (hid : message.member (text "id") = some id) :
    (isError (server.respond now node id (message.member (text "method"))
        (message.member (text "params"))).2 = true →
      (server.respond now node id (message.member (text "method"))
        (message.member (text "params"))).1 = node) ↔
      ∀ name args input persona edge held, called message = some (name, args) →
        commitInput name args = some input →
        ¬ServandaNode.Strands server.crypto now node input persona edge held := by
  unfold respond called
  simp only [hid, Option.isSome_some, true_and]
  by_cases hmethod : (message.member (text "method")).bind ToolInput.string = some (text "tools/call")
  · rw [hmethod, if_neg (by decide), if_neg (by decide), if_neg (by decide), if_pos rfl, if_pos rfl]
    refine callTool_kept_iff.trans ?_
    constructor
    · intro h name args input persona edge held hcalled hinput
      obtain ⟨name', hname, heq⟩ := Option.map_eq_some_iff.mp hcalled
      obtain ⟨rfl, rfl⟩ := Prod.mk.inj heq
      exact callTool_untouched_iff.mp (h name' hname) input persona edge held hinput
    · intro h name hname
      refine callTool_untouched_iff.mpr fun input persona edge held hinput ↦ ?_
      exact h name _ input persona edge held (by rw [hname, Option.map_some]) hinput
  · rw [if_neg hmethod, if_neg hmethod]
    refine iff_of_true (fun _ ↦ ?_) fun _ _ _ _ _ _ hcalled ↦ nomatch hcalled
    split_ifs <;> rfl

theorem onLine_blank {line : Text} (h : Scan.trim line = []) :
    server.onLine now node line = some (node, []) := if_pos h

theorem onLine_unparsed {line : Text} (h : Scan.trim line ≠ [])
    (hparse : server.jsonParse (Scan.trim line) = none) : server.onLine now node line =
      some (node, [fail (integer 0) invalidParams (text "parse error")]) := by
  rw [onLine, if_neg h, hparse]

theorem onLine_holds {line : Text} {message : Value} (h : server.Holds line message) :
    server.onLine now node line =
      (server.handle now node message).map fun r ↦ (r.1, r.2.toList) := by
  rw [onLine, if_neg h.1, h.2]

theorem handle_null {message : Value} (h : message.isNull = true) :
    server.handle now node message = none := if_pos h

theorem handle_notification {message : Value} (h : message.isNull = false)
    (hid : message.member (text "id") = none) :
    server.handle now node message = some (node, none) := by
  rw [handle, h, if_neg Bool.false_ne_true, hid]

theorem handle_request {message : Value} (hid : message.member (text "id") = some id) :
    server.handle now node message =
      some ((server.respond now node id (message.member (text "method"))
        (message.member (text "params"))).1,
        some (server.respond now node id (message.member (text "method"))
          (message.member (text "params"))).2) := by
  have hnull : message.isNull = false := by
    cases message with
    | null => cases hid
    | _ => rfl
  rw [handle, hnull, if_neg Bool.false_ne_true, hid]

theorem Survived.manageable {line : Text} (h : server.Survived now node line) :
    server.Manageable now node line := by
  obtain ⟨next, responses, honLine, hanswered, hkept⟩ := h
  have hnull {message : Value} (hholds : server.Holds line message) : message.isNull = false := by
    rw [onLine_holds hholds] at honLine
    by_contra hnull
    rw [handle_null (by simpa using hnull)] at honLine
    cases honLine
  have hrequest {message id : Value} (hholds : server.Holds line message)
      (hid : message.member (text "id") = some id) :
      next = (server.respond now node id (message.member (text "method"))
          (message.member (text "params"))).1 ∧
        responses = [(server.respond now node id (message.member (text "method"))
          (message.member (text "params"))).2] := by
    rw [onLine_holds hholds, handle_request hid] at honLine
    exact ⟨(congrArg Prod.fst (Option.some.inj honLine)).symm,
      (congrArg Prod.snd (Option.some.inj honLine)).symm⟩
  refine ⟨fun message ↦ hnull, ?_, ?_⟩
  · intro message id hholds hid
    obtain ⟨r, hr, hcarries⟩ := hanswered.request message id hholds hid
    rw [(hrequest hholds hid).2] at hr
    obtain rfl := List.singleton_inj.mp hr
    exact Option.some.inj (respond_id.symm.trans hcarries)
  · intro message name args input persona edge held hholds hcalled hinput
    obtain ⟨id, hid⟩ : ∃ id, message.member (text "id") = some id := by
      rw [called] at hcalled
      split_ifs at hcalled with hanswers
      exact Option.isSome_iff_exists.mp hanswers.1
    obtain ⟨rfl, rfl⟩ := hrequest hholds hid
    refine (respond_kept_iff hid).mp (fun herror ↦ ?_) name args input persona edge held hcalled
      hinput
    exact hkept ⟨_, List.mem_singleton_self _, herror⟩

theorem Manageable.survived {line : Text} (h : server.Manageable now node line) :
    server.Survived now node line := by
  by_cases hblank : Scan.trim line = []
  · refine ⟨node, [], onLine_blank hblank, ⟨fun _ ↦ rfl, ?_, ?_, ?_, ?_⟩, fun _ ↦ rfl⟩
    · exact fun hne ↦ absurd hblank hne
    · exact fun message hholds ↦ absurd hblank hholds.1
    · exact fun message id hholds ↦ absurd hblank hholds.1
    · exact fun r hr ↦ nomatch hr
  cases hparse : server.jsonParse (Scan.trim line) with
  | none =>
    have hnone {message : Value} (hholds : server.Holds line message) : False :=
      absurd (hparse.symm.trans hholds.2) nofun
    refine ⟨node, _, onLine_unparsed hblank hparse, ⟨fun h ↦ absurd h hblank, ?_, ?_, ?_, ?_⟩,
      fun _ ↦ rfl⟩
    · exact fun _ _ ↦ ⟨_, rfl, rfl⟩
    · exact fun message hholds ↦ (hnone hholds).elim
    · exact fun message id hholds ↦ (hnone hholds).elim
    · exact fun r _ ↦ r.newline_notMem_stringify
  | some message =>
    have hholds : server.Holds line message := ⟨hblank, hparse⟩
    have hunique {message' : Value} (h : server.Holds line message') : message' = message :=
      Option.some.inj (h.2.symm.trans hparse)
    cases hid : message.member (text "id") with
    | none =>
      refine ⟨node, [], ?_, ⟨fun _ ↦ rfl, ?_, fun _ _ _ ↦ rfl, ?_, ?_⟩, fun _ ↦ rfl⟩
      · rw [onLine_holds hholds, handle_notification (h.notNull message hholds) hid]
        rfl
      · exact fun _ hnone ↦ absurd (hparse.symm.trans hnone) nofun
      · intro message' id' hholds' hid'
        rw [hunique hholds', hid] at hid'
        cases hid'
      · exact fun r hr ↦ nomatch hr
    | some id =>
      refine ⟨_, _, by rw [onLine_holds hholds, handle_request hid]; rfl,
        ⟨fun h ↦ absurd h hblank, ?_, ?_, ?_, ?_⟩, ?_⟩
      · exact fun _ hnone ↦ absurd (hparse.symm.trans hnone) nofun
      · intro message' hholds' hid'
        rw [hunique hholds', hid] at hid'
        cases hid'
      · intro message' id' hholds' hid'
        rw [hunique hholds', hid] at hid'
        obtain rfl : id = id' := Option.some.inj hid'
        refine ⟨_, rfl, respond_id.trans ?_⟩
        rw [h.writable message id hholds hid]
      · exact fun r _ ↦ r.newline_notMem_stringify
      · rintro ⟨r, hr, herror⟩
        obtain rfl := List.mem_singleton.mp hr
        exact (respond_kept_iff hid).mpr (fun name args input persona edge held ↦
          h.unstranded message name args input persona edge held hholds) herror

theorem Along.mono {P Q : Rfc3339 → ServandaNode → Text → Prop}
    (hPQ : ∀ now node line, P now node line → Q now node line) {lines : List (Rfc3339 × Text)}
    (h : server.Along P node lines) : server.Along Q node lines := by
  induction lines generalizing node with
  | nil => trivial
  | cons line lines ih =>
    exact ⟨hPQ _ _ _ h.1, fun next responses honLine ↦ ih (h.2 next responses honLine)⟩

theorem Along.reached {lines : List (Rfc3339 × Text)} (h : server.Along server.Survived node lines) :
    (server.serve node lines).2.2 = true := by
  induction lines generalizing node with
  | nil => rfl
  | cons line lines ih =>
    obtain ⟨next, responses, honLine, -⟩ := h.1
    rw [serve, honLine]
    exact ih (h.2 next responses honLine)

end Lines

/-- A stream of lines is survived just where each line is one that the server can manage, in the
state it comes to. -/
theorem survives_iff (server : McpServer) (node : ServandaNode) (lines : List (Rfc3339 × Text)) :
    server.Survives node lines ↔ server.Along server.Manageable node lines :=
  ⟨fun h ↦ h.each.mono fun _ _ _ ↦ Survived.manageable,
    fun h ↦ ⟨h.mono fun _ _ _ ↦ Manageable.survived,
      (h.mono fun _ _ _ ↦ Manageable.survived).reached⟩⟩

end McpServer

namespace Sample

/-- A server whose parser knows one text: `null`. -/
def nullServer : McpServer where
  crypto := crypto
  briefSlots := 5
  jsonParse s := if s = text "null" then some .null else none
  decodeCursor _ := none
  expectationId _ := 0
  present _ := .obj []
  describe _ := []

end Sample

open Sample StoreInvariant in
/-- No member can be read of a message that is `null`, and no line after it is handled. -/
theorem null_message_escapes :
    nullServer.serve creditorNode.node [(date 3 1 9, text "null"), (date 3 1 9, text "")] =
        (creditorNode.node, [], false) ∧
      ¬nullServer.Survives creditorNode.node
        [(date 3 1 9, text "null"), (date 3 1 9, text "")] := by
  have htrim : Scan.trim (text "null") = text "null" := by decide
  have hholds : nullServer.Holds (text "null") .null := by
    refine ⟨by decide, ?_⟩
    simp only [nullServer, htrim, if_true]
  have honLine : nullServer.onLine (date 3 1 9) creditorNode.node (text "null") = none := by
    rw [McpServer.onLine_holds hholds, McpServer.handle_null rfl]
    rfl
  refine ⟨by rw [McpServer.serve, honLine], fun h ↦ ?_⟩
  obtain ⟨next, responses, hsome, -⟩ := h.each.1
  exact absurd (honLine.symm.trans hsome) nofun

end Servanda
