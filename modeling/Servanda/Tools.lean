import Servanda.Envelope
import Servanda.JsonRpc
import Servanda.Scan
import Servanda.Surface

/-!
The six tools: what they are offered as, how their arguments are read, and what a call leaves in
the vault.
-/

namespace Servanda

open Unicode JsonRpc

/-- A tool's refusal: what it throws. -/
inductive ToolError
  | unknownTool (name : Text)
  /-- The arguments have a member `owner`. -/
  | foreignOwner
  | invalidInput
  | notAnId
  | node (error : NodeError)
  | openLoops (error : OpenLoopsError)

inductive ToolOutput
  | commit (output : CommitOutput)
  | expect (expectationId : Sha256Hex)
  | confirm (output : ConfirmOutput)
  | openLoops (output : OpenLoopsOutput)
  | brief (output : BriefOutput)
  | act (output : ActOutput)

namespace ServandaNode

/-- A call that is refused leaves the node as it was. -/
def Untouched {ε α : Type} (node : ServandaNode) (r : ServandaNode × Except ε α) : Prop :=
  ∀ e, r.2 = .error e → r.1 = node

/-- A call of `commit` whose edge the vault refuses, after its commitment was written: an edge is
held under the identifier of the one it proposes, and with another body. -/
structure Strands (crypto : Crypto) (now : Rfc3339) (node : ServandaNode) (input : CommitInput)
    (persona : PublicKeyHex) (edge held : Edge) : Prop where
  owner : input.namesOwner = false
  resolves : node.resolvePersona input.persona = some persona
  mem : persona ∈ node.personas
  proposed : proposedEdge crypto now persona input = some edge
  getEdge : (node.vault persona).getEdge edge.edgeId = some held
  body : crypto.hashCanonical (.edge held) ≠ crypto.hashCanonical (.edge edge)
  unrecorded : (node.vault persona).getCommitment
    (crypto.commitmentHash (committed now persona input).toCommitmentHashInput) ≠
      some (committed now persona input)

section Refusals

variable {ε α : Type} {crypto : Crypto} {now : Rfc3339} {node : ServandaNode}

theorem Untouched.refused (r : Except ε α) : Untouched node (node, r) := fun _ _ ↦ rfl

theorem Untouched.ok (next : ServandaNode) (a : α) :
    Untouched node ((next, .ok a) : ServandaNode × Except ε α) := fun _ h ↦ nomatch h

theorem withVault_eq_self_iff {persona : PublicKeyHex} {s : Subtree} :
    node.withVault persona s = node ↔ s = node.vault persona := by
  constructor
  · intro h
    have hvault := congrFun (congrArg ServandaNode.vault h) persona
    simpa [withVault] using hvault
  · rintro rfl
    rw [withVault, Function.update_eq_self]

theorem putCommitment_eq_self_iff {s : Subtree} {c : Commitment} : s.putCommitment crypto c = s ↔
    s.getCommitment (crypto.commitmentHash c.toCommitmentHashInput) = some c := by
  have hself := Directory.get?_put_self s.commitments
    (crypto.commitmentHash c.toCommitmentHashInput, c)
  constructor
  · intro h
    have hcommitments : s.commitments.put (_, c) = s.commitments := congrArg Subtree.commitments h
    rw [Subtree.getCommitment, ← hcommitments, hself, Option.map_some]
  · intro h
    obtain ⟨⟨hash, c'⟩, hget, hc⟩ := Option.map_eq_some_iff.mp h
    obtain rfl : c' = c := hc
    obtain rfl : hash = crypto.commitmentHash c'.toCommitmentHashInput := Directory.name_of_get? hget
    rw [Subtree.putCommitment, Directory.put_of_get? hget]

theorem putEdge_eq_none_iff {persona : PublicKeyHex} {input : CommitInput} {s : Subtree}
    {edge : Edge} (hedge : proposedEdge crypto now persona input = some edge) :
    s.putEdge crypto edge = none ↔ ∃ held, s.getEdge edge.edgeId = some held ∧
      crypto.hashCanonical (.edge held) ≠ crypto.hashCanonical (.edge edge) := by
  obtain ⟨hbinds, -⟩ := Transitions.edgeMalformed_eq_none_iff.mp
    (StoreInvariant.AllStored.proposedEdge_spec hedge).1
  rw [Subtree.putEdge, hbinds]
  cases s.getEdge edge.edgeId <;> simp

theorem commit_untouched_iff {input : CommitInput} :
    Untouched node (node.commit crypto now input) ↔
      ∀ persona edge held, ¬Strands crypto now node input persona edge held := by
  unfold commit
  by_cases howner : input.namesOwner = true
  · rw [if_pos howner]
    exact iff_of_true (.refused _) fun persona edge held h ↦ by simp [h.owner] at howner
  rw [if_neg howner]
  cases hresolves : node.resolvePersona input.persona with
  | none => exact iff_of_true (.refused _) fun _ _ _ h ↦ by simp [h.resolves] at hresolves
  | some persona =>
  dsimp only
  by_cases hmem : persona ∈ node.personas
  swap
  · rw [if_pos hmem]
    refine iff_of_true (.refused _) fun _ _ _ h ↦ hmem ?_
    rw [Option.some.inj (hresolves.symm.trans h.resolves)]
    exact h.mem
  rw [if_neg (not_not.mpr hmem)]
  have hinj {persona' : PublicKeyHex} {edge held : Edge}
      (h : Strands crypto now node input persona' edge held) : persona' = persona :=
    Option.some.inj (h.resolves.symm.trans hresolves)
  cases hedge : proposedEdge crypto now persona input with
  | none =>
    refine iff_of_true (.ok _ _) fun persona' edge held h ↦ ?_
    have hproposed := h.proposed
    rw [hinj h, hedge] at hproposed
    cases hproposed
  | some edge =>
  dsimp only
  cases hput : ((node.vault persona).putCommitment crypto
      (committed now persona input)).putEdge crypto edge with
  | some s =>
    refine iff_of_true (.ok _ _) fun persona' edge' held h ↦ ?_
    obtain rfl := hinj h
    obtain rfl : edge = edge' := Option.some.inj (hedge.symm.trans h.proposed)
    have hnone : ((node.vault persona').putCommitment crypto
        (committed now persona' input)).putEdge crypto edge = none :=
      (putEdge_eq_none_iff hedge).mpr ⟨held, h.getEdge, h.body⟩
    exact absurd (hnone.symm.trans hput) nofun
  | none =>
    obtain ⟨held, hget, hbody⟩ := (putEdge_eq_none_iff hedge).mp hput
    constructor
    · intro h persona' edge' held' hstrands
      obtain rfl := hinj hstrands
      exact hstrands.unrecorded
        (putCommitment_eq_self_iff.mp (withVault_eq_self_iff.mp (h _ rfl)))
    · rintro h - -
      refine withVault_eq_self_iff.mpr (putCommitment_eq_self_iff.mpr (not_not.mp fun hun ↦ ?_))
      exact h persona edge held ⟨by simpa using howner, hresolves, hmem, hedge, hget, hbody, hun⟩

theorem expect_untouched (expectationId : Expectation → Sha256Hex) (input : ExpectInput) :
    Untouched node (node.expect expectationId now input) := by
  unfold expect
  dsimp only
  by_cases hmem : node.activePersona ∉ node.personas
  · rw [if_pos hmem]
    exact .refused _
  · rw [if_neg hmem]
    exact .ok _ _

theorem confirmPending_untouched {persona : PublicKeyHex} (input : ConfirmInput) :
    Untouched node (node.confirmPending crypto persona input) := by
  unfold confirmPending
  cases node.getPending persona input.id with
  | none => exact .refused _
  | some pending =>
    dsimp only
    by_cases hdismiss : input.decision = .dismiss
    · rw [if_pos hdismiss]
      exact .ok _ _
    rw [if_neg hdismiss]
    cases pending.candidate with
    | expectation e => exact .ok _ _
    | commitment c =>
      dsimp only
      by_cases howner : c.owner ≠ persona
      · rw [if_pos howner]
        exact .refused _
      · rw [if_neg howner]
        exact .ok _ _

theorem confirmEdge_untouched {persona : PublicKeyHex} (input : ConfirmInput) :
    Untouched node (node.confirmEdge crypto now persona input) := by
  unfold confirmEdge
  dsimp only
  cases (node.vault persona).getEdge input.id with
  | none => exact .refused _
  | some edge =>
    cases input.decision with
    | dismiss => exact .ok _ _
    | edit => exact .refused _
    | confirm =>
      dsimp only
      split_ifs
      · exact .refused _
      · exact .refused _
      · exact .refused _
      · exact .ok _ _
      · exact .ok _ _

theorem confirm_untouched (input : ConfirmInput) :
    Untouched node (node.confirm crypto now input) := by
  unfold confirm
  cases node.locate input.id with
  | none => exact .refused _
  | some located =>
    obtain ⟨persona, kind⟩ := located
    cases kind with
    | pending => exact confirmPending_untouched input
    | commitment | edge | expectation => exact confirmEdge_untouched input

theorem act_untouched (input : ActInput) : Untouched node (node.act crypto now input) := by
  unfold act
  cases node.locate input.id with
  | none => exact .refused _
  | some located =>
    dsimp only
    cases (node.vault located.1).getEdge input.id with
    | none => exact .refused _
    | some edge =>
      dsimp only
      cases node.actRefusal crypto located.1 edge input with
      | some reason => exact .refused _
      | none =>
        dsimp only
        split_ifs
        · exact .refused _
        · exact .ok _ _

end Refusals

end ServandaNode

namespace ToolInput

/-- A text as the vault keeps it. -/
def stringOf (s : Text) : String := String.ofList (scalars s)

/-- The value of a text that spells a digest or a key. -/
def hexValue (s : Text) : BitVec 256 :=
  BitVec.ofNat 256 (s.foldl (fun n u ↦
    16 * n + (if u.toNat ≤ 0x39 then u.toNat - 0x30 else u.toNat - 0x57)) 0)

def counterparty (s : Text) : Counterparty :=
  if isHex64 s then .persona (hexValue s) else .label (stringOf s)

/-- No name, as an empty one, stands for the active persona. -/
def personaName : Option Text → Option PersonaName
  | none | some [] => none
  | some s => some (if isHex64 s then .key (hexValue s) else .label (stringOf s))

def string : Value → Option Text
  | .str s => some s
  | _ => none

def nonempty (v : Value) : Option Text := (string v).filter fun s ↦ s ≠ []

/-- A string of so many code units. -/
def bounded (least most : ℕ) (v : Value) : Option Text :=
  (string v).filter fun s ↦ least ≤ s.length ∧ s.length ≤ most

def rfc3339 (v : Value) : Option Rfc3339 := (string v).bind fun s ↦ Rfc3339.ofText? (scalars s)

def hex64 (v : Value) : Option Sha256Hex := ((string v).filter isHex64).map hexValue

def boolean : Value → Option Bool
  | .bool b => some b
  | _ => none

def optional {α : Type} (read : Value → Option α) (v : Value) : Option (Option α) :=
  (read v).map some

def nullable {α : Type} (read : Value → Option α) : Value → Option (Option α)
  | .null => some none
  | v => (read v).map some

/-- A member read by a schema, which is to be there. -/
def required {α : Type} (read : Value → Option α) (v : Value) (key : Text) : Option α :=
  (v.member key).bind read

/-- A member read by a schema, or its default where it is left out. -/
def withDefault {α : Type} (default : α) (read : Value → Option α) (v : Value) (key : Text) :
    Option α :=
  match v.member key with
  | none => some default
  | some member => read member

/-- A word of an enumeration. -/
def word {α : Type} (words : List (String × α)) (v : Value) : Option α :=
  (string v).bind fun s ↦ (words.find? fun w ↦ text w.1 = s).map Prod.snd

def commit (v : Value) : Option CommitInput := do
  guard v.isObject
  let intent ← required (bounded 1 500) v (text "intent")
  let owedTo ← required (nullable string) v (text "owed_to")
  let due ← required (nullable rfc3339) v (text "due")
  let persona ← withDefault none (nullable string) v (text "persona")
  let propose ← withDefault false boolean v (text "propose")
  some ⟨stringOf intent, owedTo.map counterparty, due, personaName persona, propose, false⟩

def expect (v : Value) : Option ExpectInput := do
  guard v.isObject
  let expect ← required nonempty v (text "expect")
  let promiser ← required nonempty v (text "from")
  let context ← withDefault none (nullable string) v (text "context")
  some ⟨stringOf expect, counterparty promiser, context.map stringOf⟩

def decisions : List (String × ConfirmDecision) :=
  [("confirm", .confirm), ("dismiss", .dismiss), ("edit", .edit)]

def edit (v : Value) : Option ConfirmEdit := do
  guard v.isObject
  let intent ← withDefault none (optional (bounded 1 500)) v (text "intent")
  let due ← withDefault none (optional rfc3339) v (text "due")
  some ⟨intent.map stringOf, due⟩

/-- The input of a decision, under the text that names what it is on. -/
def confirm (v : Value) : Option (Text × (Sha256Hex → ConfirmInput)) := do
  guard v.isObject
  let id ← required nonempty v (text "id")
  let decision ← required (word decisions) v (text "decision")
  let edit ← withDefault none (optional ToolInput.edit) v (text "edit")
  some (id, fun id ↦ ⟨id, decision, edit⟩)

def views : List (String × OpenLoopsView) :=
  [("owe", .owe), ("waiting", .waiting), ("closed", .closed), ("pending", .pending), ("all", .all)]

/-- An integer between one and five hundred. -/
def limit : Value → Option { n : ℕ // 0 < n }
  | .num n => (List.range 500).findSome? fun k ↦
    if n = JsNumber.ofNat (k + 1) then some ⟨k + 1, Nat.succ_pos k⟩ else none
  | _ => none

def openLoops (decodeCursor : Text → Option PageCursor) (v : Value) : Option OpenLoopsInput := do
  guard v.isObject
  let view ← withDefault .all (word views) v (text "view")
  let persona ← withDefault none (nullable string) v (text "persona")
  let limit ← withDefault ⟨50, by decide⟩ ToolInput.limit v (text "limit")
  let cursor ← withDefault none (nullable string) v (text "cursor")
  some ⟨view, personaName persona, limit.val, limit.property, cursor.map decodeCursor⟩

/-- The text that names a persona, if one does: none stands for all of them. -/
def brief (v : Value) : Option (Option Text) := do
  guard v.isObject
  withDefault none (nullable string) v (text "persona")

def acts : List (String × Act) :=
  [("done", .done), ("release", .release), ("expire", .expire), ("supersede", .supersede),
    ("delegate", .delegate), ("ping", .ping), ("confirm", .confirm), ("dismiss", .dismiss),
    ("propose", .propose)]

def act (v : Value) : Option (Text × (Sha256Hex → ActInput)) := do
  guard v.isObject
  let id ← required nonempty v (text "id")
  let act ← required (word acts) v (text "act")
  let evidenceHash ← withDefault none (nullable hex64) v (text "evidence_hash")
  some (id, fun id ↦ ⟨id, act, evidenceHash⟩)

end ToolInput

namespace Tools

/-- A word as a value. -/
def str (s : String) : Value := .str (text s)

def nullableString : Value := .obj [(text "type", .arr [str "string", str "null"])]

def typed (type : String) (rest : List (Text × Value)) : Value :=
  .obj ((text "type", str type) :: rest)

def integer (n : ℕ) : Value := .num (JsNumber.ofNat n)

structure ToolDefinition where
  name : Text
  description : Text
  inputSchema : Value

def objectSchema (properties : List (Text × Value)) (required : List String) : Value :=
  typed "object" <| (text "properties", .obj properties) ::
    (if required = [] then [] else [(text "required", .arr (required.map str))]) ++
    [(text "additionalProperties", .bool false)]

def toolDefinitions : List ToolDefinition := [
  { name := text "commit"
    description := text ("Record a promise you are making. The owner is always your persona (M-1)" ++
      " — for what someone else said they would do, use `expect`. `propose:true` requires" ++
      " `owed_to` to resolve to a persona; otherwise the record stays vault-local.")
    inputSchema := objectSchema
      [(text "intent", typed "string" [(text "maxLength", integer 500)]),
        (text "owed_to", nullableString), (text "due", nullableString),
        (text "persona", nullableString),
        (text "propose", typed "boolean" [(text "default", .bool false)])] ["intent"] },
  { name := text "expect"
    description := text ("Record what you are waiting on from someone else. Never appears in any" ++
      " wire message (ADR-0013); escalates only to you.")
    inputSchema := objectSchema
      [(text "expect", typed "string" []), (text "from", typed "string" []),
        (text "context", nullableString)] ["expect", "from"] },
  { name := text "confirm"
    description := text ("Decide on an inbound proposal or a queued extraction: confirm, dismiss," ++
      " or edit.")
    inputSchema := objectSchema
      [(text "id", typed "string" []),
        (text "decision",
          typed "string" [(text "enum", .arr (ToolInput.decisions.map fun w ↦ str w.1))]),
        (text "edit", typed "object"
          [(text "properties", .obj
            [(text "intent", typed "string" [(text "maxLength", integer 500)]),
              (text "due", typed "string" [])]),
            (text "additionalProperties", .bool false)])] ["id", "decision"] },
  { name := text "open_loops"
    description := text ("List what you owe, what you are waiting on, what is awaiting your" ++
      " decision, or what has closed. `total` is the size of the view; pass `next_cursor` back as" ++
      " `cursor` to read past `limit`.")
    inputSchema := objectSchema
      [(text "view", typed "string"
          [(text "enum", .arr (ToolInput.views.map fun w ↦ str w.1)), (text "default", str "all")]),
        (text "persona", nullableString),
        (text "limit", typed "integer"
          [(text "minimum", integer 1), (text "maximum", integer 500), (text "default", integer 50)]),
        (text "cursor", nullableString)] [] },
  { name := text "brief"
    description := text ("The attention market: what deserves attention now. `persona:null` orders" ++
      " across personas; each slot’s content comes from exactly one persona’s pipeline (M-5).")
    inputSchema := objectSchema [(text "persona", nullableString)] [] },
  { name := text "act"
    description := text ("Sign the act that closes a loop. `done` is the owner’s and records" ++
      " delivery; `release` is the counterparty’s and gives up the claim. Every other act on an" ++
      " item belongs to another tool or to no tool at all, and is refused here by name.")
    inputSchema := objectSchema
      [(text "id", typed "string" []),
        (text "act", typed "string" [(text "enum", .arr
          ((ToolInput.acts.filter fun w ↦ w.2.tool = some .act).map fun w ↦ str w.1))]),
        (text "evidence_hash", nullableString)] ["id", "act"] }]

/-- The names of the tools, as a text lists them. -/
def toolNames : Text := (text ", ").intercalate (toolDefinitions.map (·.name))

variable (crypto : Crypto) (briefSlots : ℕ) (decodeCursor : Text → Option PageCursor)
  (expectationId : Expectation → Sha256Hex)

/-- What a tool of the node answers, as a call of it does. -/
def answered {α : Type} (output : α → ToolOutput) (r : ServandaNode × Except NodeError α) :
    ServandaNode × Except ToolError ToolOutput :=
  (r.1, (r.2.mapError .node).map output)

/-- A call on a record by the text of its id. The vault names no record by other texts, and throws
on those that are no hex at all. -/
def onId (node : ServandaNode) (id : Text)
    (call : Sha256Hex → ServandaNode × Except ToolError ToolOutput) :
    ServandaNode × Except ToolError ToolOutput :=
  if isHex64 id then call (ToolInput.hexValue id)
  else if id.all isHexUnit ∧ id.length ≤ 128 then (node, .error (.node .noSuchId))
  else (node, .error .notAnId)

/-- What the arguments of a call are read as: none are an empty object. -/
def input (args : Option Value) : Value :=
  match args with
  | none | some .null => .obj []
  | some args => args

def callTool (now : Rfc3339) (node : ServandaNode) (name : Text) (args : Option Value) :
    ServandaNode × Except ToolError ToolOutput :=
  let input := input args
  if name = text "commit" then
    if (input.member (text "owner")).isSome then (node, .error .foreignOwner)
    else match ToolInput.commit input with
      | none => (node, .error .invalidInput)
      | some input => answered .commit (node.commit crypto now input)
  else if name = text "expect" then
    match ToolInput.expect input with
    | none => (node, .error .invalidInput)
    | some input => answered .expect (node.expect expectationId now input)
  else if name = text "confirm" then
    match ToolInput.confirm input with
    | none => (node, .error .invalidInput)
    | some (id, input) =>
      onId node id fun id ↦ answered .confirm (node.confirm crypto now (input id))
  else if name = text "open_loops" then
    match ToolInput.openLoops decodeCursor input with
    | none => (node, .error .invalidInput)
    | some input =>
      (node, ((node.openLoops crypto now input).mapError .openLoops).map .openLoops)
  else if name = text "brief" then
    match ToolInput.brief input with
    | none => (node, .error .invalidInput)
    | some persona =>
      let name := persona.map fun s ↦ (ToolInput.personaName s).getD (.key node.activePersona)
      (node, ((node.brief crypto now briefSlots name).map .brief).elim
        (.error (.node .noSuchPersona)) .ok)
  else if name = text "act" then
    match ToolInput.act input with
    | none => (node, .error .invalidInput)
    | some (id, input) => onId node id fun id ↦ answered .act (node.act crypto now (input id))
  else (node, .error (.unknownTool name))

/-- The input of a call that is one of `commit`, where the call comes to the node. -/
def commitInput (name : Text) (args : Option Value) : Option CommitInput :=
  if name = text "commit" ∧ (input args).member (text "owner") = none then
    ToolInput.commit (input args)
  else none

section Refusals

variable {crypto briefSlots decodeCursor expectationId} {now : Rfc3339} {node : ServandaNode}

open ServandaNode

theorem answered_untouched_iff {α : Type} {output : α → ToolOutput}
    {r : ServandaNode × Except NodeError α} :
    Untouched node (answered output r) ↔ Untouched node r := by
  obtain ⟨next, result⟩ := r
  cases result with
  | ok a => exact iff_of_true (.ok _ _) (.ok _ _)
  | error e => exact ⟨fun h _ _ ↦ h _ rfl, fun h _ _ ↦ h _ rfl⟩

theorem onId_untouched {id : Text} {call : Sha256Hex → ServandaNode × Except ToolError ToolOutput}
    (h : ∀ id, Untouched node (call id)) : Untouched node (onId node id call) := by
  unfold onId
  split_ifs
  · exact h _
  · exact .refused _
  · exact .refused _

theorem callTool_untouched_of_ne {name : Text} {args : Option Value} (h : name ≠ text "commit") :
    Untouched node
      (callTool crypto briefSlots decodeCursor expectationId now node name args) := by
  unfold callTool
  dsimp only
  rw [if_neg h]
  split_ifs
  · cases ToolInput.expect (input args) with
    | none => exact .refused _
    | some input => exact answered_untouched_iff.mpr (expect_untouched expectationId input)
  · cases ToolInput.confirm (input args) with
    | none => exact .refused _
    | some call =>
      exact onId_untouched fun id ↦ answered_untouched_iff.mpr (confirm_untouched (call.2 id))
  · cases ToolInput.openLoops decodeCursor (input args) <;> exact .refused _
  · cases ToolInput.brief (input args) <;> exact .refused _
  · cases ToolInput.act (input args) with
    | none => exact .refused _
    | some call =>
      exact onId_untouched fun id ↦ answered_untouched_iff.mpr (act_untouched (call.2 id))
  · exact .refused _

/-- Of all the calls there are, one of `commit` alone can be refused after it wrote. -/
theorem callTool_untouched_iff {name : Text} {args : Option Value} :
    Untouched node
        (callTool crypto briefSlots decodeCursor expectationId now node name args) ↔
      ∀ input persona edge held, commitInput name args = some input →
        ¬Strands crypto now node input persona edge held := by
  by_cases hname : name = text "commit"
  swap
  · refine iff_of_true (callTool_untouched_of_ne hname) fun input persona edge held h ↦ ?_
    rw [commitInput, if_neg fun hand ↦ hname hand.1] at h
    cases h
  unfold callTool commitInput
  dsimp only
  rw [if_pos hname]
  cases howner : (input args).member (text "owner") with
  | some owner =>
    refine iff_of_true (.refused _) fun input persona edge held h ↦ ?_
    simp at h
  | none =>
    rw [Option.isSome_none, if_neg Bool.false_ne_true, if_pos ⟨hname, rfl⟩]
    cases ToolInput.commit (input args) with
    | none => exact iff_of_true (.refused _) fun _ _ _ _ h ↦ nomatch h
    | some commit =>
      refine answered_untouched_iff.trans (commit_untouched_iff.trans ⟨fun h input persona edge held
        hinput ↦ ?_, fun h persona edge held ↦ h commit persona edge held rfl⟩)
      obtain rfl : commit = input := Option.some.inj hinput
      exact h persona edge held

end Refusals

end Tools

end Servanda
