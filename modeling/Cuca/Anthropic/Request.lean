import Cuca.Provider.Pairing
import Cuca.Provider.Stream

/-!
# Anthropic requests and streams

System texts go to the top of the body, user and assistant messages to `messages`; tool messages are skipped. The errors are the
texts of `CucaError::Config`.

* `cacheMarks` : the blocks to mark for the prompt cache;
* `buildAnthropicRequest` : the body.
-/

namespace Cuca.Anthropic
open Provider

/-! ## Prompt cache -/

def cacheBreakpoints (req : UnifiedRequest) : List PromptCacheBreakpoint :=
  if req.provider ≠ .anthropic then []
  else
    match req.promptCache with
    | .disabled => []
    | .ephemeral breakpoints => breakpoints

/-- Whether a breakpoint may stand on a block of a message of this role. -/
def checkMarkable (messageIndex blockIndex : Nat) : MessageRole → MessageContentBlock → Except String Unit
  | .tool, _ => .error s!"prompt-cache breakpoint (message {messageIndex}, block {blockIndex}) targets a standalone tool message, which the anthropic adapter does not send"
  | .system, .text _ => .ok ()
  | .system, _ => .error s!"prompt-cache breakpoint (message {messageIndex}, block {blockIndex}) targets a non-text system block, which the anthropic adapter does not send"
  | _, _ => .ok ()

/-- One breakpoint more. -/
def mark (messages : List UnifiedMessage) (marks : List (Nat × Nat)) (bp : PromptCacheBreakpoint) :
    Except String (List (Nat × Nat)) :=
  let messageIndex := bp.messageIndex
  let blockIndex := bp.blockIndex
  match messages[messageIndex]? with
  | none =>
    let count := messages.length
    .error s!"prompt-cache breakpoint message_index {messageIndex} is out of range: the request has {count} messages"
  | some msg =>
    match msg.content[blockIndex]? with
    | none =>
      let count := msg.content.length
      .error s!"prompt-cache breakpoint block_index {blockIndex} is out of range: message {messageIndex} has {count} blocks"
    | some block =>
      match checkMarkable messageIndex blockIndex msg.role block with
      | .error e => .error e
      | .ok () =>
        if (messageIndex, blockIndex) ∈ marks then
          .error s!"duplicate prompt-cache breakpoint at message {messageIndex} block {blockIndex}"
        else .ok (marks ++ [(messageIndex, blockIndex)])

def cacheMarks (req : UnifiedRequest) : Except String (List (Nat × Nat)) :=
  (cacheBreakpoints req).foldlM (mark req.messages) []

def ephemeral : String × Value := ("cache_control", .object [("type", .string "ephemeral")])

def markEphemeral : Value → Value
  | .object members => .object (members ++ [ephemeral])
  | value => value

/-! ## Blocks -/

def blockToAnthropic : MessageContentBlock → Value
  | .text text => .object [("type", .string "text"), ("text", .string text)]
  | .imageBase64 mediaType data =>
    .object [("type", .string "image"),
      ("source", .object [("type", .string "base64"), ("media_type", .string mediaType), ("data", .string data)])]
  | .thinking reasoning signature =>
    .object ([("type", .string "thinking"), ("thinking", .string reasoning)] ++ optional "signature" .string signature)
  | .toolCall id name arguments =>
    .object [("type", .string "tool_use"), ("id", .string id), ("name", .string name), ("input", arguments)]
  | .toolResult toolCallId output =>
    .object [("type", .string "tool_result"), ("tool_use_id", .string toolCallId), ("content", .string output)]

def markedBlock (marks : List (Nat × Nat)) (messageIndex : Nat) (block : MessageContentBlock × Nat) : Value :=
  if (messageIndex, block.2) ∈ marks then markEphemeral (blockToAnthropic block.1) else blockToAnthropic block.1

/-! ## System texts and messages -/

/-- The system texts of a message, each with whether it is marked. -/
def systemTexts (marks : List (Nat × Nat)) (msg : UnifiedMessage × Nat) : List (String × Bool) :=
  match msg.1.role with
  | .system => msg.1.content.zipIdx.filterMap fun
    | (.text text, blockIndex) => some (text, decide ((msg.2, blockIndex) ∈ marks))
    | _ => none
  | _ => []

def systemValue (system : List (String × Bool)) : Value :=
  if !system.any (·.2) then .string ("\n".intercalate (system.map (·.1)))
  else .array (system.map fun (text, marked) =>
    let value := .object [("type", .string "text"), ("text", .string text)]
    if marked then markEphemeral value else value)

/-- A user or an assistant message; others are not sent. -/
def messageToAnthropic (marks : List (Nat × Nat)) (msg : UnifiedMessage × Nat) : Option Value :=
  let content := .array (msg.1.content.zipIdx.map (markedBlock marks msg.2))
  match msg.1.role with
  | .user => some (.object [("role", .string "user"), ("content", content)])
  | .assistant => some (.object [("role", .string "assistant"), ("content", content)])
  | .system | .tool => none

/-! ## The body -/

def anthropicBudgetFor : Option ThinkingEffort → Nat
  | none => 10000
  | some .minimal => 1024
  | some .low => 2048
  | some .medium => 8192
  | some .high => 16384
  | some .xHigh => 16384

def adaptiveEffortFor : ThinkingEffort → String
  | .minimal | .low => "low"
  | .medium => "medium"
  | .high => "high"
  | .xHigh => "xhigh"

/-- The `thinking` of an enabled configuration. -/
def thinkingValue (thinking : ThinkingConfig) : Value :=
  match thinking.params with
  | .anthropic _ true =>
    .object (("type", .string "adaptive") :: optional "effort" (.string ∘ adaptiveEffortFor) thinking.effort)
  | .anthropic (some n) _ => .object [("type", .string "enabled"), ("budget_tokens", number n)]
  | _ => .object [("type", .string "enabled"), ("budget_tokens", number (anthropicBudgetFor thinking.effort))]

def toolToAnthropic (tool : ToolDefinition) : Value :=
  .object [("name", .string tool.name), ("description", .string tool.description), ("input_schema", tool.inputSchema)]

def buildAnthropicRequest (serde : Serde) (req : UnifiedRequest) : Except String Value :=
  match cacheMarks req with
  | .error e => .error e
  | .ok marks =>
    let system := req.messages.zipIdx.flatMap (systemTexts marks)
    let messages := req.messages.zipIdx.filterMap (messageToAnthropic marks)
    .ok (.object ([("model", .string req.model), ("max_tokens", number (req.maxTokens.getD 1024))]
      ++ optional "temperature" serde.ofF32 req.temperature
      ++ [("stream", .bool true)]
      ++ (if system.isEmpty then [] else [("system", systemValue system)])
      ++ optional "thinking" thinkingValue (req.thinking.filter (·.enabled))
      ++ (if req.tools.isEmpty then [] else [("tools", .array (req.tools.map toolToAnthropic))])
      ++ [("messages", .array messages)]))

end Cuca.Anthropic

/-! ## The Anthropic translator

`AnthropicTranslator` turns one event into at most one block: a text delta at once, a thinking block or a tool use when
its block stops.

`fromStr` is `serde_json::from_str`.
-/

namespace Cuca.Anthropic
open Sse Provider

inductive BlockKind where
  | text
  | thinking
  | toolUse
deriving DecidableEq, Repr

structure AnthropicTranslator where
  /-- The open block. -/
  current : Option BlockKind
  /-- The id, the name and the argument fragments of the open tool use. -/
  toolAcc : Option (String × String × String)
  reasoning : Option String
  signature : Option String
  /-- Whether `message_stop` was seen. -/
  done : Bool
  promptCacheUsage : Option PromptCacheUsage
deriving DecidableEq, Repr

/-- The string at `key`; empty if there is none. -/
def stringAt (key : String) (value : Value) : String := ((value.get key).bind Value.asStr).getD ""

/-- The prompt cache counters of a `message_start` frame. -/
def promptCacheUsageOf (frame : Value) : Option PromptCacheUsage := do
  let usage ← (← frame.get "message").get "usage"
  let read := (usage.get "cache_read_input_tokens").bind Value.asU64
  let write := (usage.get "cache_creation_input_tokens").bind Value.asU64
  if read.isNone && write.isNone then none
  else some ⟨read.getD 0 % 2 ^ 32, write.getD 0 % 2 ^ 32⟩

namespace AnthropicTranslator

def new : AnthropicTranslator := ⟨none, none, none, none, false, none⟩

/-- Seeds the accumulator of a new block. -/
def onBlockStart (t : AnthropicTranslator) (value : Value) : AnthropicTranslator :=
  match value.get "content_block" with
  | none => t
  | some block =>
    match (block.get "type").bind Value.asStr with
    | some "text" => { t with current := some .text }
    | some "thinking" => { t with current := some .thinking, reasoning := some "", signature := none }
    | some "tool_use" =>
      { t with current := some .toolUse, toolAcc := some (stringAt "id" block, stringAt "name" block, "") }
    | _ => t

/-- Folds one delta into the accumulators; a text delta is emitted. -/
def onBlockDelta (t : AnthropicTranslator) (value : Value) : Option MessageContentBlock × AnthropicTranslator :=
  match value.get "delta" with
  | none => (none, t)
  | some delta =>
    match (delta.get "type").bind Value.asStr with
    | some "text_delta" => (if stringAt "text" delta = "" then none else some (.text (stringAt "text" delta)), t)
    | some "thinking_delta" => (none, { t with reasoning := t.reasoning.map (· ++ stringAt "thinking" delta) })
    | some "signature_delta" =>
      (none, if stringAt "signature" delta = "" then t else { t with signature := some (stringAt "signature" delta) })
    | some "input_json_delta" =>
      (none, { t with toolAcc := t.toolAcc.map fun (id, name, acc) => (id, name, acc ++ stringAt "partial_json" delta) })
    | _ => (none, t)

/-- Emits the finished block. -/
def onBlockStop (fromStr : String → Except String Value) (t : AnthropicTranslator) :
    Option MessageContentBlock × AnthropicTranslator :=
  match t.current with
  | none => (none, t)
  | some .text => (none, { t with current := none })
  | some .thinking =>
    (some (.thinking (t.reasoning.getD "") t.signature), { t with current := none, reasoning := none, signature := none })
  | some .toolUse =>
    let (id, name, fragment) := t.toolAcc.getD ("", "", "")
    let arguments :=
      match fromStr fragment with
      | .ok arguments => arguments
      | .error _ => .null
    (some (.toolCall id name arguments), { t with current := none, toolAcc := none })

/-- One event, to at most one block. -/
def translate (fromStr : String → Except String Value) (t : AnthropicTranslator) (ev : SseEvent) :
    Except CucaError (Option MessageContentBlock) × AnthropicTranslator :=
  if ev.event = "message_stop" then (.ok none, { t with done := true })
  else if ev.event = "message_start" then
    match fromStr ev.data with
    | .ok value => (.ok none, { t with promptCacheUsage := promptCacheUsageOf value })
    | .error _ => (.ok none, t)
  else if ev.event = "message_delta" ∨ ev.event = "ping" then (.ok none, t)
  else
    match fromStr ev.data with
    | .error e => (.error (.json ("invalid anthropic event frame: " ++ e)), t)
    | .ok value =>
      if ev.event = "error" then
        let message := ((value.get "error").bind (Value.get "message")).bind Value.asStr
        (.error (.provider .anthropic (message.getD "anthropic stream error")), t)
      else if ev.event = "content_block_start" then (.ok none, t.onBlockStart value)
      else if ev.event = "content_block_delta" then (.ok (t.onBlockDelta value).1, (t.onBlockDelta value).2)
      else if ev.event = "content_block_stop" then (.ok (t.onBlockStop fromStr).1, (t.onBlockStop fromStr).2)
      else (.ok none, t)

def takePromptCacheUsage (t : AnthropicTranslator) : Option PromptCacheUsage × AnthropicTranslator :=
  (t.promptCacheUsage, { t with promptCacheUsage := none })

end AnthropicTranslator

/-- The adapter of `AnthropicStream`. -/
abbrev anthropic (fromStr : String → Except String Value) : Adapter where
  Translator := AnthropicTranslator
  Usage := PromptCacheUsage
  new := AnthropicTranslator.new
  translate t event := ((t.translate fromStr event).1.map Option.toList, (t.translate fromStr event).2)
  done t := t.done
  drain t := ([], t)
  takeUsage t := t.takePromptCacheUsage

end Cuca.Anthropic
