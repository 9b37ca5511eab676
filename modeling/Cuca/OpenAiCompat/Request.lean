import Cuca.Provider.Pairing
import Mathlib.Data.List.AList
import Mathlib.Data.List.Sort

/-!
# Requests and streams that OpenAI-compatible servers share

Every message becomes one of `messages`; a tool message answers one call.

* `messageToWire` : one message;
* `buildChatCompletionBody` : the body;
* `content`, `reasoningContent`, `toolCalls`, `finishes` : what a frame's first choice carries;
* `entryIndex`, `entryOpening`, `entryFragment` : what one entry of `delta.tool_calls` carries;
* `accumulateToolCall`, `tryComplete`, `flushAccumulated` : the accumulator;
* `translate` : one payload.

`fromStr` is `serde_json::from_str`.
-/

namespace Cuca.OpenAiCompat
open Provider

/-- Several levels share a name. -/
def reasoningEffortFor : ThinkingEffort → String
  | .minimal => "minimal"
  | .low => "low"
  | .medium => "medium"
  | .high => "high"
  | .xHigh => "high"

def roleName : MessageRole → String
  | .system => "system"
  | .user => "user"
  | .assistant => "assistant"
  | .tool => "tool"

/-! ## One message -/

/-- The id on the message, else the one of its first block. -/
def answeredCall (msg : UnifiedMessage) : Option String :=
  msg.toolCallId.or <|
    match msg.content.head? with
    | some (.toolResult toolCallId _) => some toolCallId
    | _ => none

def toolMessageToWire (msg : UnifiedMessage) : Value :=
  .object ([("role", .string "tool")] ++ optional "tool_call_id" .string (answeredCall msg)
    ++ [("content", .string ("\n".intercalate (outputs msg.content)))])

def isCall : MessageContentBlock → Bool
  | .toolCall _ _ _ => true
  | _ => false

def isImage : MessageContentBlock → Bool
  | .imageBase64 _ _ => true
  | _ => false

/-- An entry of `tool_calls`; the arguments are a string. -/
def callToWire (serde : Serde) : MessageContentBlock → Option Value
  | .toolCall id name arguments =>
    some (.object [("id", .string id), ("type", .string "function"),
      ("function", .object [("name", .string name), ("arguments", .string (serde.toString arguments))])])
  | _ => none

/-- A part of a content array. -/
def partToWire : MessageContentBlock → Option Value
  | .text text => some (.object [("type", .string "text"), ("text", .string text)])
  | .imageBase64 mediaType data =>
    some (.object [("type", .string "image_url"), ("image_url", .object [("url", .string s!"data:{mediaType};base64,{data}")])])
  | _ => none

/-- The reasoning of an assistant message with exactly one thinking block. -/
def soleReasoning (msg : UnifiedMessage) : Option String :=
  if msg.role ≠ .assistant then none
  else
    match msg.content.filterMap (fun | .thinking reasoning _ => some reasoning | _ => none) with
    | [reasoning] => some reasoning
    | _ => none

def hasToolCalls (msg : UnifiedMessage) : Bool := msg.role = .assistant && msg.content.any isCall

def contentValue (msg : UnifiedMessage) : Value :=
  if msg.content.any isImage then .array (msg.content.filterMap partToWire)
  else
    let text := "\n".intercalate (texts msg.content)
    if hasToolCalls msg && text.isEmpty then .null else .string text

def messageToWire (serde : Serde) (msg : UnifiedMessage) : Value :=
  match msg.role with
  | .tool => toolMessageToWire msg
  | role =>
    .object ([("role", .string (roleName role))] ++ optional "reasoning_content" .string (soleReasoning msg)
      ++ (if hasToolCalls msg then [("tool_calls", .array (msg.content.filterMap (callToWire serde)))] else [])
      ++ [("content", contentValue msg)])

/-! ## The body -/

def toolToWire (tool : ToolDefinition) : Value :=
  .object [("type", .string "function"), ("function", .object
    [("name", .string tool.name), ("description", .string tool.description), ("parameters", tool.inputSchema)])]

/-- The members a thinking configuration adds. -/
def thinkingMembers (provider : ProviderEndpoint) (thinking : ThinkingConfig) : List (String × Value) :=
  if thinking.enabled then
    if provider = .deepSeek then [("thinking", .object [("type", .string "enabled")])]
    else
      let effort := match thinking.params with
        | .openAi (some effort) => effort
        | _ => (thinking.effort.map reasoningEffortFor).getD "medium"
      [("reasoning_effort", .string effort)]
  else if provider = .deepSeek then [("thinking", .object [("type", .string "disabled")])]
  else []

def buildChatCompletionBody (serde : Serde) (req : UnifiedRequest) : Value :=
  .object ([("model", .string req.model), ("messages", .array (req.messages.map (messageToWire serde)))]
    ++ optional "temperature" serde.ofF32 req.temperature
    ++ optional "max_tokens" number req.maxTokens
    ++ (if req.tools.isEmpty then [] else [("tools", .array (req.tools.map toolToWire))])
    ++ [("stream", .bool true), ("stream_options", .object [("include_usage", .bool true)])]
    ++ (match req.thinking with
      | some thinking => thinkingMembers req.provider thinking
      | none => []))

/-! ## The chat completion translator

`ChatCompletionTranslator` turns one `data:` payload into at most one block. Tool calls accumulate by index across
frames; the calls a flush completes wait in `pending`.
-/

/-! ## Frames -/

def choiceOf (frame : Value) : Option Value :=
  ((frame.get "choices").bind Value.asArray).bind List.head?

def deltaOf (frame : Value) : Option Value := (choiceOf frame).bind (Value.get "delta")

def deltaText (key : String) (delta : Value) : String := ((delta.get key).bind Value.asStr).getD ""

/-- `delta.content`. -/
def content (frame : Value) : String := ((deltaOf frame).map (deltaText "content")).getD ""

/-- `delta.reasoning_content`. -/
def reasoningContent (frame : Value) : String := ((deltaOf frame).map (deltaText "reasoning_content")).getD ""

/-- `delta.tool_calls`. -/
def toolCalls (frame : Value) : List Value :=
  (((deltaOf frame).bind (Value.get "tool_calls")).bind Value.asArray).getD []

/-- Whether the choice has a `finish_reason` that is not `null`. -/
def finishes (frame : Value) : Bool :=
  match (choiceOf frame).bind (Value.get "finish_reason") with
  | some reason => !reason.isNull
  | none => false

def errorMessage (frame : Value) : Option String :=
  ((frame.get "error").bind (Value.get "message")).bind Value.asStr

/-- A counter, capped at `u32::MAX`. -/
def counter (value : Option Value) : Option Nat := (value.bind Value.asU64).map (min · (2 ^ 32 - 1))

def tokenUsageOf (frame : Value) : Option TokenUsage := do
  let usage ← frame.get "usage"
  let promptTokens ← counter (usage.get "prompt_tokens")
  let completionTokens ← counter (usage.get "completion_tokens")
  return ⟨promptTokens, completionTokens,
    counter ((usage.get "completion_tokens_details").bind (Value.get "reasoning_tokens"))⟩

/-! ## Entries of `delta.tool_calls` -/

def entryIndex (entry : Value) : Nat := ((entry.get "index").bind Value.asU64).getD 0

def entryFragment (entry : Value) : String :=
  (((entry.get "function").bind (Value.get "arguments")).bind Value.asStr).getD ""

/-- The id and the name, where the entry has both. -/
def entryOpening (entry : Value) : Option (String × String) := do
  let id ← (entry.get "id").bind Value.asStr
  let name ← ((entry.get "function").bind (Value.get "name")).bind Value.asStr
  return (id, name)

/-! ## The translator -/

/-- A call whose arguments are still arriving. -/
structure PartialCall where
  id : String
  name : String
  fragment : String
deriving DecidableEq, Repr

structure ChatCompletionTranslator where
  /-- The calls by index. -/
  toolAcc : AList fun _ : Nat => PartialCall
  /-- Completed blocks awaiting emission. -/
  pending : List MessageContentBlock
  /-- Whether `[DONE]` was seen. -/
  done : Bool
  usage : Option TokenUsage

namespace ChatCompletionTranslator

def new : ChatCompletionTranslator := ⟨∅, [], false, none⟩

def takeUsage (t : ChatCompletionTranslator) : Option TokenUsage × ChatCompletionTranslator :=
  (t.usage, { t with usage := none })

/-- `serde_json::from_str(fragment).unwrap_or_default()`. -/
def argumentsOf (fromStr : String → Except String Value) (fragment : String) : Value :=
  match fromStr fragment with
  | .ok arguments => arguments
  | .error _ => .null

section
variable (fromStr : String → Except String Value)

/-- Emits the accumulated call at `index` once its fragment parses. -/
def tryComplete (t : ChatCompletionTranslator) (index : Nat) : Option MessageContentBlock × ChatCompletionTranslator :=
  match t.toolAcc.lookup index with
  | none => (none, t)
  | some call =>
    if call.fragment.isEmpty then (none, t)
    else
      match fromStr call.fragment with
      | .error _ => (none, t)
      | .ok arguments => (some (.toolCall call.id call.name arguments), { t with toolAcc := t.toolAcc.erase index })

/-- Folds one entry into the accumulator. -/
def accumulateToolCall (t : ChatCompletionTranslator) (entry : Value) :
    Option MessageContentBlock × ChatCompletionTranslator :=
  let index := entryIndex entry
  match t.toolAcc.lookup index with
  | some call =>
    if entryFragment entry ≠ "" then
      (none, { t with
        toolAcc := t.toolAcc.insert index { call with fragment := call.fragment ++ entryFragment entry } })
    else t.tryComplete fromStr index
  | none =>
    match entryOpening entry with
    | some (id, name) => (none, { t with toolAcc := t.toolAcc.insert index ⟨id, name, entryFragment entry⟩ })
    | none => (none, t)

/-- The entries of a frame, up to the first that completes a call. -/
def accumulateToolCalls (t : ChatCompletionTranslator) :
    List Value → Option MessageContentBlock × ChatCompletionTranslator
  | [] => (none, t)
  | entry :: entries =>
    match t.accumulateToolCall fromStr entry with
    | (some block, t) => (some block, t)
    | (none, t) => accumulateToolCalls t entries

/-- Moves the call at `index` into `pending`. -/
def flushIndex (t : ChatCompletionTranslator) (index : Nat) : ChatCompletionTranslator :=
  match t.toolAcc.lookup index with
  | some call => { t with
      toolAcc := t.toolAcc.erase index,
      pending := t.pending ++ [.toolCall call.id call.name (argumentsOf fromStr call.fragment)] }
  | none => t

/-- Moves every accumulated call into `pending`, in order of their indices. -/
def flushAccumulated (t : ChatCompletionTranslator) : ChatCompletionTranslator :=
  (t.toolAcc.keys.insertionSort (· ≤ ·)).foldl (flushIndex fromStr) t

/-- A parsed frame's first choice. -/
def translateFrame (t : ChatCompletionTranslator) (frame : Value) :
    Option MessageContentBlock × ChatCompletionTranslator :=
  if (choiceOf frame).isNone then (none, t)
  else if content frame ≠ "" then (some (.text (content frame)), t)
  else if reasoningContent frame ≠ "" then (some (.thinking (reasoningContent frame) none), t)
  else
    match t.accumulateToolCalls fromStr (toolCalls frame) with
    | (some block, t) => (some block, t)
    | (none, t) => (none, if finishes frame then t.flushAccumulated fromStr else t)

/-- One payload, to at most one block. -/
def translate (t : ChatCompletionTranslator) (payload : String) :
    Except CucaError (Option MessageContentBlock) × ChatCompletionTranslator :=
  if payload = "[DONE]" then (.ok none, { t.flushAccumulated fromStr with done := true })
  else
    match t.pending with
    | block :: pending =>
      -- the frame's own deltas are not read here
      let usage :=
        match fromStr payload with
        | .ok frame => (tokenUsageOf frame).or t.usage
        | .error _ => t.usage
      (.ok (some block), { t with pending := pending, usage := usage })
    | [] =>
      match fromStr payload with
      | .error e => (.error (.json ("invalid chat completion frame: " ++ e)), t)
      | .ok frame =>
        match errorMessage frame with
        | some message => (.error (.provider .openAi message), t)
        | none =>
          let t := { t with usage := (tokenUsageOf frame).or t.usage }
          ((.ok (t.translateFrame fromStr frame).1), (t.translateFrame fromStr frame).2)

end

end ChatCompletionTranslator
end Cuca.OpenAiCompat
