import Cuca.Provider.Pairing
import Cuca.Provider.Stream

/-!
# The body of a Gemini request

Calls and results carry no id: a result is named after the tool, where the message says so, else after the call's id.

* `blockToPart` : one block;
* `buildGenerateContentBody` : the body;
* `translate` : the events of a response.
-/

namespace Cuca.Gemini
open Provider

def geminiLevelFor : ThinkingEffort → String
  | .minimal | .low => "LOW"
  | .medium => "MEDIUM"
  | .high | .xHigh => "HIGH"

/-- A block of a message; `toolName` is the name on the message. -/
def blockToPart (toolName : Option String) : MessageContentBlock → Value
  | .text text => .object [("text", .string text)]
  | .imageBase64 mediaType data =>
    .object [("inline_data", .object [("mime_type", .string mediaType), ("data", .string data)])]
  | .thinking reasoning _ => .object [("thought", .bool true), ("text", .string reasoning)]
  | .toolCall _ name arguments => .object [("functionCall", .object [("name", .string name), ("args", arguments)])]
  | .toolResult toolCallId output =>
    .object [("functionResponse", .object
      [("name", .string (toolName.getD toolCallId)), ("response", .object [("output", .string output)])])]

/-- A message that is not a system message. -/
def messageToContent (msg : UnifiedMessage) : Option Value :=
  let parts := .array (msg.content.map (blockToPart msg.name))
  match msg.role with
  | .user | .tool => some (.object [("role", .string "user"), ("parts", parts)])
  | .assistant => some (.object [("role", .string "model"), ("parts", parts)])
  | .system => none

def systemText (messages : List UnifiedMessage) : String :=
  "\n".intercalate ((messages.filter (·.role = .system)).flatMap fun msg => texts msg.content)

/-- The `thinkingConfig`; the parameters win over the effort, the budget over the level. -/
def thinkingConfig (thinking : ThinkingConfig) : Value :=
  if !thinking.enabled then .object [("includeThoughts", .bool false)]
  else
    match thinking.params with
    | .gemini (some budget) _ => .object [("thinkingBudget", number budget)]
    | .gemini none (some level) => .object [("thinkingLevel", .string level)]
    | _ =>
      match thinking.effort with
      | some effort => .object [("thinkingLevel", .string (geminiLevelFor effort))]
      | none => .object [("includeThoughts", .bool true)]

def toolToDeclaration (tool : ToolDefinition) : Value :=
  .object [("name", .string tool.name), ("description", .string tool.description), ("parameters", tool.inputSchema)]

def buildGenerateContentBody (serde : Serde) (req : UnifiedRequest) : Value :=
  let generation := optional "temperature" serde.ofF32 req.temperature ++ optional "maxOutputTokens" number req.maxTokens
  .object ((if systemText req.messages = "" then []
      else [("system_instruction", .object [("parts", .array [.object [("text", .string (systemText req.messages))]])])])
    ++ (if generation.isEmpty then [] else [("generationConfig", .object generation)])
    ++ optional "thinkingConfig" thinkingConfig req.thinking
    ++ [("contents", .array (req.messages.filterMap messageToContent))]
    ++ (if req.tools.isEmpty then []
      else [("tools", .array [.object [("functionDeclarations", .array (req.tools.map toolToDeclaration))]])]))

end Cuca.Gemini

/-! ## The Gemini translator

`GeminiTranslator` keeps no state: one payload maps to the blocks of its first candidate's parts.

`fromStr` is `serde_json::from_str`.
-/

namespace Cuca.Gemini
open Provider

/-- The string at `field`, moved out. -/
def takeString (value : Value) (field : String) : Option String := (value.get field).bind Value.asStr

/-- The block of one part. -/
def partBlock (part : Value) : Option MessageContentBlock :=
  if (part.get "thought").bind Value.asBool = some true then
    some (.thinking ((takeString part "text").getD "") none)
  else
    match takeString part "text" with
    | some text => some (.text text)
    | none => (part.get "functionCall").map fun call =>
      .toolCall ((takeString call "id").getD "") ((takeString call "name").getD "") ((call.get "args").getD .null)

/-- The parts of the first candidate. -/
def partsOf (value : Value) : Option (List Value) := do
  let candidate ← (← (← value.get "candidates").asArray).head?
  (← (← candidate.get "content").get "parts").asArray

/-- One payload, to the blocks its first candidate carries. -/
def translate (fromStr : String → Except String Value) (payload : String) :
    Except CucaError (List MessageContentBlock) :=
  match fromStr payload with
  | .error e => .error (.json ("invalid gemini frame: " ++ e))
  | .ok value =>
    match ((value.get "error").bind (Value.get "message")).bind Value.asStr with
    | some message => .error (.provider .googleGemini message)
    | none => .ok (((partsOf value).getD []).filterMap partBlock)

/-- The adapter of `GeminiStream`, which has no end marker and no usage. -/
abbrev gemini (fromStr : String → Except String Value) : Adapter where
  Translator := Unit
  Usage := Empty
  new := ()
  translate _ event := (translate fromStr event.data, ())
  done _ := false
  drain _ := ([], ())
  takeUsage _ := (none, ())

end Cuca.Gemini
