import Cuca.Json

/-!
# Wire types and errors

Messages and their content blocks, tool definitions, the token counts a provider reports, and the errors of the crate.
-/

namespace Cuca

inductive MessageContentBlock where
  | text (text : String)
  | imageBase64 (mediaType : String) (data : String)
  | thinking (reasoning : String) (signature : Option String)
  | toolCall (id : String) (name : String) (arguments : Value)
  | toolResult (toolCallId : String) (output : String)
  deriving Repr

inductive MessageRole where
  | system | user | assistant | tool
  deriving DecidableEq, Repr

structure ToolDefinition where
  name : String
  description : String
  inputSchema : Value
  deriving Repr

structure UnifiedMessage where
  role : MessageRole
  content : List MessageContentBlock
  name : Option String
  toolCallId : Option String
  deriving Repr

structure TokenUsage where
  promptTokens : Nat
  completionTokens : Nat
  reasoningTokens : Option Nat
  deriving DecidableEq, Repr

structure PromptCacheUsage where
  readTokens : Nat
  writeTokens : Nat
  deriving DecidableEq, Repr

/-! ## The errors of the crate

`CucaError`, which clients see, with the variants the modelled functions return, and `PluginError`, which plugin hooks
and the extensions they call return. The payloads of foreign errors are their `Display` texts, as in the source.
-/

/-- The upstream service a provider error names. -/
inductive ProviderEndpoint where
  | llamaCpp | vllm | lmStudio | openAi | anthropic | googleGemini | deepSeek | localModel
  | custom (key : String)
  deriving DecidableEq, Repr

inductive CucaError where
  | transport (message : String)
  | http (status : Nat) (body : String)
  | sseParse (message : String)
  | json (message : String)
  | provider (endpoint : ProviderEndpoint) (message : String)
  | io (message : String)
  deriving DecidableEq, Repr

inductive PluginError where
  | hookFailure (plugin stage message : String)
  | validation (schema message : String)
  | notSupported (message : String)
  | io (message : String)
  | internal (message : String)
  deriving DecidableEq, Repr

def PluginError.display : PluginError → String
  | hookFailure plugin stage message => s!"plugin {plugin} failed at stage {stage}: {message}"
  | validation schema message => s!"validation failed for schema {schema}: {message}"
  | notSupported message => s!"not supported: {message}"
  | io message => s!"plugin I/O error: {message}"
  | internal message => s!"internal plugin error: {message}"

end Cuca
