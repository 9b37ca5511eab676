import Cuca.Types

/-!
# Requests and responses

The request every provider adapter takes and the response it aggregates. Floats are their bits.
-/

namespace Cuca

inductive ThinkingEffort where
  | minimal | low | medium | high | xHigh
  deriving DecidableEq, Repr

inductive ThinkingParams where
  | none
  | anthropic (budgetTokens : Option Nat) (adaptive : Bool)
  | gemini (thinkingBudget : Option Nat) (thinkingLevel : Option String)
  | openAi (reasoningEffort : Option String)
  deriving DecidableEq, Repr

structure ThinkingConfig where
  enabled : Bool
  effort : Option ThinkingEffort
  params : ThinkingParams
  deriving DecidableEq, Repr

structure PromptCacheBreakpoint where
  messageIndex : Nat
  blockIndex : Nat
  deriving DecidableEq, Repr

inductive PromptCacheDirective where
  | disabled
  | ephemeral (breakpoints : List PromptCacheBreakpoint)
  deriving DecidableEq, Repr

structure UnifiedRequest where
  model : String
  provider : ProviderEndpoint
  messages : List UnifiedMessage
  temperature : Option UInt32
  maxTokens : Option Nat
  stream : Bool
  thinking : Option ThinkingConfig
  tools : List ToolDefinition
  promptCache : PromptCacheDirective
  deriving Repr

structure UnifiedResponse where
  model : String
  provider : ProviderEndpoint
  durationSecs : UInt64
  promptTokens : Nat
  completionTokens : Nat
  finishReason : Option String
  content : List MessageContentBlock
  promptCacheUsage : Option PromptCacheUsage
  usage : Option TokenUsage
  deriving Repr

end Cuca
