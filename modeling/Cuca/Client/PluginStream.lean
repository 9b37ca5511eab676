import Cuca.Provider.Stream
import Cuca.Services.PromptCache

/-!
# The streams of a client

A block stream as the plugins of the client see it and leave it, and the stream that replays a cached response. Plugins and
whatever else is shared live in a world `W`, which may change between two polls.

* `rewrite` : local tools, then the hooks of a block;
* `PluginStream.poll` : the block is collected as it is yielded; at the end the completion hooks run and the cache is written;
* `CacheHitStream.poll` : the blocks of a cached response;
* `Event` : what a poll does, in order, and what it answers.
-/

namespace Cuca.Client
open Provider (Poll)
open PromptCache (PromptCacheEntry)

/-- What is yielded in place of a block: an error of the inner stream, or `CucaError::Plugin`. -/
inductive StreamError where
  | inner (e : CucaError)
  | plugin (e : PluginError)
  deriving DecidableEq, Repr

structure CucaPlugin (W : Type) where
  executeLocalTool : MessageContentBlock → W → Except PluginError (Option MessageContentBlock) × W
  /-- The block as the hook leaves it. -/
  onStreamChunk : MessageContentBlock → W → Except PluginError MessageContentBlock × W
  onResponseComplete : UnifiedResponse → W → Except PluginError Unit × W

/-- What a provider stream reports besides blocks. -/
structure ResponseMetadata where
  promptCacheUsage : Option PromptCacheUsage
  tokenUsage : Option TokenUsage

/-- What the streams of a client share. -/
structure Shared (W : Type) where
  plugins : List (CucaPlugin W)
  /-- Seconds since the stream was made, by their bits. -/
  elapsed : W → UInt64
  takeMetadata : W → ResponseMetadata × W
  /-- A failed write is ignored. -/
  insertCache : UnifiedRequest → UnifiedResponse → W → W

/-- What a poll does and answers. -/
inductive Event where
  | item (item : Except StreamError MessageContentBlock)
  | pending
  | ended
  | completed (plugin : Nat) (response : UnifiedResponse)
  | cached (request : UnifiedRequest) (response : UnifiedResponse)
  | handed (response : UnifiedResponse)

/-! ## A block -/

section
variable {W : Type}

/-- A replacement is the result of the call. -/
def answersCall (id : String) : MessageContentBlock → Bool
  | .toolResult toolCallId _ => toolCallId == id
  | _ => false

def invalidReplacement : PluginError :=
  .validation "local tool result" "local tool executor must return a ToolResult for the input ToolCall id"

/-- The first plugin that executes the call replaces it. -/
def runLocalTools (id : String) : List (CucaPlugin W) → MessageContentBlock → W → Except StreamError MessageContentBlock × W
  | [], chunk, w => (.ok chunk, w)
  | plugin :: plugins, chunk, w =>
    match plugin.executeLocalTool chunk w with
    | (.ok (some replacement), w) =>
      if answersCall id replacement then (.ok replacement, w) else (.error (.plugin invalidReplacement), w)
    | (.ok none, w) => runLocalTools id plugins chunk w
    | (.error e, w) => (.error (.plugin e), w)

/-- The first failure wins. -/
def runChunkHooks : List (CucaPlugin W) → MessageContentBlock → W → Except StreamError MessageContentBlock × W
  | [], chunk, w => (.ok chunk, w)
  | plugin :: plugins, chunk, w =>
    match plugin.onStreamChunk chunk w with
    | (.ok chunk, w) => runChunkHooks plugins chunk w
    | (.error e, w) => (.error (.plugin e), w)

def rewrite (plugins : List (CucaPlugin W)) (chunk : MessageContentBlock) (w : W) : Except StreamError MessageContentBlock × W :=
  let executed := match chunk with
    | .toolCall id _ _ => runLocalTools id plugins chunk w
    | _ => (.ok chunk, w)
  match executed with
  | (.ok chunk, w) => runChunkHooks plugins chunk w
  | (.error e, w) => (.error e, w)

/-- A failing hook never stops the others. -/
def runCompletionHooks (response : UnifiedResponse) : Nat → List (CucaPlugin W) → W → List Event × W
  | _, [], w => ([], w)
  | index, plugin :: plugins, w =>
    let (events, w) := runCompletionHooks response (index + 1) plugins (plugin.onResponseComplete response w).2
    (.completed index response :: events, w)

def publishResponse (completed : Bool) (response : UnifiedResponse) : List Event × UnifiedResponse :=
  if completed then ([.handed response], { response with content := [] }) else ([], response)

end

/-! ## The stream of a cache miss -/

/-- What an inner stream answers to successive polls; after the answers it has ended. -/
abbrev Blocks := List (Poll (Except CucaError MessageContentBlock))

structure PluginStream where
  inner : Blocks
  response : UnifiedResponse
  done : Bool
  /-- Whether the caller still waits for the response. -/
  completed : Bool
  /-- The request to write back, on a cache miss. -/
  cacheWrite : Option UnifiedRequest
  sawError : Bool

/-- Images and tool results carry no generated tokens. -/
def generatedTokens : MessageContentBlock → Nat
  | .text _ => 1
  | .thinking _ _ => 1
  | .toolCall _ _ _ => 1
  | .imageBase64 _ _ => 0
  | .toolResult _ _ => 0

namespace PluginStream
variable {W : Type} (c : Shared W)

/-- The response at the end, with what the provider reported. -/
def terminalResponse (s : PluginStream) (durationSecs : UInt64) (metadata : ResponseMetadata) : UnifiedResponse :=
  let response := { s.response with durationSecs := durationSecs, promptCacheUsage := metadata.promptCacheUsage }
  match metadata.tokenUsage with
  | none => response
  | some usage =>
    { response with promptTokens := usage.promptTokens, completionTokens := usage.completionTokens, usage := some usage }

/-- The end of the inner stream, the first time it is seen. -/
def finish (s : PluginStream) (w : W) : List Event × PluginStream × W :=
  let durationSecs := c.elapsed w
  let (metadata, w) := c.takeMetadata w
  let response := s.terminalResponse durationSecs metadata
  let (completions, w) := runCompletionHooks response 0 c.plugins w
  let write := if s.sawError then none else s.cacheWrite
  let w := match write with
    | some request => c.insertCache request response w
    | none => w
  let (published, response') := publishResponse s.completed response
  (completions ++ (write.toList.map (Event.cached · response) ++ published),
    { s with
      response := response'
      done := true
      completed := false
      cacheWrite := if s.sawError then s.cacheWrite else none }, w)

def poll (s : PluginStream) (w : W) : List Event × PluginStream × W :=
  match s.inner with
  | .pending :: inner => ([.pending], { s with inner := inner }, w)
  | .ready (.error e) :: inner => ([.item (.error (.inner e))], { s with inner := inner, sawError := true }, w)
  | .ready (.ok chunk) :: inner =>
    match rewrite c.plugins chunk w with
    | (.error e, w) => ([.item (.error e)], { s with inner := inner, sawError := true }, w)
    | (.ok chunk, w) =>
      ([.item (.ok chunk)],
        { s with
          inner := inner
          response := { s.response with
            content := s.response.content ++ [chunk]
            completionTokens := s.response.completionTokens + generatedTokens chunk } }, w)
  | [] =>
    if s.done then ([.ended], s, w)
    else
      let (events, s, w) := s.finish c w
      (events ++ [.ended], s, w)

end PluginStream

/-! ## The stream of a cache hit -/

structure CacheHitStream where
  blocks : List MessageContentBlock
  response : UnifiedResponse
  done : Bool
  completed : Bool

namespace CacheHitStream
variable {W : Type} (c : Shared W)

def poll (s : CacheHitStream) (w : W) : List Event × CacheHitStream × W :=
  match s.blocks with
  | block :: blocks => ([.item (.ok block)], { s with blocks := blocks }, w)
  | [] =>
    if s.done then ([.ended], s, w)
    else
      let response := { s.response with durationSecs := c.elapsed w }
      let (completions, w) := runCompletionHooks response 0 c.plugins w
      let (published, response') := publishResponse s.completed response
      (completions ++ published ++ [.ended], { s with response := response', done := true, completed := false }, w)

end CacheHitStream

/-! ## Runs -/

end Cuca.Client
