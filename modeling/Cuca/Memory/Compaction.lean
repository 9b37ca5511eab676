import Cuca.Types
import Cuca.Lib.Removal

/-!
# Compaction of a prompt

The pipeline of strategies that shortens a list of messages. The tokenizer, the summarizer and the vector store are
parameters; the last two may keep a state of their own.

* `removableTurnIndices`, `pairingClose` : which messages a strategy takes, and which go with them;
* `strategyOffload` … `strategyDropTurns` : the strategies, `runStrategy` : one of them;
* `runPass` : the strategies in order, until the prompt is within its budget;
* `compressInner` : up to four passes, `compress` : one pass without a budget.
-/

namespace Cuca.Memory.Compaction
open Removal

inductive CompactionStrategy where
  | offload (turns : Nat)
  | summarize (turns : Nat)
  | deduplicateFileReads (toolName : String)
  | clearToolResults (keepPairs : Nat)
  | clampOversizedMessages (maxPartTokens : Nat)
  | slidingWindow (keepMessages : Nat)
  | dropObservations
  | dropTurns
  deriving DecidableEq, Repr

inductive CompressionAction where
  | offloaded
  | summarized
  | deduplicatedFileReads
  | clearedToolResults
  | clampedParts
  | slid
  | droppedObservations
  | droppedTurns
  deriving DecidableEq, Repr

inductive Budget where
  | messages (n : Nat)
  | tokens (n : Nat)
  | unlimited
  deriving DecidableEq, Repr

structure CompressionReport where
  tokensBefore : Nat
  tokensAfter : Nat
  actions : List CompressionAction
  lastError : Option String
  deriving DecidableEq, Repr

/-- `F` is `f32`. -/
structure MemoryConfig (F : Type) where
  contextWindowTokens : Nat
  contextWindowResolver : Option (String → Option Nat)
  maxMessages : Option Nat
  maxTokens : Option Nat
  maxFraction : Option F
  strategies : List CompactionStrategy
  offloadTurns : Nat
  maxDropSystemObservations : Nat

def MemoryConfig.validate {F : Type} (c : MemoryConfig F) : Except PluginError Unit :=
  if c.maxTokens.isSome && c.maxFraction.isSome then
    .error (.internal "max_tokens and max_fraction are mutually exclusive")
  else .ok ()

/-- `W` is the state that the extensions keep. -/
structure MemoryPlugin (F W : Type) where
  config : MemoryConfig F
  valid : config.validate = .ok ()
  summarizer : Option (W → List UnifiedMessage → String × W)
  store : Option (W → String → List UnifiedMessage → Except PluginError Unit × W)
  /-- How many tokens `encode_ordinary` finds in a text. -/
  encoder : String → Nat

/-- What a strategy edits, and the state of the extensions it calls. -/
structure Prompt (W : Type) where
  world : W
  messages : List UnifiedMessage

def sessionHint : String := "cuca-memory"

/-! ## Messages -/

def UnifiedMessage.user (text : String) : UnifiedMessage := ⟨.user, [.text text], none, none⟩

def isSystem (m : UnifiedMessage) : Bool := m.role == .system

def isUser (m : UnifiedMessage) : Bool := m.role == .user

def isText : MessageContentBlock → Bool
  | .text _ => true
  | _ => false

/-- The ids of the tool calls a message holds. -/
def callIds (m : UnifiedMessage) : List String :=
  m.content.filterMap fun
    | .toolCall id _ _ => some id
    | _ => none

def roleLabel : MessageRole → String
  | .system => "system"
  | .user => "user"
  | .assistant => "assistant"
  | .tool => "tool"

/-- The text of a message that `count_tokens` encodes. -/
def serialized (m : UnifiedMessage) : String :=
  roleLabel m.role ++ " " ++ " ".intercalate (m.content.filterMap fun
    | .text t => some t
    | _ => none)

/-! ## The messages a strategy takes -/

def removableTurnIndices (messages : List UnifiedMessage) (cap : Nat) : List Nat :=
  ((messages.zipIdx.filter fun (msg, i) => !isSystem msg && some i != rposition isUser messages).map (·.2)).take cap

def carriesResult (callIds : List String) (m : UnifiedMessage) : Bool :=
  (m.role == .tool && m.toolCallId.any (· ∈ callIds)) || m.content.any fun
    | .toolResult toolCallId _ => toolCallId ∈ callIds
    | _ => false

/-- The set of indices, with those of the messages that carry the result of a call in it. -/
def pairingClose (messages : List UnifiedMessage) (dropSet : List Nat) : List Nat :=
  let ids := dropSet.flatMap fun i => (messages[i]?.map callIds).getD []
  if ids.isEmpty then dropSet
  else
    dropSet ++ (List.range messages.length).filter fun i =>
      i ∉ dropSet && some i != rposition isUser messages && messages[i]?.any (carriesResult ids)

/-- `closed_idxs` : the closed set in rising order. -/
def closedIdxs (messages : List UnifiedMessage) (dropSet : List Nat) : List Nat :=
  (List.range messages.length).filter (· ∈ pairingClose messages dropSet)

def removeIndices (messages : List UnifiedMessage) (idxs : List Nat) : List UnifiedMessage := retain 0 idxs messages

/-- The oldest messages beyond the last `keepMessages`, less the first System and the most recent User message. -/
def slidingWindowIndices (messages : List UnifiedMessage) (keepMessages : Nat) : List Nat :=
  ((List.range messages.length).filter fun i =>
    some i != messages.findIdx? isSystem && some i != rposition isUser messages).take (messages.length - keepMessages)

def observationIndices (messages : List UnifiedMessage) (cap : Nat) : List Nat :=
  (((messages.zipIdx.filter fun (msg, _) => isSystem msg).map (·.2)).drop 1).take cap

/-! ## Results in place -/

/-- The tool results in order: a message index, and a block index unless the output is the texts of a Tool message. -/
def collectResultUnits (messages : List UnifiedMessage) : List (Nat × Option Nat) :=
  messages.zipIdx.flatMap fun (msg, i) =>
    (if msg.role == .tool && msg.toolCallId.isSome then [(i, none)] else []) ++
      msg.content.zipIdx.filterMap fun
        | (.toolResult _ _, j) => some (i, some j)
        | _ => none

def findResultLocation (callId : String) : List UnifiedMessage → Option (Nat × Option Nat)
  | [] => none
  | msg :: messages =>
    if msg.role == .tool && msg.toolCallId == some callId then
      if msg.content.any isText then some (0, none) else none
    else
      let isResult : MessageContentBlock → Bool
        | .toolResult toolCallId _ => toolCallId == callId
        | _ => false
      match msg.content.findIdx? isResult with
      | some j => some (0, some j)
      | none => (findResultLocation callId messages).map fun location => (location.1 + 1, location.2)

def clearOutput : MessageContentBlock → MessageContentBlock
  | .toolResult toolCallId _ => .toolResult toolCallId ""
  | block => block

def clearText : MessageContentBlock → MessageContentBlock
  | .text _ => .text ""
  | block => block

/-- Whether anything was blanked, and the messages after. -/
def blankResult (messages : List UnifiedMessage) : Nat × Option Nat → Bool × List UnifiedMessage
  | (i, some j) =>
    match messages[i]?.bind (·.content[j]?) with
    | some (.toolResult _ _) =>
      (true, messages.modify i fun msg => { msg with content := msg.content.modify j clearOutput })
    | _ => (false, messages)
  | (i, none) =>
    (messages[i]?.any (·.content.any isText),
      messages.modify i fun msg => { msg with content := msg.content.map clearText })

/-- `blanked |= blank_result(messages, unit)`. -/
def blankUnit (state : Bool × List UnifiedMessage) (unit : Nat × Option Nat) : Bool × List UnifiedMessage :=
  let (blanked, messages) := blankResult state.2 unit
  (state.1 || blanked, messages)

/-- The paths a message reads with the tool, each with the id of the call. -/
def readCalls (toolName : String) (m : UnifiedMessage) : List (String × String) :=
  m.content.filterMap fun
    | .toolCall id name arguments =>
      if name = toolName then ((arguments.get "path").bind Value.asStr).map fun path => (id, path) else none
    | _ => none

structure Reads where
  seen : List String
  blanked : Bool
  messages : List UnifiedMessage

def Reads.read (s : Reads) (call : String × String) : Reads :=
  match findResultLocation call.1 s.messages with
  | none => s
  | some location =>
    if call.2 ∈ s.seen then
      let (blanked, messages) := blankResult s.messages location
      { s with blanked := s.blanked || blanked, messages := messages }
    else { s with seen := call.2 :: s.seen }

def Reads.readAll (toolName : String) (s : Reads) (i : Nat) : Reads :=
  ((s.messages[i]?.map (readCalls toolName)).getD []).foldl Reads.read s

def truncationMarker : String := "\n…[truncated]…\n"

/-- A quarter of the characters from each end. -/
def clampOversized (s : String) : String :=
  let total := s.length
  if total ≤ truncationMarker.length * 2 then truncationMarker
  else
    String.ofList (s.toList.take (total / 4)) ++ truncationMarker ++ String.ofList (s.toList.drop (total - total / 4))

def isOversized (big : String → Bool) : MessageContentBlock → Bool
  | .text t => big t
  | .toolResult _ output => big output
  | .thinking reasoning _ => big reasoning
  | .toolCall _ _ (.string s) => big s
  | _ => false

def clampBlock (big : String → Bool) : MessageContentBlock → MessageContentBlock
  | .text t => .text (if big t then clampOversized t else t)
  | .toolResult toolCallId output => .toolResult toolCallId (if big output then clampOversized output else output)
  | .thinking reasoning signature => .thinking (if big reasoning then clampOversized reasoning else reasoning) signature
  | .toolCall id name (.string s) => .toolCall id name (.string (if big s then clampOversized s else s))
  | block => block

namespace MemoryPlugin
variable {F W : Type} (p : MemoryPlugin F W)

/-! ## The trigger -/

def countTokens (messages : List UnifiedMessage) : Nat := (messages.map fun msg => p.encoder (serialized msg)).sum % 2 ^ 32

/-- The window, and whether the resolver knows it. -/
def resolvedWindow (model : String) : Nat × Bool :=
  match p.config.contextWindowResolver.bind (· model) with
  | some window => (window, true)
  | none => (p.config.contextWindowTokens, false)

/-- `share` is `(window as f32 * f) as u32`. -/
def budget (share : Nat → F → Nat) (model : String) : Budget :=
  match p.config.maxMessages, p.config.maxTokens, p.config.maxFraction with
  | some n, _, _ => .messages n
  | none, some n, _ => .tokens n
  | none, none, some f => .tokens (share (p.resolvedWindow model).1 f)
  | none, none, none => .unlimited

def overBudget (messages : List UnifiedMessage) (usage : Nat) : Budget → Bool
  | .messages n => messages.length > n
  | .tokens n => usage ≥ n
  | .unlimited => false

/-! ## The strategies -/

/-- What a strategy returns, and the prompt it leaves. -/
abbrev Outcome (W : Type) := Except PluginError (Option CompressionAction) × Prompt W

def strategyOffload (turns : Nat) (s : Prompt W) : Outcome W :=
  match p.store with
  | none => (.ok none, s)
  | some storeTurns =>
    let idxs := removableTurnIndices s.messages turns
    if idxs.isEmpty then (.ok none, s)
    else
      let closed := closedIdxs s.messages idxs
      let (turns, messages) := takeOut closed s.messages
      match storeTurns s.world sessionHint turns with
      | (.error error, world) => (.error error, ⟨world, putBack closed turns messages⟩)
      | (.ok (), world) => (.ok (some .offloaded), ⟨world, messages⟩)

def strategySummarize (turns : Nat) (s : Prompt W) : Outcome W :=
  match p.summarizer with
  | none => (.ok none, s)
  | some summarize =>
    let idxs := removableTurnIndices s.messages turns
    if idxs.isEmpty then (.ok none, s)
    else
      let closed := closedIdxs s.messages idxs
      let (turns, messages) := takeOut closed s.messages
      let (summary, world) := summarize s.world turns
      -- `closed_idxs[0]` : the set is not empty
      (.ok (some .summarized), ⟨world, messages.insertIdx (closed.headD 0) (UnifiedMessage.user summary)⟩)

def strategyDedupFileReads (toolName : String) (s : Prompt W) : Outcome W :=
  let reads := (List.range s.messages.length).reverse.foldl (Reads.readAll toolName) ⟨[], false, s.messages⟩
  (.ok (if reads.blanked then some .deduplicatedFileReads else none), ⟨s.world, reads.messages⟩)

def strategyClearToolResults (keepPairs : Nat) (s : Prompt W) : Outcome W :=
  let units := collectResultUnits s.messages
  if units.length ≤ keepPairs then (.ok none, s)
  else
    let blanked := (units.take (units.length - keepPairs)).foldl blankUnit (false, s.messages)
    (.ok (if blanked.1 then some .clearedToolResults else none), ⟨s.world, blanked.2⟩)

/-- The token count of one block, as `u32`, against the cap. -/
def big (maxPartTokens : Nat) (text : String) : Bool := p.encoder text % 2 ^ 32 > maxPartTokens

def strategyClampOversized (maxPartTokens : Nat) (s : Prompt W) : Outcome W :=
  let clamped := s.messages.any fun msg => msg.content.any (isOversized (p.big maxPartTokens))
  (.ok (if clamped then some .clampedParts else none), ⟨s.world, s.messages.map fun msg =>
    { msg with content := msg.content.map (clampBlock (p.big maxPartTokens)) }⟩)

def strategySlidingWindow (keepMessages : Nat) (s : Prompt W) : Outcome W :=
  if s.messages.length ≤ keepMessages then (.ok none, s)
  else
    let closed := closedIdxs s.messages (slidingWindowIndices s.messages keepMessages)
    (.ok (some .slid), ⟨s.world, removeIndices s.messages closed⟩)

def strategyDropObservations (s : Prompt W) : Outcome W :=
  let toRemove := observationIndices s.messages p.config.maxDropSystemObservations
  if toRemove.isEmpty then (.ok none, s)
  else (.ok (some .droppedObservations), ⟨s.world, removeIndices s.messages toRemove⟩)

def strategyDropTurns (s : Prompt W) : Outcome W :=
  let idxs := removableTurnIndices s.messages p.config.offloadTurns
  if idxs.isEmpty then (.ok none, s)
  else (.ok (some .droppedTurns), ⟨s.world, removeIndices s.messages (closedIdxs s.messages idxs)⟩)

def runStrategy (strategy : CompactionStrategy) (s : Prompt W) : Outcome W :=
  match strategy with
  | .offload turns => p.strategyOffload turns s
  | .summarize turns => p.strategySummarize turns s
  | .deduplicateFileReads toolName => strategyDedupFileReads toolName s
  | .clearToolResults keepPairs => strategyClearToolResults keepPairs s
  | .clampOversizedMessages maxPartTokens => p.strategyClampOversized maxPartTokens s
  | .slidingWindow keepMessages => strategySlidingWindow keepMessages s
  | .dropObservations => p.strategyDropObservations s
  | .dropTurns => p.strategyDropTurns s

/-! ## The pipeline -/

/-- What a pass, or the passes so far, have done. -/
structure Progress (W : Type) where
  actions : List CompressionAction
  lastError : Option String
  prompt : Prompt W

def runPass (budget : Budget) : List CompactionStrategy → Option String → Prompt W → Progress W
  | [], lastError, s => ⟨[], lastError, s⟩
  | strategy :: strategies, lastError, s =>
    match p.runStrategy strategy s with
    | (.ok (some action), s') =>
      if budget != .unlimited && !overBudget s'.messages (p.countTokens s'.messages) budget then ⟨[action], lastError, s'⟩
      else
        let rest := runPass budget strategies lastError s'
        { rest with actions := action :: rest.actions }
    | (.ok none, s') => runPass budget strategies lastError s'
    | (.error e, s') => runPass budget strategies (some e.display) s'

/-- The loop ends after this pass: no budget, within the budget, or no progress. -/
def isDone (budget : Budget) (before : Prompt W) (pass : Progress W) : Bool :=
  let messages := pass.prompt.messages
  let progress := !pass.actions.isEmpty || messages.length != before.messages.length
  budget == .unlimited || !overBudget messages (p.countTokens messages) budget || !progress

/-- The loop over passes, of which so many are left. -/
def runPasses (budget : Budget) : Nat → Progress W → Progress W
  | 0, state => state
  | left + 1, state =>
    let pass := p.runPass budget p.config.strategies state.lastError state.prompt
    let state' : Progress W := { pass with actions := state.actions ++ pass.actions }
    if p.isDone budget state.prompt pass then state' else runPasses budget left state'

def compressInner (budget : Budget) (s : Prompt W) : CompressionReport × Prompt W :=
  let final := p.runPasses budget 4 ⟨[], none, s⟩
  (⟨p.countTokens s.messages, p.countTokens final.prompt.messages, final.actions, final.lastError⟩, final.prompt)

def compress (s : Prompt W) : CompressionReport × Prompt W := p.compressInner .unlimited s

end MemoryPlugin
end Cuca.Memory.Compaction
