import Cuca.Lib.Buckets
import Cuca.Lib.Transition
import Cuca.Request

/-!
# The cost ledger

A request is charged before it is sent, its response when it is complete. The ledger keeps totals, and a bucket for each model as
long as there are slots; the others share one bucket. A request whose turn an observer aborts is refunded.

`u64` arithmetic saturates.

* `CostEntry`, `CostLedger` : the ledger and its operations;
* `onRequest`, `onResponseComplete` : what the hooks do under the lock;
* `CostState.step` : charges, refunds, commits and resets, in any order.
-/

namespace Cuca.Cost
open Buckets

def u64Max : Nat := 2 ^ 64 - 1

def satAdd (a b : Nat) : Nat := min (a + b) u64Max

/-! ## Prices -/

structure ModelRates where
  inputMicrosPerMtok : Nat
  outputMicrosPerMtok : Nat
  cacheReadMicrosPerMtok : Nat
  cacheWriteMicrosPerMtok : Nat

def tokensPerMtok : Nat := 1000000

def priceMicros (tokens microsPerMtok : Nat) : Nat := min (tokens * microsPerMtok / tokensPerMtok) u64Max

/-! ## Entries -/

structure CostEntry where
  promptTokens : Nat
  completionTokens : Nat
  cacheReadTokens : Nat
  cacheWriteTokens : Nat
  spentMicros : Nat
  turns : Nat
  deriving DecidableEq, Repr

namespace CostEntry

def zero : CostEntry := ⟨0, 0, 0, 0, 0, 0⟩

def totalTokens (e : CostEntry) : Nat := satAdd e.promptTokens e.completionTokens

def add (e delta : CostEntry) : CostEntry where
  promptTokens := satAdd e.promptTokens delta.promptTokens
  completionTokens := satAdd e.completionTokens delta.completionTokens
  cacheReadTokens := satAdd e.cacheReadTokens delta.cacheReadTokens
  cacheWriteTokens := satAdd e.cacheWriteTokens delta.cacheWriteTokens
  spentMicros := satAdd e.spentMicros delta.spentMicros
  turns := satAdd e.turns delta.turns

def sub (e delta : CostEntry) : CostEntry where
  promptTokens := e.promptTokens - delta.promptTokens
  completionTokens := e.completionTokens - delta.completionTokens
  cacheReadTokens := e.cacheReadTokens - delta.cacheReadTokens
  cacheWriteTokens := e.cacheWriteTokens - delta.cacheWriteTokens
  spentMicros := e.spentMicros - delta.spentMicros
  turns := e.turns - delta.turns

def commit (e delta : CostEntry) (refundMicros : Nat) : CostEntry :=
  add { e with spentMicros := e.spentMicros - refundMicros } delta

end CostEntry

/-! ## The ledger -/

structure CostTotals where
  entry : CostEntry
  unpricedTurns : Nat
  untokenizedImageBlocks : Nat
  overflowTurns : Nat
  deriving DecidableEq, Repr

structure RequestCharge where
  entry : CostEntry
  unpriced : Bool
  imageBlocks : Nat
  deriving DecidableEq, Repr

structure CostLedger where
  totals : CostTotals
  perModel : AList fun _ : String => CostEntry

/-- `OVERFLOW_MODEL` -/
def overflowModel : String := "\x00cuca-cost-overflow"

namespace CostLedger

def new : CostLedger := ⟨⟨.zero, 0, 0, 0⟩, ∅⟩

/-- The key a model charges to, and whether it is the shared one because there is no slot. -/
def keyFor (l : CostLedger) (model : String) (maxTracked : Nat) : String × Bool :=
  if model ∈ l.perModel then (model, false)
  else
    let tracked := l.perModel.keys.length - (if overflowModel ∈ l.perModel then 1 else 0)
    if tracked ≥ maxTracked then (overflowModel, true) else (model, false)

def addToBucket (l : CostLedger) (key : String) (delta : CostEntry) : CostLedger :=
  match l.perModel.lookup key with
  | some bucket => { l with perModel := l.perModel.insert key (bucket.add delta) }
  | none => { l with perModel := l.perModel.insert key delta }

def chargeRequest (l : CostLedger) (model : String) (maxTracked : Nat) (charge : RequestCharge) : CostLedger :=
  let totals := { l.totals with
    entry := l.totals.entry.add charge.entry
    unpricedTurns := if charge.unpriced then satAdd l.totals.unpricedTurns 1 else l.totals.unpricedTurns
    untokenizedImageBlocks := satAdd l.totals.untokenizedImageBlocks charge.imageBlocks }
  addToBucket { l with totals := totals } (l.keyFor model maxTracked).1 charge.entry

/-- Takes a charge back; a bucket that is left at zero goes. -/
def refundRequest (l : CostLedger) (model : String) (maxTracked : Nat) (charge : RequestCharge) : CostLedger :=
  let totals := { l.totals with
    entry := l.totals.entry.sub charge.entry
    unpricedTurns := if charge.unpriced then l.totals.unpricedTurns - 1 else l.totals.unpricedTurns
    untokenizedImageBlocks := l.totals.untokenizedImageBlocks - charge.imageBlocks }
  let key := (l.keyFor model maxTracked).1
  match l.perModel.lookup key with
  | some bucket =>
    if bucket.sub charge.entry = .zero then ⟨totals, l.perModel.erase key⟩
    else ⟨totals, l.perModel.insert key (bucket.sub charge.entry)⟩
  | none => ⟨totals, l.perModel⟩

def chargedPromptTokens (l : CostLedger) (model : String) (maxTracked : Nat) : Nat :=
  match l.perModel.lookup (l.keyFor model maxTracked).1 with
  | some bucket => bucket.promptTokens
  | none => 0

def commitResponse (l : CostLedger) (model : String) (maxTracked : Nat) (delta : CostEntry) (refundMicros : Nat) : CostLedger :=
  let (key, folded) := l.keyFor model maxTracked
  let totals := { l.totals with
    overflowTurns := if folded then satAdd l.totals.overflowTurns 1 else l.totals.overflowTurns
    entry := l.totals.entry.commit delta refundMicros }
  match l.perModel.lookup key with
  | some bucket => ⟨totals, l.perModel.insert key (bucket.commit delta refundMicros)⟩
  | none => ⟨totals, l.perModel.insert key (CostEntry.zero.commit delta refundMicros)⟩

end CostLedger

/-! ## The plugin -/

inductive UnpricedModelPolicy where
  | reject
  | countTokensOnly
  deriving DecidableEq, Repr

structure CostConfig where
  pricing : AList fun _ : String => ModelRates
  maxTotalTokens : Option Nat
  maxTotalMicros : Option Nat
  maxTrackedModels : Nat
  onUnpricedModel : UnpricedModelPolicy

/-- How many tokens a text has, and the JSON text of a value. -/
structure Encoder where
  count : String → Nat
  toJson : Value → String

structure PromptEstimate where
  tokens : Nat
  imageBlocks : Nat

def rolePrefix : MessageRole → String
  | .system => "system "
  | .user => "user "
  | .assistant => "assistant "
  | .tool => "tool "

section
variable (enc : Encoder) (config : CostConfig)

def estimateBlock (estimate : PromptEstimate) : MessageContentBlock → PromptEstimate
  | .text text => { estimate with tokens := satAdd estimate.tokens (enc.count text) }
  | .thinking reasoning _ => { estimate with tokens := satAdd estimate.tokens (enc.count reasoning) }
  | .toolCall _ name arguments =>
    { estimate with tokens := satAdd (satAdd estimate.tokens (enc.count name)) (enc.count (enc.toJson arguments)) }
  | .toolResult _ output => { estimate with tokens := satAdd estimate.tokens (enc.count output) }
  | .imageBase64 _ _ => { estimate with imageBlocks := satAdd estimate.imageBlocks 1 }

def estimateMessage (estimate : PromptEstimate) (msg : UnifiedMessage) : PromptEstimate :=
  msg.content.foldl (estimateBlock enc) { estimate with tokens := satAdd estimate.tokens (enc.count (rolePrefix msg.role)) }

def estimateTool (estimate : PromptEstimate) (tool : ToolDefinition) : PromptEstimate :=
  { estimate with
    tokens := satAdd (satAdd (satAdd estimate.tokens (enc.count tool.name)) (enc.count tool.description))
      (enc.count (enc.toJson tool.inputSchema)) }

def estimatePrompt (req : UnifiedRequest) : PromptEstimate :=
  req.tools.foldl (estimateTool enc) (req.messages.foldl (estimateMessage enc) ⟨0, 0⟩)

def estimateCompletion (content : List MessageContentBlock) : Nat :=
  content.foldl (fun tokens block =>
    match block with
    | .text text => satAdd tokens (enc.count text)
    | .thinking reasoning _ => satAdd tokens (enc.count reasoning)
    | .toolCall _ name arguments => satAdd (satAdd tokens (enc.count name)) (enc.count (enc.toJson arguments))
    | .toolResult _ _ => tokens
    | .imageBase64 _ _ => tokens) 0

/-- The rates of a model; `resolved` is what the resolver answers. -/
def ratesFor (resolved : Option ModelRates) (model : String) : Option ModelRates := resolved.or (config.pricing.lookup model)

def hook (message : String) : PluginError := .hookFailure "cost-accounting" "request" message

/-- What a request is charged, unless its model has no rates and is refused. -/
def requestCharge (resolved : Option ModelRates) (req : UnifiedRequest) : Except PluginError RequestCharge :=
  let estimate := estimatePrompt enc req
  let rates := ratesFor config resolved req.model
  if rates.isNone ∧ config.onUnpricedModel = .reject then
    let model := req.model
    .error (hook s!"no rates for model '{model}'")
  else
    let turnMicros := (rates.map fun r => priceMicros estimate.tokens r.inputMicrosPerMtok).getD 0
    .ok ⟨⟨estimate.tokens, 0, 0, 0, turnMicros, 0⟩, rates.isNone, estimate.imageBlocks⟩

/-- The caps, against the totals with the charge. -/
def checkCaps (l : CostLedger) (charge : RequestCharge) : Except PluginError Unit :=
  let projectedTokens := satAdd l.totals.entry.totalTokens charge.entry.promptTokens
  let projectedMicros := satAdd l.totals.entry.spentMicros charge.entry.spentMicros
  match config.maxTotalTokens.filter (projectedTokens > ·) with
  | some cap => .error (hook s!"token budget exceeded: this turn would reach {projectedTokens} of {cap} tokens")
  | none =>
    match config.maxTotalMicros.filter (projectedMicros > ·) with
    | some cap => .error (hook s!"currency budget exceeded: this turn would reach {projectedMicros} of {cap} micros")
    | none => .ok ()

/-- `on_request`, up to the observers. -/
def onRequest (resolved : Option ModelRates) (req : UnifiedRequest) (l : CostLedger) :
    Except PluginError (RequestCharge × CostLedger) :=
  match requestCharge enc config resolved req with
  | .error e => .error e
  | .ok charge =>
    match checkCaps config l charge with
    | .error e => .error e
    | .ok () => .ok (charge, l.chargeRequest req.model config.maxTrackedModels charge)

/-- What a response adds, and the spend that its cached prompt tokens take back. -/
def responseDelta (resolved : Option ModelRates) (res : UnifiedResponse) (l : CostLedger) : CostEntry × Nat :=
  let completionTokens := estimateCompletion enc res.content
  let rates := ratesFor config resolved res.model
  let spend := (rates.map fun r => priceMicros completionTokens r.outputMicrosPerMtok).getD 0
  match res.promptCacheUsage with
  | none => (⟨0, completionTokens, 0, 0, spend, 1⟩, 0)
  | some cache =>
    let read := min cache.readTokens (l.chargedPromptTokens res.model config.maxTrackedModels)
    let write := cache.writeTokens
    match rates with
    | none => (⟨0, completionTokens, read, write, spend, 1⟩, 0)
    | some r =>
      (⟨0, completionTokens, read, write,
          satAdd (satAdd spend (priceMicros read r.cacheReadMicrosPerMtok)) (priceMicros write r.cacheWriteMicrosPerMtok), 1⟩,
        priceMicros read r.inputMicrosPerMtok)

/-- `on_response_complete`, up to the observers. -/
def onResponseComplete (resolved : Option ModelRates) (res : UnifiedResponse) (l : CostLedger) : CostLedger :=
  let (delta, refundMicros) := responseDelta enc config resolved res l
  l.commitResponse res.model config.maxTrackedModels delta refundMicros

/-! ## Runs -/

/-- The ledger, and the charges since the last reset that may still be refunded. -/
structure CostState where
  ledger : CostLedger
  pending : List (String × RequestCharge)

/-- The hooks take turns at the ledger; each comes with what the resolver answers it. -/
inductive Event where
  | request (resolved : Option ModelRates) (req : UnifiedRequest)
  /-- An observer aborts the turn of this charge. -/
  | refund (index : Nat)
  | response (resolved : Option ModelRates) (res : UnifiedResponse)
  | reset

namespace CostState

def new : CostState := ⟨.new, []⟩

def step (s : CostState) : Event → CostState
  | .request resolved req =>
    match onRequest enc config resolved req s.ledger with
    | .error _ => s
    | .ok (charge, ledger) => ⟨ledger, s.pending ++ [(req.model, charge)]⟩
  | .refund index =>
    match s.pending[index]? with
    | none => s
    | some (model, charge) => ⟨s.ledger.refundRequest model config.maxTrackedModels charge, s.pending.eraseIdx index⟩
  | .response resolved res => { s with ledger := onResponseComplete enc config resolved res s.ledger }
  | .reset => ⟨.new, []⟩

end CostState

end

end Cuca.Cost
