import Cuca.Lib.History
import Cuca.Provider.Stream
import Cuca.Request

/-!
# The orchestrator

A turn is drafted by the fast tier. Each block is validated; a rejected one, or a fast tier that is quiet for too long, moves the
turn to the slow tier, with the rejections so far appended to the request.

Executors, validators and the streams of the tiers live in a world `W`, which may change between two polls; nothing is assumed of
them.

* `rejectionMessage` : what stands in the request for a rejected block;
* `OrchestratorStream.step` : one turn of the loop of `poll_next`;
* `OrchestratorStream.pollNext` : one poll, with what it does on the way.
-/

namespace Cuca.Orchestrator
open Provider (Poll Item)

structure SwappableModelPair where
  fastProvider : ProviderEndpoint
  fastModelId : String
  slowProvider : ProviderEndpoint
  slowModelId : String
  latencyThresholdMs : Nat
  fallbackOnToolError : Bool

/-- What a stream polls: nothing yet, an item, or the end. -/
abbrev Answer := Poll (Option Item)

/-- What an orchestrated turn works with; `S` are the streams of the tiers. -/
structure Services (S W : Type) where
  config : SwappableModelPair
  /-- The reason of a rejection is the error. -/
  validate : MessageContentBlock → W → Except String Unit × W
  executeSlow : UnifiedRequest → W → Except CucaError S × W
  pollInner : S → W → Answer × S × W
  /-- The clock, in nanoseconds. -/
  now : W → Nat
  /-- Appends a `ModelSwap` of these models for this reason; a failure is ignored. -/
  appendSwap : String → String → String → W → W

inductive OrchestratorState (S : Type) where
  | drafting (inner : S) (started : Nat) (workingRequest : UnifiedRequest) (fallbackAttemptsLeft : Nat)
  | slow (inner : S) (workingRequest : UnifiedRequest) (fallbackAttemptsLeft : Nat)
  | done

/-- `FALLBACK_ATTEMPTS` -/
def fallbackAttempts : Nat := 2

/-! ## Rejections -/

def rejectionMessage (block : MessageContentBlock) (reason : String) : UnifiedMessage :=
  let toolCallId := match block with
    | .toolCall id _ _ => some id
    | _ => none
  { role := .tool
    content := [.toolResult (toolCallId.getD "") reason]
    name := none
    toolCallId := toolCallId }

def extended (request : UnifiedRequest) (more : List UnifiedMessage) : UnifiedRequest :=
  { request with messages := request.messages ++ more }

/-! ## What happens in a turn -/

inductive Tier where
  | fast
  | slow
  deriving DecidableEq

/-- Why the slow tier is executed. -/
inductive Cause where
  | rejection
  | latency
  deriving DecidableEq

inductive Event where
  | polled (tier : Tier) (answer : Answer)
  | validated (block : MessageContentBlock) (verdict : Except String Unit)
  /-- An execution of the slow tier, with its error if it did not start. -/
  | executed (cause : Cause) (request : UnifiedRequest) (failure : Option CucaError)
  /-- What the poll answers. -/
  | answered (answer : Answer)

/-- What one turn of the loop does and answers, and the state and the world after it; without an answer the loop goes on. -/
structure Outcome (S W : Type) where
  events : List Event
  answer : Option Answer
  state : OrchestratorState S
  world : W

def Outcome.after {S W : Type} (event : Event) (r : Outcome S W) : Outcome S W := { r with events := event :: r.events }

namespace OrchestratorStream
variable {S W : Type} (o : Services S W)

/-- The state in which `execute_adaptive_turn` hands out the stream. -/
def start (inner : S) (started : Nat) (request : UnifiedRequest) : OrchestratorState S :=
  .drafting inner started request fallbackAttempts

def recordSwap (reason : String) (w : W) : W := o.appendSwap o.config.fastModelId o.config.slowModelId reason w

def finish (answer : Answer) (s : OrchestratorState S) (w : W) : Outcome S W := ⟨[.answered answer], some answer, s, w⟩

/-- Executes the slow tier, and goes on with it. -/
def execute (cause : Cause) (request : UnifiedRequest) (left : Nat) (w : W) : Outcome S W :=
  match o.executeSlow request w with
  | (.ok slow, w) => ⟨[.executed cause request none], none, .slow slow request left, w⟩
  | (.error e, w) => (finish (.ready (some (.error e))) .done w).after (.executed cause request (some e))

/-- A rejected block: the slow tier is executed again, or the reason is the error of the provider. -/
def reject (provider : ProviderEndpoint) (block : MessageContentBlock) (reason : String) (request : UnifiedRequest) (left : Nat)
    (w : W) : Outcome S W :=
  if left > 0 ∧ o.config.fallbackOnToolError then
    execute o .rejection (extended request [rejectionMessage block reason]) (left - 1) (recordSwap o "fallback_validation" w)
  else finish (.ready (some (.error (.provider provider reason)))) .done w

/-- Validates a block; one that is accepted is yielded in this state. -/
def judge (provider : ProviderEndpoint) (block : MessageContentBlock) (accepted : OrchestratorState S) (request : UnifiedRequest)
    (left : Nat) (w : W) : Outcome S W :=
  match o.validate block w with
  | (.ok (), w) => (finish (.ready (some (.ok block))) accepted w).after (.validated block (.ok ()))
  | (.error reason, w) => (reject o provider block reason request left w).after (.validated block (.error reason))

/-- What follows an answer of the fast tier. -/
def drafted (inner : S) (started : Nat) (request : UnifiedRequest) (left : Nat) (w : W) : Answer → Outcome S W
  | .pending =>
    if (o.now w - started) / 1000000 % 2 ^ 64 > o.config.latencyThresholdMs then
      execute o .latency request left (recordSwap o "latency_threshold" w)
    else finish .pending (.drafting inner started request left) w
  | .ready (some (.ok block)) => judge o o.config.fastProvider block (.drafting inner started request left) request left w
  | .ready (some (.error e)) => finish (.ready (some (.error e))) (.drafting inner started request left) w
  | .ready none => finish (.ready none) .done w

/-- What follows an answer of the slow tier. -/
def served (inner : S) (request : UnifiedRequest) (left : Nat) (w : W) : Answer → Outcome S W
  | .pending => finish .pending (.slow inner request left) w
  | .ready (some (.ok block)) => judge o o.config.slowProvider block (.slow inner request left) request left w
  | .ready (some (.error e)) => finish (.ready (some (.error e))) (.slow inner request left) w
  | .ready none => finish (.ready none) .done w

/-- `std::mem::replace` leaves `done` behind: an exit that puts no state back has ended the stream. -/
def step (s : OrchestratorState S) (w : W) : Outcome S W :=
  match s with
  | .done => finish (.ready none) .done w
  | .drafting inner started request left =>
    let (answer, inner, w) := o.pollInner inner w
    (drafted o inner started request left w answer).after (.polled .fast answer)
  | .slow inner request left =>
    let (answer, inner, w) := o.pollInner inner w
    (served o inner request left w answer).after (.polled .slow answer)

/-! ## The loop -/

/-- How many more times the loop can go round. -/
def rounds : OrchestratorState S → Nat
  | .drafting _ _ _ left => left + 1
  | .slow _ _ left => left
  | .done => 0

theorem rounds_execute (cause : Cause) (request : UnifiedRequest) (left : Nat) (w : W) :
    rounds (execute o cause request left w).state ≤ left := by
  unfold execute
  rcases o.executeSlow request w with ⟨e | slow, w⟩
  · exact Nat.zero_le left
  · exact le_rfl

theorem rounds_reject {provider : ProviderEndpoint} {block : MessageContentBlock} {reason : String} {request : UnifiedRequest}
    {left : Nat} {w : W} (h : (reject o provider block reason request left w).answer = none) :
    rounds (reject o provider block reason request left w).state < left := by
  unfold reject at h ⊢
  split_ifs at h ⊢ with hleft
  · have hrounds := rounds_execute o .rejection (extended request [rejectionMessage block reason]) (left - 1)
      (recordSwap o "fallback_validation" w)
    omega
  · cases h

theorem rounds_judge {provider : ProviderEndpoint} {block : MessageContentBlock} {accepted : OrchestratorState S}
    {request : UnifiedRequest} {left : Nat} {w : W} (h : (judge o provider block accepted request left w).answer = none) :
    rounds (judge o provider block accepted request left w).state < left := by
  unfold judge at h ⊢
  rcases hvalidate : o.validate block w with ⟨reason | _, w'⟩
  · rw [hvalidate] at h
    exact rounds_reject o h
  · rw [hvalidate] at h
    cases h

theorem rounds_drafted {inner : S} {started : Nat} {request : UnifiedRequest} {left : Nat} {w : W} {answer : Answer}
    (h : (drafted o inner started request left w answer).answer = none) :
    rounds (drafted o inner started request left w answer).state < left + 1 := by
  rcases answer with _ | _ | e | block
  · unfold drafted at h ⊢
    split_ifs at h ⊢
    · exact Nat.lt_succ_of_le (rounds_execute o .latency request left _)
    · cases h
  · cases h
  · cases h
  · exact Nat.lt_succ_of_lt (rounds_judge o h)

theorem rounds_served {inner : S} {request : UnifiedRequest} {left : Nat} {w : W} {answer : Answer}
    (h : (served o inner request left w answer).answer = none) : rounds (served o inner request left w answer).state < left := by
  rcases answer with _ | _ | e | block
  · cases h
  · cases h
  · cases h
  · exact rounds_judge o h

/-- **The loop ends**: each time it goes round, fewer rounds are left. -/
theorem rounds_step (s : OrchestratorState S) (w : W) (h : (step o s w).answer = none) : rounds (step o s w).state < rounds s := by
  cases s with
  | drafting inner started request left => exact rounds_drafted o h
  | slow inner request left => exact rounds_served o h
  | done => cases h

/-- `poll_next`, with what it does on the way. -/
def pollNext (s : OrchestratorState S) (w : W) : List Event × OrchestratorState S × W :=
  if _hloops : (step o s w).answer = none then
    let (events, rest) := pollNext (step o s w).state (step o s w).world
    ((step o s w).events ++ events, rest)
  else ((step o s w).events, (step o s w).state, (step o s w).world)
termination_by rounds s
decreasing_by exact rounds_step o s w _hloops

end OrchestratorStream

end Cuca.Orchestrator
