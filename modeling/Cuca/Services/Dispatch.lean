import Cuca.Types
import Cuca.Services.Rebalance

/-!
# Dispatched calls

Backends that share one pool, and the calls of any number of dispatchers over them. A call's future runs in steps, one
lock or one await each; between two of them any other task may step.

* `Breaker`, `Backend`, `Registry.join` : the backends and how a list joins them;
* `pick` : the backend a call goes to;
* `Task.step` : a step of one `Dispatcher::call`: it reserves a place, polls for its slot, attempts to send, ends its
  stream, or is dropped;
* `Fleet.step` : a step of one of the calls, or of anything else that shares the pool.

What the network answers, and the loads a placement reads while other tasks step, are arguments of the steps.
-/

namespace Cuca.Services

/-! ## Requests and replies -/

inductive ThinkingEffort where
  | minimal
  | low
  | medium
  | high
  | xHigh
deriving DecidableEq, Repr

inductive ThinkingParams where
  | none
  | anthropic (budgetTokens : Option Nat) (adaptive : Bool)
  | gemini (thinkingBudget : Option Nat) (thinkingLevel : Option String)
  | openAi (reasoningEffort : Option String)
deriving DecidableEq, Repr

structure ThinkingConfig where
  enabled : Bool
  effort : Option ThinkingEffort
  params : ThinkingParams
deriving DecidableEq, Repr

/-- A request, as a dispatcher reads it; it passes `rest` on unread. -/
structure UnifiedRequest (B : Type) where
  model : String
  thinking : Option ThinkingConfig
  rest : B
deriving DecidableEq, Repr

structure TokenUsage where
  promptTokens : Nat
  completionTokens : Nat
  reasoningTokens : Option Nat
deriving DecidableEq, Repr

structure StreamedReply where
  text : String
  reasoningChars : Nat
  usage : Option TokenUsage
deriving DecidableEq, Repr

/-- What a finished call returns. -/
structure Completion where
  text : String
  model : String
  backend : BackendId
  level : Nat
  waitMs : Nat
  runMs : Nat
  outputChars : Nat
  reasoningChars : Nat
  usage : Option TokenUsage
deriving DecidableEq, Repr

inductive DispatchError where
  | config (message : String)
  | queueFull (backend : BackendId)
  | unreachable (detail : String)
  | timeout (seconds : Nat)
  | empty
  | reasoningOnly (reasoningChars : Nat)
  | inputsChanged
  | call (error : CucaError)
deriving DecidableEq, Repr

def DispatchError.ofScheduler : SchedulerError → DispatchError
  | .config message => .config message
  | .queueFull backend _ => .queueFull backend
  | .inputsChanged => .inputsChanged

/-- The characters `trim` removes. -/
def isWhitespace (c : Char) : Bool :=
  let n := c.toNat
  9 ≤ n && n ≤ 13 || n == 32 || n == 0x85 || n == 0xA0 || n == 0x1680 || 0x2000 ≤ n && n ≤ 0x200A || n == 0x2028 ||
    n == 0x2029 || n == 0x202F || n == 0x205F || n == 0x3000

namespace StreamedReply

def answered (reply : StreamedReply) : Bool := reply.text.toList.any fun c => !isWhitespace c

def outputChars (reply : StreamedReply) : Nat := reply.text.length + reply.reasoningChars

def report (reply : StreamedReply) : CallReport where
  outcome := if reply.answered then .ok else .failed
  promptTokens := reply.usage.map TokenUsage.promptTokens
  completionTokens := reply.usage.map TokenUsage.completionTokens
  outputChars := reply.outputChars

end StreamedReply

/-! ## Backends -/

/-- A one-deadline circuit breaker. -/
structure Breaker where
  openUntil : Option Nat
deriving DecidableEq, Repr

namespace Breaker

/-- How long it stays open after `now`. -/
def remaining (breaker : Breaker) (now : Nat) : Option Nat :=
  (breaker.openUntil.map fun deadline => deadline - now).filter fun remaining => remaining ≠ 0

def wholeSecs (duration : Nat) : Nat := max (duration / 1000000000) 1

def admitCall (breaker : Breaker) (now : Nat) : Except DispatchError Unit :=
  match breaker.remaining now with
  | some remaining =>
    .error (.unreachable ("a connect was refused; next attempt in " ++ toString (wholeSecs remaining) ++ "s"))
  | none => .ok ()

def trip (now cooldown : Nat) : Breaker := ⟨some (now + cooldown)⟩

def closed : Breaker := ⟨none⟩

end Breaker

/-- How to reach one backend. -/
structure BackendSpec where
  id : BackendId
  isLazy : Bool
  model : Option String
  thinking : Option ThinkingConfig
deriving DecidableEq, Repr

/-- One backend; `member` is its scheduler's place in the pool. -/
structure Backend where
  spec : BackendSpec
  built : Bool
  breaker : Breaker
  member : Nat
deriving DecidableEq, Repr

namespace Backend

def hasClient (backend : Backend) : Bool := !backend.spec.isLazy || backend.built

/-- The request as this backend is sent it: its own tag and thinking configuration where it has them. -/
def overwrite {B : Type} (backend : Backend) (request : UnifiedRequest B) : UnifiedRequest B :=
  { request with
    model := backend.spec.model.getD request.model
    thinking := backend.spec.thinking.or request.thinking }

end Backend

/-- The backends of a process, in the order they were built, and the pool of their schedulers. -/
structure Registry (F : Type) where
  pool : Pool F
  backends : List Backend

/-- One dispatcher's list: places in the registry, and the bits that name them. -/
structure Joined where
  backends : List Nat
  mask : UInt64
deriving DecidableEq, Repr

/-- The first id that an earlier one of the list repeats. -/
def firstRepeated : List BackendId → List BackendId → Option BackendId
  | _, [] => none
  | seen, id :: ids => if id ∈ seen then some id else firstRepeated (seen ++ [id]) ids

namespace Registry
variable {F : Type}

def empty : Registry F := ⟨.empty, []⟩

def modify (r : Registry F) (backend : Nat) (change : Backend → Backend) : Registry F :=
  { r with backends := r.backends.modify backend change }

def trip (r : Registry F) (backend now cooldown : Nat) : Registry F :=
  r.modify backend fun x => { x with breaker := .trip now cooldown }

def close (r : Registry F) (backend : Nat) : Registry F := r.modify backend fun x => { x with breaker := .closed }

def build (r : Registry F) (backend : Nat) : Registry F := r.modify backend fun x => { x with built := true }

variable [Meter F]

def poolStep (r : Registry F) (op : PoolOp) : Registry F := { r with pool := (r.pool.step op).1 }

/-- The backends `specs` lists, building each one that is not known yet. -/
def joinSpecs (config : ValidConfig) (now : Nat) : List BackendSpec → Registry F → Joined →
    Registry F × Except DispatchError Joined
  | [], r, joined => (r, .ok joined)
  | spec :: specs, r, joined =>
    match r.backends.findIdx? fun known => known.spec.id == spec.id with
    | some known =>
      let bit := (r.backends[known]?.map fun backend => bitOf backend.member).getD 0
      joinSpecs config now specs r ⟨joined.backends ++ [known], joined.mask ||| bit⟩
    | none =>
      let member := r.pool.members.length
      let r := r.poolStep (.insert spec.id config now)
      if member ≥ 64 then (r, .error (.config "more than 64 backends"))
      else
        joinSpecs config now specs
          { r with backends := r.backends ++ [⟨spec, false, .closed, member⟩] }
          ⟨joined.backends ++ [r.backends.length], joined.mask ||| bitOf member⟩

def join (r : Registry F) (specs : List BackendSpec) (config : ValidConfig) (now : Nat) :
    Registry F × Except DispatchError Joined :=
  match firstRepeated [] (specs.map BackendSpec.id) with
  | some id => (r, .error (.config ("backend listed twice: " ++ id.value)))
  | none => joinSpecs config now specs r ⟨[], 0⟩

omit [Meter F] in
def remaining (r : Registry F) (now backend : Nat) : Option Nat :=
  r.backends[backend]?.bind fun x => x.breaker.remaining now

omit [Meter F] in
/-- The error of a call none of `backends` admits. -/
def unreachable (r : Registry F) (backends : List Nat) (now : Nat) : DispatchError :=
  .unreachable
    (match (backends.filterMap (r.remaining now)).min? with
      | some remaining =>
        "every backend refused a connect; next attempt in " ++ toString (Breaker.wholeSecs remaining) ++ "s"
      | none => "no backend is configured")

end Registry

/-- The position a call goes to: among those that admit it and are not `tried`, the first of the lightest. -/
def pick (admits : Nat → Bool) (loads : Nat → Load) (tried : List Nat) (count : Nat) : Option Nat :=
  (List.range count).foldl (fun best index =>
    if index ∈ tried ∨ !admits index then best
    else
      match best with
      | none => some index
      | some lightest => if (loads index).isLighterThan (loads lightest) then some index else best) none

/-! ## One call -/

/-- One dispatched call's bucket: the scheduler that runs it, its id and its level. -/
structure CallSlot where
  home : Nat
  id : Nat
  level : Nat
deriving DecidableEq, Repr

/-- A reserved place: the backend's position in the list and in the registry, and the call's id there. -/
structure Reserved where
  position : Nat
  backend : Nat
  id : Nat
  queued : Nat
deriving DecidableEq, Repr

/-- Where `await_placement` looks next: on the call's own scheduler, for the list of members, or at the first of
these. -/
inductive Look where
  | own
  | listing
  | scanning (rest : List Nat)
deriving DecidableEq, Repr

/-- What is in flight: the backend whose breaker admitted it and whose client streams it, and the request sent. -/
structure Sent (B : Type) where
  backend : Nat
  request : UnifiedRequest B
deriving DecidableEq, Repr

inductive Phase (B : Type) where
  | reserving
  | waiting (reserved : Reserved) (look : Look)
  | holding (reserved : Reserved) (slot : CallSlot) (waitMs : Nat)
  | streaming (reserved : Reserved) (slot : CallSlot) (waitMs : Nat) (sent : Sent B) (started : Nat)
  | finished (result : Except DispatchError Completion)
  | dropped

/-- One `Dispatcher::call`. -/
structure Task (B : Type) where
  joined : Joined
  cooldown : Nat
  request : UnifiedRequest B
  callMeta : CallMeta
  /-- Whether the request is still there for one more attempt. -/
  pending : Bool
  tried : List Nat
  refused : Option DispatchError
  phase : Phase B

inductive TaskOp where
  | reserve (loads : Nat → Load) (now : Nat) (gate : Gate)
  | poll (now : Nat) (gate : Gate)
  /-- `built` is what a lazy client that is not built yet comes to. -/
  | attempt (built : Except String Unit) (now : Nat) (gate : Gate)
  | streamed (result : Except DispatchError StreamedReply) (now : Nat) (gate : Gate)
  | cancel (now : Nat) (gate : Gate)

namespace Task
variable {F B : Type}

def start (joined : Joined) (cooldown : Nat) (request : UnifiedRequest B) (callMeta : CallMeta) : Task B where
  joined := joined
  cooldown := cooldown
  request := request
  callMeta := { callMeta with allowed := joined.mask }
  pending := true
  tried := []
  refused := none
  phase := .reserving

/-- A failed attempt: an unreachable backend is passed over, any other failure is the call's own. -/
def failed (t : Task B) (reserved : Reserved) (error : DispatchError) : Task B :=
  match error with
  | .unreachable _ => { t with tried := t.tried ++ [reserved.position], refused := some error, phase := .reserving }
  | _ => { t with phase := .finished (.error error) }

variable [Meter F]

def finishSlot (r : Registry F) (slot : CallSlot) (report : CallReport) (now : Nat) (gate : Gate) : Registry F :=
  r.poolStep (.finish slot.home slot.id report now gate)

/-- Selects a backend and enqueues there: one turn of the loop of `call`, up to its wait. -/
def reserve (r : Registry F) (t : Task B) (loads : Nat → Load) (now : Nat) (gate : Gate) : Registry F × Task B :=
  let giveUp : Registry F × Task B :=
    (r, { t with phase := .finished (.error (t.refused.getD (r.unreachable t.joined.backends now))) })
  if !t.pending then giveUp
  else
    let admits (position : Nat) : Bool := (t.joined.backends[position]?.bind (r.remaining now)).isNone
    match pick admits loads t.tried t.joined.backends.length with
    | none => giveUp
    | some position =>
      match t.joined.backends[position]? with
      | none => giveUp
      | some backend =>
        match r.backends[backend]?.bind fun x => r.pool.members[x.member]?.map fun s => (x.member, s) with
        | none => giveUp
        | some (member, s) =>
          let t := { t with pending := t.tried.length + 1 < t.joined.backends.length }
          match s.enqueue t.callMeta r.pool.nextWaiter now gate with
          | .error error => (r, { t with phase := .finished (.error (.ofScheduler error)) })
          | .ok _ =>
            (r.poolStep (.enqueue member t.callMeta now gate),
              { t with phase := .waiting ⟨position, backend, r.pool.nextWaiter, now⟩ .own })

/-- Asks one member for the call. -/
def look (r : Registry F) (t : Task B) (reserved : Reserved) (member : Nat) (next : Look) (now : Nat) (gate : Gate) :
    Registry F × Task B :=
  match r.pool.members[member]? with
  | none => (r, { t with phase := .waiting reserved next })
  | some s =>
    (r.poolStep (.place member reserved.id now gate),
      { t with
        phase :=
          match (s.place reserved.id now gate).1 with
          | some (.running level) =>
            .holding reserved ⟨member, reserved.id, level⟩ (asMillis (now - reserved.queued))
          | some .waiting => .waiting reserved .own
          | some .stale => .finished (.error .inputsChanged)
          | none => .waiting reserved next })

/-- The next lock of `await_placement`. -/
def poll (r : Registry F) (t : Task B) (now : Nat) (gate : Gate) : Registry F × Task B :=
  match t.phase with
  | .waiting reserved .own =>
    match r.backends[reserved.backend]? with
    | none => (r, t)
    | some x => look r t reserved x.member .listing now gate
  | .waiting reserved .listing =>
    (r, { t with phase := .waiting reserved (.scanning (List.range r.pool.members.length)) })
  | .waiting reserved (.scanning []) => (r, { t with phase := .waiting reserved .own })
  | .waiting reserved (.scanning (member :: rest)) => look r t reserved member (.scanning rest) now gate
  | _ => (r, t)

/-- Asks the breaker and sends the request. -/
def attempt (r : Registry F) (t : Task B) (built : Except String Unit) (now : Nat) (gate : Gate) :
    Registry F × Task B :=
  match t.phase with
  | .holding reserved slot waitMs =>
    match r.backends[reserved.backend]? with
    | none => (r, t)
    | some x =>
      match x.breaker.admitCall now with
      | .error error => (finishSlot r slot (.empty .failed) now gate, t.failed reserved error)
      | .ok () =>
        match if x.hasClient then .ok () else built with
        | .error detail =>
          (finishSlot (r.trip reserved.backend now t.cooldown) slot (.empty .failed) now gate,
            t.failed reserved (.unreachable detail))
        | .ok () =>
          (r.build reserved.backend,
            { t with phase := .streaming reserved slot waitMs ⟨reserved.backend, x.overwrite t.request⟩ now })
  | _ => (r, t)

/-- The end of the stream. -/
def streamed (r : Registry F) (t : Task B) (result : Except DispatchError StreamedReply) (now : Nat) (gate : Gate) :
    Registry F × Task B :=
  match t.phase with
  | .streaming reserved slot waitMs sent started =>
    match result with
    | .error error =>
      let r := match error with
        | .unreachable _ => r.trip sent.backend now t.cooldown
        | _ => r
      (finishSlot r slot (.empty .failed) now gate, t.failed reserved error)
    | .ok reply =>
      let completion : Completion :=
        { text := reply.text, model := sent.request.model,
          backend := (r.backends[sent.backend]?.map fun x => x.spec.id).getD ⟨""⟩, level := slot.level,
          waitMs := waitMs, runMs := asMillis (now - started), outputChars := reply.outputChars,
          reasoningChars := reply.reasoningChars, usage := reply.usage }
      (finishSlot (r.close sent.backend) slot reply.report now gate,
        { t with
          phase := .finished
            (if reply.answered then .ok completion
            else if reply.reasoningChars > 0 then .error (.reasoningOnly reply.reasoningChars)
            else .error .empty) })
  | _ => (r, t)

/-- The future is dropped. What a waiting call still abandons then are operations of the pool. -/
def cancel (r : Registry F) (t : Task B) (now : Nat) (gate : Gate) : Registry F × Task B :=
  match t.phase with
  | .holding _ slot _ => (finishSlot r slot (.empty .cancelled) now gate, { t with phase := .dropped })
  | .streaming _ slot _ _ _ => (finishSlot r slot (.empty .cancelled) now gate, { t with phase := .dropped })
  | .finished _ => (r, t)
  | _ => (r, { t with phase := .dropped })

def step (r : Registry F) (t : Task B) : TaskOp → Registry F × Task B
  | .reserve loads now gate =>
    match t.phase with
    | .reserving => t.reserve r loads now gate
    | _ => (r, t)
  | .poll now gate => t.poll r now gate
  | .attempt built now gate => t.attempt r built now gate
  | .streamed result now gate => t.streamed r result now gate
  | .cancel now gate => t.cancel r now gate

omit [Meter F] in
/-- The slot it owns. -/
def slot (t : Task B) : Option CallSlot :=
  match t.phase with
  | .holding _ slot _ => some slot
  | .streaming _ slot _ _ _ => some slot
  | _ => none

end Task

/-! ## All calls -/

/-- The registry and every call under way. -/
structure Fleet (F B : Type) where
  registry : Registry F
  tasks : List (Task B)

inductive FleetOp (B : Type) where
  /-- Anything else that shares the pool: bare calls, rebalances, holds, and what dropped calls abandon. -/
  | other (op : PoolOp)
  | join (specs : List BackendSpec) (config : ValidConfig) (now : Nat)
  /-- A lazy backend's build before a reservation: it fails or succeeds. -/
  | buildFailed (backend now cooldown : Nat)
  | built (backend : Nat)
  | call (joined : Joined) (cooldown : Nat) (request : UnifiedRequest B) (callMeta : CallMeta)
  | task (index : Nat) (op : TaskOp)

namespace Fleet
variable {F B : Type}

def empty : Fleet F B := ⟨.empty, []⟩

/-- Whether the operation would end a call whose slot one of the tasks owns. -/
def owns (f : Fleet F B) : PoolOp → Bool
  | .finish member id _ _ _ => f.tasks.any fun t => t.slot.any fun slot => slot.home == member && slot.id == id
  | _ => false

def step [Meter F] (f : Fleet F B) : FleetOp B → Fleet F B
  -- only the owner of a slot can finish it
  | .other op => if f.owns op then f else { f with registry := f.registry.poolStep op }
  | .join specs config now => { f with registry := (f.registry.join specs config now).1 }
  | .buildFailed backend now cooldown => { f with registry := f.registry.trip backend now cooldown }
  | .built backend => { f with registry := f.registry.build backend }
  | .call joined cooldown request callMeta =>
    { f with tasks := f.tasks ++ [.start joined cooldown request callMeta] }
  | .task index op =>
    match f.tasks[index]? with
    | none => f
    | some t => ⟨(t.step f.registry op).1, f.tasks.set index (t.step f.registry op).2⟩

end Fleet
end Cuca.Services
