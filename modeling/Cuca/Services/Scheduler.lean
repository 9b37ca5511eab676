import Cuca.Services.Queue

/-!
# The scheduler of one backend

The state one scheduler's lock guards, and the operations that run under it. The clock reading and the gate are arguments
of every operation; wakers and change notifications carry no state and are left out.

* `Scheduler.step` : starts a due experiment, then dispatches what the level allows;
* `Scheduler.enqueue`, `Scheduler.place`, `Scheduler.abandon`, `Scheduler.finish` : a call's way through one scheduler;
* `moveWaiting` : hands one waiting call of a scheduler to another.
-/

namespace Cuca.Services

/-! ## Configuration -/

def RESERVED_LANE_FROM_LEVEL : Nat := 4
def MAX_WAITING : Nat := 256
def MAX_CEILING : Nat := 64
def MAX_KINDS : Nat := 32
def OTHER_KIND : String := "other"
def RECENT_CALLS : Nat := 64

/-- A backend's identity. -/
structure BackendId where
  value : String
deriving DecidableEq, Repr

inductive SchedulerError where
  | config (message : String)
  | queueFull (backend : BackendId) (maxWaiting : Nat)
  | inputsChanged
deriving DecidableEq, Repr

/-- How one scheduler queues. -/
structure SchedulerConfig where
  ceiling : Nat
  maxWaiting : Nat
  reservedLaneFromLevel : Nat
deriving DecidableEq, Repr

namespace SchedulerConfig

def validate (c : SchedulerConfig) : Except SchedulerError Unit :=
  if c.ceiling = 0 ∨ c.ceiling > MAX_CEILING then
    .error (.config ("ceiling must be 1 to 64, got " ++ toString c.ceiling))
  else if c.maxWaiting = 0 then .error (.config "max_waiting must be at least 1")
  else if c.reservedLaneFromLevel = 0 then .error (.config "reserved_lane_from_level must be at least 1")
  else .ok ()

theorem validate_ok {c : SchedulerConfig} (h : c.validate = .ok ()) :
    1 ≤ c.ceiling ∧ c.ceiling ≤ MAX_CEILING ∧ 1 ≤ c.maxWaiting ∧ 1 ≤ c.reservedLaneFromLevel := by
  unfold validate at h
  split_ifs at h
  omega

theorem validate_oneCall : (⟨1, 256, 4⟩ : SchedulerConfig).validate = .ok () := rfl

end SchedulerConfig

/-- A configuration that passed its check: what every scheduler is built from. -/
abbrev ValidConfig := { c : SchedulerConfig // c.validate = .ok () }

/-! ## The gate -/

/-- The caller's say over dispatch, as one operation reads it. -/
structure Gate where
  paused : Bool
  isStale : Nat → Bool

def Gate.open : Gate := ⟨false, fun _ => false⟩

def Gate.stale (gate : Gate) (waiter : Waiter) : Bool :=
  match waiter.callMeta.task with
  | none => false
  | some task => gate.isStale task

/-! ## Pace, totals and completed calls -/

def ASSUMED_CALL_MS : Nat := 2000
def PACE_SHIFT : Nat := 3
def i64Max : Nat := 2 ^ 63 - 1

/-- Folds one finished call into the mean, rounded to the nearest millisecond. -/
def paceRecord (meanMs runMs : Nat) : Nat :=
  let mean : Int := min meanMs i64Max
  let gap : Int := min runMs i64Max - mean
  let next := mean + ((gap + 2 ^ (PACE_SHIFT - 1)) >>> PACE_SHIFT)
  max next.toNat 1

/-- What one completed call cost, as the backend reported it. -/
structure CallReport where
  outcome : CallOutcome
  promptTokens : Option Nat
  completionTokens : Option Nat
  outputChars : Nat
deriving DecidableEq, Repr

def CallReport.empty (outcome : CallOutcome) : CallReport := ⟨outcome, none, none, 0⟩

/-- What one kind of call has cost since boot. -/
structure KindTotals where
  calls : Nat := 0
  failed : Nat := 0
  promptTokens : Nat := 0
  completionTokens : Nat := 0
  callsWithoutUsage : Nat := 0
  outputChars : Nat := 0
  runMs : Nat := 0
  waitedMs : Nat := 0
deriving DecidableEq, Repr

structure CompletedCall where
  kind : String
  subject : String
  reference : Option String
  priority : Priority
  level : Nat
  bucket : Nat
  waitedMs : Nat
  runMs : Nat
  promptTokens : Option Nat
  completionTokens : Option Nat
  outputChars : Nat
  outcome : CallOutcome
  reruns : Nat
  completedAtMs : Nat
deriving DecidableEq, Repr

abbrev Totals := List (String × KindTotals)

/-- The entry `kind` is counted under: its own, or past `MAX_KINDS` kinds the one of `OTHER_KIND`. -/
def totalsFor (totals : Totals) (kind : String) : Totals × Nat :=
  match totals.findIdx? fun entry => entry.1 == kind with
  | some index => (totals, index)
  | none =>
    if totals.length < MAX_KINDS then (totals ++ [(kind, {})], totals.length)
    else
      match totals.findIdx? fun entry => entry.1 == OTHER_KIND with
      | some index => (totals, index)
      | none => (totals ++ [(OTHER_KIND, {})], totals.length)

def KindTotals.add (t : KindTotals) (report : CallReport) (runMs waitedMs : Nat) : KindTotals where
  calls := t.calls + 1
  failed := t.failed + if report.outcome = .failed then 1 else 0
  promptTokens := t.promptTokens + report.promptTokens.getD 0
  completionTokens := t.completionTokens + report.completionTokens.getD 0
  callsWithoutUsage :=
    t.callsWithoutUsage + if report.promptTokens = none ∧ report.completionTokens = none then 1 else 0
  outputChars := t.outputChars + report.outputChars
  runMs := t.runMs + runMs
  waitedMs := t.waitedMs + waitedMs

def addTotals (totals : Totals) (kind : String) (report : CallReport) (runMs waitedMs : Nat) : Totals :=
  let (totals, index) := totalsFor totals kind
  totals.modify index fun (kind, entry) => (kind, entry.add report runMs waitedMs)

/-! ## The scheduler -/

/-- What one scheduler's lock guards. -/
structure State (F : Type) where
  queue : Queue
  tuner : Tuner F
  recent : List CompletedCall
  totals : Totals
  /-- The mean duration of the calls this backend has finished. -/
  paceMs : Nat
  reservedHoldUntil : Option Nat

structure Scheduler (F : Type) where
  backend : BackendId
  config : ValidConfig
  started : Nat
  state : State F

/-- A scheduler's load: what a pool of backends compares to pick one. -/
structure Load where
  calls : Nat
  waiting : Nat
  level : Nat
  paceMs : Nat
deriving DecidableEq, Repr

/-- Where one scheduler holds a call. -/
inductive MemberPlacement where
  | running (level : Nat)
  | waiting
  | stale
deriving DecidableEq, Repr

/-- Which waiters a dispatch may start. -/
def eligible (gate : Gate) (reservedHeld : Bool) (waiter : Waiter) : Bool :=
  let urgent := waiter.callMeta.effectivePriority = .urgent
  if waiter.callMeta.lane = .reserved ∧ reservedHeld ∧ ¬ urgent then false
  else (!gate.paused || urgent) && !gate.stale waiter

namespace Scheduler
variable {F : Type}

def new (backend : BackendId) (config : ValidConfig) (now : Nat) : Scheduler F where
  backend := backend
  config := config
  started := now
  state :=
    { queue := .empty, tuner := .new config.val.ceiling now, recent := [], totals := [], paceMs := ASSUMED_CALL_MS,
      reservedHoldUntil := none }

def load (s : Scheduler F) : Load where
  calls := s.state.queue.waiting.length + s.state.queue.running.length
  waiting := s.state.queue.waiting.length
  level := s.state.tuner.level
  paceMs := s.state.paceMs

variable [Meter F]

/-- Starts a due experiment, then dispatches what the level allows. -/
def step (s : Scheduler F) (state : State F) (now : Nat) (gate : Gate) : State F :=
  let backlog := state.queue.waiting.length + state.queue.running.length
  let tuner := state.tuner.poll now backlog gate.paused
  let reservedHeld := state.reservedHoldUntil.any fun deadline => now < deadline
  let (queue, started) :=
    state.queue.dispatch tuner.level s.config.val.reservedLaneFromLevel now (eligible gate reservedHeld)
  { state with
    queue := queue
    tuner := started.foldl Tuner.onDispatch tuner
    reservedHoldUntil := state.reservedHoldUntil.filter fun deadline => now < deadline }

/-- Pushes a call and dispatches it if a bucket is free; `id` is the next of the process-wide counter. -/
def enqueue (s : Scheduler F) (callMeta : CallMeta) (id now : Nat) (gate : Gate) :
    Except SchedulerError (Scheduler F) :=
  if s.state.queue.waiting.length ≥ s.config.val.maxWaiting then
    .error (.queueFull s.backend s.config.val.maxWaiting)
  else
    .ok { s with state := s.step { s.state with queue := s.state.queue.push id callMeta now } now gate }

/-- Where `id` stands here; a waiting call is dispatched if a bucket is free, and withdrawn if its task went stale. -/
def place (s : Scheduler F) (id now : Nat) (gate : Gate) : Option MemberPlacement × Scheduler F :=
  match s.state.queue.runningLevel id with
  | some level => (some (.running level), s)
  | none =>
    if !s.state.queue.isWaiting id then (none, s)
    else if (s.state.queue.waiting.find? fun waiter => waiter.id == id).any gate.stale then
      (some .stale, { s with state := { s.state with queue := (s.state.queue.withdraw id).2 } })
    else
      let state := s.step s.state now gate
      (match state.queue.runningLevel id with
        | some level => some (.running level)
        | none => some .waiting, { s with state := state })

/-- The first lock of `abandon`: withdraws `id`, or finds it running, or not here. -/
def abandon (s : Scheduler F) (id : Nat) : Option Bool × Scheduler F :=
  match s.state.queue.withdraw id with
  | (true, queue) => (some false, { s with state := { s.state with queue := queue } })
  | (false, _) => (if s.state.queue.isRunning id then some true else none, s)

/-- Ends a running call. -/
def finish (s : Scheduler F) (id : Nat) (report : CallReport) (now : Nat) (gate : Gate) : Scheduler F :=
  match s.state.queue.complete id with
  | none => s
  | some (runner, queue) =>
    let runMs := asMillis (now - runner.started)
    let waitedMs := asMillis runner.waited
    let completed : CompletedCall :=
      { kind := runner.callMeta.kind, subject := runner.callMeta.subject, reference := runner.callMeta.reference,
        priority := runner.callMeta.effectivePriority, level := runner.level, bucket := runner.bucket,
        waitedMs := waitedMs, runMs := runMs, promptTokens := report.promptTokens,
        completionTokens := report.completionTokens, outputChars := report.outputChars, outcome := report.outcome,
        reruns := runner.callMeta.reruns, completedAtMs := asMillis (now - s.started) }
    let sample : Sample :=
      { id := id, level := runner.level, dispatched := runner.started, completed := now,
        chars := report.outputChars, tokens := report.completionTokens, outcome := report.outcome }
    let state : State F :=
      { queue := queue
        tuner := s.state.tuner.onComplete sample
        recent := pushBounded RECENT_CALLS s.state.recent completed
        totals := addTotals s.state.totals runner.callMeta.kind report runMs waitedMs
        paceMs := if report.outcome = .ok then paceRecord s.state.paceMs runMs else s.state.paceMs
        reservedHoldUntil := s.state.reservedHoldUntil }
    { s with state := s.step state now gate }

omit [Meter F] in
/-- Delays dispatching reserved calls until `duration` has passed. -/
def holdReservedFor (s : Scheduler F) (duration now : Nat) : Scheduler F :=
  { s with state := { s.state with reservedHoldUntil := some (now + duration) } }

/-- Releases any pending hold on the reserved lane. -/
def clearReservedHold (s : Scheduler F) (now : Nat) (gate : Gate) : Scheduler F :=
  match s.state.reservedHoldUntil with
  | none => s
  | some _ => { s with state := s.step { s.state with reservedHoldUntil := none } now gate }

end Scheduler

/-- Which waiting calls of a source may move to the member of bit `targetBit`. -/
def movable (gate : Gate) (targetBit : UInt64) (waiter : Waiter) : Bool :=
  waiter.callMeta.allowed &&& targetBit != 0 && !gate.stale waiter

namespace Scheduler
variable {F : Type}

/-- The scheduler without the waiting call at `position`. -/
def leave (s : Scheduler F) (position : Nat) : Scheduler F :=
  let queue : Queue := { s.state.queue with waiting := s.state.queue.waiting.eraseIdx position }
  { s with state := { s.state with queue := queue } }

def joined (s : Scheduler F) (waiter : Waiter) : Queue :=
  { s.state.queue with waiting := s.state.queue.waiting ++ [waiter] }

/-- The scheduler after `waiter` has joined and the dispatch that follows. -/
def join [Meter F] (s : Scheduler F) (waiter : Waiter) (now : Nat) (gate : Gate) : Scheduler F :=
  { s with state := s.step { s.state with queue := s.joined waiter } now gate }

end Scheduler

/-- Hands the best movable waiting call of `source` to `target`. -/
def moveWaiting {F : Type} [Meter F] (source target : Scheduler F) (targetBit : UInt64) (now : Nat) (gate : Gate) :
    Option (Scheduler F × Scheduler F) :=
  match source.state.queue.best (movable gate targetBit) with
  | none => none
  | some position =>
    match source.state.queue.waiting[position]? with
    | none => none
    | some waiter => some (source.leave position, target.join waiter now gate)

/-- The call a move takes: the best movable one. -/
structure Taken {F : Type} (source : Scheduler F) (targetBit : UInt64) (gate : Gate) (position : Nat)
    (waiter : Waiter) : Prop where
  best_eq : source.state.queue.best (movable gate targetBit) = some position
  at_index : source.state.queue.waiting[position]? = some waiter

theorem Taken.movable {F : Type} {source : Scheduler F} {targetBit : UInt64} {gate : Gate} {position : Nat}
    {waiter : Waiter} (h : Taken source targetBit gate position waiter) : movable gate targetBit waiter = true := by
  obtain ⟨waiter', hbest⟩ := Queue.best_some h.best_eq
  obtain rfl := Option.some.inj (hbest.at_index.symm.trans h.at_index)
  exact hbest.eligible_self

theorem moveWaiting_of_taken {F : Type} [Meter F] {source : Scheduler F} {targetBit : UInt64} {gate : Gate}
    {position : Nat} {waiter : Waiter} (h : Taken source targetBit gate position waiter) (target : Scheduler F)
    (now : Nat) : moveWaiting source target targetBit now gate =
      some (source.leave position, target.join waiter now gate) := by
  rw [moveWaiting, h.best_eq]
  simp only [h.at_index]

theorem moveWaiting_some {F : Type} [Meter F] {source target source' target' : Scheduler F} {targetBit : UInt64}
    {now : Nat} {gate : Gate} (h : moveWaiting source target targetBit now gate = some (source', target')) :
    ∃ position waiter, Taken source targetBit gate position waiter ∧ source' = source.leave position ∧
      target' = target.join waiter now gate := by
  unfold moveWaiting at h
  cases hbest : source.state.queue.best (movable gate targetBit) with
  | none => simp [hbest] at h
  | some position =>
    cases hat : source.state.queue.waiting[position]? with
    | none => simp [hbest, hat] at h
    | some waiter =>
      simp only [hbest, hat, Option.some.injEq, Prod.mk.injEq] at h
      exact ⟨position, waiter, ⟨hbest, hat⟩, h.1.symm, h.2.symm⟩

end Cuca.Services
