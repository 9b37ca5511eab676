import Mathlib.Algebra.GroupWithZero.Nat
import Mathlib.Algebra.Ring.Int.Defs
import Mathlib.Data.List.MinMax

/-!
# The parallelism tuner of one backend

Instants and durations are whole nanoseconds. A throughput is a floating-point number in the source; here it is a value
of an arbitrary type `F` with the source's two comparisons (`Meter`).

* `Tuner.poll` : starts a due experiment if nothing postpones it;
* `Tuner.onDispatch` : notes a call dispatched at the current level;
* `Tuner.onComplete` : records a completed call and concludes a trial it completes or fails.
-/

namespace Cuca.Services

/-! ## Time and bounded counters -/

/-- `u64::MAX`. -/
def u64Max : Nat := 2 ^ 64 - 1

def saturatingAdd (a b : Nat) : Nat := min (a + b) u64Max

/-- Whole milliseconds of a duration, capped at `u64::MAX`. -/
def asMillis (duration : Nat) : Nat := min (duration / 1000000) u64Max

def FIRST_EXPERIMENT : Nat := 15 * 60 * 1000000000
def EXPERIMENT_CAP : Nat := 24 * 60 * 60 * 1000000000
def SAMPLE_CAPACITY : Nat := 128
def HISTORY_CAPACITY : Nat := 32

/-- `pop_front` at capacity, then `push_back`. -/
def pushBounded {α : Type} (capacity : Nat) (xs : List α) (x : α) : List α :=
  (if xs.length = capacity then xs.tail else xs) ++ [x]

/-! ## Throughputs -/

/-- Throughputs and the two comparisons a trial is decided by. -/
class Meter (F : Type) where
  /-- Units a second over an interval. -/
  throughput : Nat → Nat → F
  /-- `measured >= baseline * GAIN_TO_GO_UP`. -/
  gainToGoUp : F → F → Bool
  /-- `measured >= baseline * LOSS_TO_STAY_DOWN`. -/
  lossToStayDown : F → F → Bool

/-- A throughput as an exact fraction. -/
structure Fraction where
  units : Nat
  nanos : Nat
deriving DecidableEq, Repr

/-- The source's arithmetic without rounding: the interval is at least a millisecond. -/
instance : Meter Fraction where
  throughput units interval := ⟨units, max interval 1000000⟩
  gainToGoUp measured baseline := baseline.units * 110 * measured.nanos ≤ measured.units * 100 * baseline.nanos
  lossToStayDown measured baseline := baseline.units * 95 * measured.nanos ≤ measured.units * 100 * baseline.nanos

inductive CallOutcome where
  | ok
  | failed
  | cancelled
deriving DecidableEq, Repr

/-- One completed call, as the tuner measures it. -/
structure Sample where
  id : Nat
  level : Nat
  dispatched : Nat
  completed : Nat
  chars : Nat
  tokens : Option Nat
  outcome : CallOutcome
deriving DecidableEq, Repr

inductive Metric where
  | completionTokensPerSecond
  | outputCharsPerSecond
deriving DecidableEq, Repr

/-- Output summed over successful calls, in both units. -/
structure Units where
  chars : Nat
  tokens : Option Nat
deriving DecidableEq, Repr

/-- A throughput in both units; tokens only when every call reported them. -/
structure Rate (F : Type) where
  chars : F
  tokens : Option F
deriving Repr

namespace Units

def NONE : Units := ⟨0, some 0⟩

def add (u : Units) (sample : Sample) : Units where
  chars := saturatingAdd u.chars sample.chars
  tokens :=
    match u.tokens, sample.tokens with
    | some sum, some tokens => some (saturatingAdd sum tokens)
    | _, _ => none

def perSecond {F : Type} [Meter F] (u : Units) (interval : Nat) : Rate F :=
  ⟨Meter.throughput u.chars interval, u.tokens.map fun tokens => Meter.throughput tokens interval⟩

end Units

namespace Rate
variable {F : Type}

/-- This rate in its best unit. -/
def preferred (r : Rate F) : Metric × F :=
  match r.tokens with
  | none => (.outputCharsPerSecond, r.chars)
  | some tokens => (.completionTokensPerSecond, tokens)

/-- The one unit both rates are measured in, with each one's value in it. -/
def common (baseline trial : Rate F) : Metric × F × F :=
  match baseline.tokens, trial.tokens with
  | some baseline, some trial => (.completionTokensPerSecond, baseline, trial)
  | _, _ => (.outputCharsPerSecond, baseline.chars, trial.chars)

end Rate

/-! ## The tuner's state -/

inductive Direction where
  | up
  | down
deriving DecidableEq, Repr

def Direction.flipped : Direction → Direction
  | up => down
  | down => up

inductive ChangeReason where
  | trial
  | kept
  | rejected
  | failed
deriving DecidableEq, Repr

/-- One change of the parallelism level. -/
structure LevelChange (F : Type) where
  atMs : Nat
  fromLevel : Nat
  toLevel : Nat
  reason : ChangeReason
  baseline : Option F
  trial : Option F
  metric : Option Metric
deriving Repr

structure Trial (F : Type) where
  incumbent : Nat
  level : Nat
  began : Nat
  window : Nat
  /-- Ids of the first `window` calls dispatched under the trial level. -/
  dispatched : List Nat
  /-- How many of those have completed. -/
  completed : Nat
  /-- Output of every successful call completed since the trial began. -/
  units : Units
  baseline : Rate F
deriving Repr

/-- The hill-climbing parallelism tuner of one backend. -/
structure Tuner (F : Type) where
  ceiling : Nat
  level : Nat
  direction : Direction
  interval : Nat
  nextDue : Nat
  started : Nat
  trial : Option (Trial F)
  samples : List Sample
  history : List (LevelChange F)
deriving Repr

/-- The trial with one more completed call counted. -/
def Trial.record {F : Type} (trial : Trial F) (sample : Sample) : Trial F :=
  { trial with
    units := if sample.outcome = .ok then trial.units.add sample else trial.units
    completed := if sample.id ∈ trial.dispatched then trial.completed + 1 else trial.completed }

namespace Tuner
variable {F : Type}

/-- Level 1, the first experiment due `FIRST_EXPERIMENT` after `started`. -/
def new (ceiling started : Nat) : Tuner F where
  ceiling := max ceiling 1
  level := 1
  direction := .up
  interval := FIRST_EXPERIMENT
  nextDue := started + FIRST_EXPERIMENT
  started := started
  trial := none
  samples := []
  history := []

def millis (t : Tuner F) (instant : Nat) : Nat := asMillis (instant - t.started)

def change (t : Tuner F) (now toLevel : Nat) (reason : ChangeReason) (baseline : Option (Metric × F))
    (trial : Option F) : Tuner F :=
  let entry : LevelChange F :=
    { atMs := t.millis now, fromLevel := t.level, toLevel := toLevel, reason := reason,
      baseline := baseline.map Prod.snd, trial := trial, metric := baseline.map Prod.fst }
  { t with history := pushBounded HISTORY_CAPACITY t.history entry }

/-- One step from `level`, if it stays within `[1, ceiling]`. -/
def stepLevel (ceiling : Nat) : Direction → Nat → Option Nat
  | .up, level => if level + 1 ≤ ceiling then some (level + 1) else none
  | .down, level => if 1 ≤ level ∧ 1 ≤ level - 1 then some (level - 1) else none

/-- The next experiment's level: one step in the current direction, flipping it at either end. -/
def target (t : Tuner F) : Nat × Tuner F :=
  match stepLevel t.ceiling t.direction t.level with
  | some next => (next, t)
  | none =>
    ((stepLevel t.ceiling t.direction.flipped t.level).getD t.level, { t with direction := t.direction.flipped })

def remember (t : Tuner F) (sample : Sample) : Tuner F :=
  { t with samples := pushBounded SAMPLE_CAPACITY t.samples sample }

@[simp] theorem remember_trial (t : Tuner F) (sample : Sample) : (t.remember sample).trial = t.trial := rfl

variable [Meter F]

/-- The incumbent's throughput over its most recent `window` successful calls. -/
def baseline (t : Tuner F) (window : Nat) : Option (Rate F) :=
  let recent :=
    (t.samples.reverse.filter fun sample => sample.level = t.level ∧ sample.outcome = .ok).take window
  if recent.length < window then none
  else
    match (recent.map Sample.dispatched).min?, (recent.map Sample.completed).max? with
    | some start, some finish =>
      let units := (t.samples.filter fun sample =>
        sample.outcome = .ok ∧ sample.completed ≥ start ∧ sample.completed ≤ finish).foldl Units.add Units.NONE
      some (units.perSecond (finish - start))
    | _, _ => none

/-- Starts a due experiment if nothing postpones it. -/
def poll (t : Tuner F) (now backlog : Nat) (paused : Bool) : Tuner F :=
  if t.trial.isSome ∨ t.ceiling ≤ 1 ∨ now < t.nextDue ∨ paused then t
  else
    let (target, t) := t.target
    if backlog < target then t
    else
      let window := max (target - 1) 1
      match t.baseline window with
      | none => t
      | some baseline =>
        { t.change now target .trial none none with
          level := target
          trial := some
            { incumbent := t.level, level := target, began := now, window := window, dispatched := [],
              completed := 0, units := .NONE, baseline := baseline } }

/-- Notes a call dispatched at the current level. -/
def onDispatch (t : Tuner F) (id : Nat) : Tuner F :=
  match t.trial with
  | none => t
  | some trial =>
    if trial.dispatched.length < trial.window then
      { t with trial := some { trial with dispatched := trial.dispatched ++ [id] } }
    else t

/-- Ends the trial. -/
def conclude (t : Tuner F) (now : Nat) (accepted : Bool) (measured : Option (Metric × F × F))
    (reason : ChangeReason) : Tuner F :=
  match t.trial with
  | none => t
  | some trial =>
    let toLevel := if accepted then trial.level else trial.incumbent
    let (metric, baseline, measured) :=
      match measured with
      | none => (trial.baseline.preferred.1, trial.baseline.preferred.2, none)
      | some (metric, baseline, measured) => (metric, baseline, some measured)
    let interval := min (t.interval * 2) EXPERIMENT_CAP
    { ({ t with trial := none } : Tuner F).change now toLevel reason (some (metric, baseline)) measured with
      level := toLevel
      direction := if accepted then t.direction else t.direction.flipped
      interval := interval
      nextDue := now + interval }

/-- Records a completed call and concludes a trial it completes or fails. -/
def onComplete (t : Tuner F) (sample : Sample) : Tuner F :=
  let t := t.remember sample
  match t.trial with
  | none => t
  | some trial =>
    if sample.outcome = .failed then t.conclude sample.completed false none .failed
    else
      let trial := trial.record sample
      let t := { t with trial := some trial }
      if trial.completed < trial.window then t
      else
        let (metric, baseline, measured) :=
          trial.baseline.common (trial.units.perSecond (sample.completed - trial.began))
        let accepted :=
          if trial.level > trial.incumbent then Meter.gainToGoUp measured baseline
          else Meter.lossToStayDown measured baseline
        t.conclude sample.completed accepted (some (metric, baseline, measured))
          (if accepted then .kept else .rejected)

end Tuner

end Cuca.Services
