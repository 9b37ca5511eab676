import Cuca.Types
import Cuca.Lib.Transition

/-!
# The sandbox

Guests run one at a time: a run holds a lock from the moment it arms its deadline until its ticker is joined. The epoch is a counter
that all stores share; a ticker is a thread that increments it when the time of its run is over.

What the engine does (compiling, instantiating, the guest's own steps) is a parameter: a run comes with what it answers.

* `Phase`, `Ticker`, `State.step` : the runs and their tickers, interleaved;
* `Isolated` : what one run has to fear of the others;
* `runs_isolated` : nothing, in any interleaving.
-/

namespace Cuca.Sandbox

/-! ## Results -/

structure SandboxResult where
  stdout : List UInt8
  executionTimeMs : Nat
  memoryBytesUsed : Nat
  deriving DecidableEq, Repr

/-- How a run fails before it takes the lock. -/
inductive SetupFailure where
  | engine (message : String)
  | module (message : String)
  | fuel (message : String)
  | linker (message : String)

def SetupFailure.error : SetupFailure → PluginError
  | engine message => .internal message
  | module message => .validation "wasm" ("module compilation failed: " ++ message)
  | fuel message => .internal ("failed to set fuel budget: " ++ message)
  | linker message => .internal ("failed to define write_out import: " ++ message)

/-- How a run fails after instantiation, before the guest is called. -/
inductive InputFailure where
  | noMemory
  | overflow
  | tooLong (input capacity : Nat)
  | noRun (message : String)

/-- `INPUT_PTR` -/
def inputPtr : Nat := 1024

def InputFailure.error : InputFailure → PluginError
  | noMemory => .validation "wasm" "module has no exported `memory` to receive input"
  | overflow => .internal "input pointer overflow"
  | tooLong input capacity =>
    .validation "wasm" (s!"input of {input} bytes does not fit at scratch offset {inputPtr} " ++ s!"(module memory is {capacity} bytes)")
  | noRun message => .validation "wasm" ("module does not export run(ptr, len) -> i32: " ++ message)

/-- How the guest's `run` ends. -/
inductive CallOutcome where
  | status (status : Int)
  | outOfFuel
  /-- The epoch has reached the deadline. -/
  | interrupted
  | trap (message : String)
  | failed (message : String)
  deriving DecidableEq, Repr

/-- `trap_message`, for what is not a status. -/
def CallOutcome.result (executionTimeMs memoryBytesUsed : Nat) (stdout : List UInt8) : CallOutcome → Except PluginError SandboxResult
  | status code =>
    if code ≠ 0 then .error (.internal s!"guest run reported status {code}") else .ok ⟨stdout, executionTimeMs, memoryBytesUsed⟩
  | outOfFuel => .error (.internal "fuel exhausted: instruction budget exceeded")
  | interrupted => .error (.internal "epoch deadline reached: execution timed out")
  | trap message => .error (.internal ("wasm trap: " ++ message))
  | failed message => .error (.internal ("sandbox execution failed: " ++ message))

/-! ## Runs and tickers -/

/-- Where a run is. -/
inductive Phase where
  /-- It has not taken the lock. -/
  | outside
  | holding
  /-- The deadline is armed; the guest's start function may execute. -/
  | instantiating (deadline : Nat)
  | instantiated (deadline : Nat)
  /-- The ticker is started. -/
  | ticking (deadline : Nat)
  | calling (deadline : Nat)
  | called (deadline : Nat) (outcome : CallOutcome)
  | dismissed (outcome : CallOutcome)
  | joined (outcome : CallOutcome)
  /-- It still holds the lock. -/
  | leaving (result : Except PluginError SandboxResult)
  | returned (result : Except PluginError SandboxResult)

inductive Ticker where
  | absent
  | sleeping
  /-- Its time is over. -/
  | woken
  | ended (incremented : Bool)
  deriving DecidableEq, Repr

/-- The engine, the lock and the runs. -/
structure State (R : Type) where
  epoch : Nat
  /-- Whose tickers have incremented it. -/
  increments : List R
  /-- `RUN_LOCK` -/
  lock : Option R
  runs : R → Phase
  tickers : R → Ticker

inductive Event (R : Type) where
  | refuse (r : R) (failure : SetupFailure)
  | acquire (r : R)
  /-- `set_epoch_deadline(1)` -/
  | arm (r : R)
  | instantiate (r : R) (failure : Option String)
  /-- The input is written and `run` is looked up; then the ticker is started. -/
  | prepare (r : R) (failure : Option InputFailure)
  | call (r : R)
  | finish (r : R) (outcome : CallOutcome)
  | dismiss (r : R)
  | join (r : R)
  | conclude (r : R) (executionTimeMs memoryBytesUsed : Nat) (stdout : List UInt8)
  | release (r : R)
  /-- A store that executes looks at the epoch. -/
  | check (r : R)
  | timeout (r : R)
  | notice (r : R)
  | increment (r : R)

namespace State
open Transition
variable {R : Type} [DecidableEq R]

def init (R : Type) : State R := ⟨0, [], none, fun _ => .outside, fun _ => .absent⟩

def moveTo (s : State R) (r : R) (phase : Phase) : State R := { s with runs := Function.update s.runs r phase }

def tick (s : State R) (r : R) (ticker : Ticker) : State R := { s with tickers := Function.update s.tickers r ticker }

/-- The next step of a run or of a ticker; one that is elsewhere, or waits, stays. -/
def step (s : State R) : Event R → State R
  | .refuse r failure =>
    match s.runs r with
    | .outside => s.moveTo r (.returned (.error failure.error))
    | _ => s
  | .acquire r =>
    match s.runs r, s.lock with
    | .outside, none => { s.moveTo r .holding with lock := some r }
    | _, _ => s
  | .arm r =>
    match s.runs r with
    | .holding => s.moveTo r (.instantiating (s.epoch + 1))
    | _ => s
  | .instantiate r failure =>
    match s.runs r, failure with
    | .instantiating deadline, none => s.moveTo r (.instantiated deadline)
    | .instantiating _, some message => s.moveTo r (.leaving (.error (.internal ("instantiation failed: " ++ message))))
    | _, _ => s
  | .prepare r failure =>
    match s.runs r, failure with
    | .instantiated deadline, none => (s.moveTo r (.ticking deadline)).tick r .sleeping
    | .instantiated _, some failure => s.moveTo r (.leaving (.error failure.error))
    | _, _ => s
  | .call r =>
    match s.runs r with
    | .ticking deadline => s.moveTo r (.calling deadline)
    | _ => s
  | .finish r outcome =>
    match s.runs r with
    | .calling deadline => if outcome = .interrupted then s else s.moveTo r (.called deadline outcome)
    | _ => s
  | .dismiss r =>
    match s.runs r with
    | .called _ outcome => s.moveTo r (.dismissed outcome)
    | _ => s
  | .join r =>
    match s.runs r, s.tickers r with
    | .dismissed outcome, .ended _ => s.moveTo r (.joined outcome)
    | _, _ => s
  | .conclude r executionTimeMs memoryBytesUsed stdout =>
    match s.runs r with
    | .joined outcome => s.moveTo r (.leaving (outcome.result executionTimeMs memoryBytesUsed stdout))
    | _ => s
  | .release r =>
    match s.runs r with
    | .leaving result => { s.moveTo r (.returned result) with lock := none }
    | _ => s
  | .check r =>
    match s.runs r with
    | .instantiating deadline =>
      if deadline ≤ s.epoch then s.moveTo r (.leaving (.error (.internal "instantiation failed: wasm trap: interrupt"))) else s
    | .calling deadline => if deadline ≤ s.epoch then s.moveTo r (.called deadline .interrupted) else s
    | _ => s
  | .timeout r =>
    match s.tickers r with
    | .sleeping => s.tick r .woken
    | _ => s
  | .notice r =>
    match s.runs r, s.tickers r with
    | .dismissed _, .sleeping => s.tick r (.ended false)
    | _, _ => s
  | .increment r =>
    match s.tickers r with
    | .woken => { s.tick r (.ended true) with epoch := s.epoch + 1, increments := s.increments ++ [r] }
    | _ => s

/-! ## Isolation -/

/-- The deadline of a store that is armed, and can execute. -/
def armed : Phase → Option Nat
  | .instantiating deadline => some deadline
  | .instantiated deadline => some deadline
  | .ticking deadline => some deadline
  | .calling deadline => some deadline
  | _ => none

/-- What one run has to fear of the others. -/
structure Isolated (s : State R) : Prop where
  /-- A deadline that is reached, was reached by an increment of the run's own ticker, and since it was armed there was no other. -/
  own : ∀ r deadline, armed (s.runs r) = some deadline → deadline ≤ s.epoch → s.increments.drop (deadline - 1) = [r]
  interrupted : ∀ r deadline, s.runs r = .called deadline .interrupted → s.increments.drop (deadline - 1) = [r]
  /-- No ticker is left of a run that has returned. -/
  outlives : ∀ r result, s.runs r = .returned result → s.tickers r ≠ .sleeping ∧ s.tickers r ≠ .woken
  alone : ∀ r r' deadline deadline', armed (s.runs r) = some deadline → armed (s.runs r') = some deadline' → r = r'
  /-- A run starts with a deadline ahead, and it stays ahead until its own ticker increments the epoch. -/
  starts : ∀ r deadline, armed (s.runs r) = some deadline → s.tickers r ≠ .ended true → s.epoch < deadline
  /-- Until the input is set up there is no ticker. -/
  untimed : ∀ r deadline, s.runs r = .instantiating deadline ∨ s.runs r = .instantiated deadline → s.tickers r = .absent

/-- The deadline, by what became of the ticker. -/
def Timed (increments : List R) (r : R) (deadline : Nat) (ticker : Ticker) : Prop :=
  ((ticker = .sleeping ∨ ticker = .woken) ∧ increments.length + 1 = deadline) ∨
    (ticker = .ended true ∧ increments.length = deadline ∧ increments.drop (deadline - 1) = [r])

/-- What is known of a run and its ticker. -/
def Fits (lock : Option R) (increments : List R) (r : R) : Phase → Ticker → Prop
  | .outside, ticker => ticker = .absent
  | .holding, ticker => lock = some r ∧ ticker = .absent
  | .instantiating deadline, ticker => lock = some r ∧ ticker = .absent ∧ increments.length + 1 = deadline
  | .instantiated deadline, ticker => lock = some r ∧ ticker = .absent ∧ increments.length + 1 = deadline
  | .ticking deadline, ticker => lock = some r ∧ Timed increments r deadline ticker
  | .calling deadline, ticker => lock = some r ∧ Timed increments r deadline ticker
  | .called deadline outcome, ticker => lock = some r ∧ Timed increments r deadline ticker ∧ (outcome = .interrupted → ticker = .ended true)
  | .dismissed _, ticker => lock = some r ∧ ticker ≠ .absent
  | .joined _, ticker => lock = some r ∧ ∃ incremented, ticker = .ended incremented
  | .leaving _, ticker => lock = some r ∧ (ticker = .absent ∨ ∃ incremented, ticker = .ended incremented)
  | .returned _, ticker => ticker = .absent ∨ ∃ incremented, ticker = .ended incremented

variable {increments : List R} {deadline : Nat} {ticker : Ticker}

omit [DecidableEq R] in
theorem Timed.started {r : R} (h : Timed increments r deadline ticker) : ticker ≠ .absent := by
  rintro rfl
  obtain ⟨h | h, _⟩ | ⟨h, _⟩ := h <;> exact nomatch h

omit [DecidableEq R] in
theorem Timed.of_ended {r : R} (h : Timed increments r deadline ticker)
    (hended : ticker = .ended true) : increments.drop (deadline - 1) = [r] := by
  subst hended
  obtain ⟨h | h, _⟩ | ⟨_, _, h⟩ := h
  · exact nomatch h
  · exact nomatch h
  · exact h

omit [DecidableEq R] in
theorem Timed.of_reached {r : R} (h : Timed increments r deadline ticker)
    (hreached : deadline ≤ increments.length) : ticker = .ended true ∧ increments.drop (deadline - 1) = [r] := by
  obtain ⟨_, h⟩ | ⟨hended, _, h⟩ := h
  · omega
  · exact ⟨hended, h⟩

omit [DecidableEq R] in
theorem Timed.woken {r : R} (h : Timed increments r deadline .sleeping) : Timed increments r deadline .woken := by
  obtain ⟨_, h⟩ | ⟨h, _⟩ := h
  · exact .inl ⟨.inr rfl, h⟩
  · exact nomatch h

omit [DecidableEq R] in
theorem Timed.incremented {r : R} (h : Timed increments r deadline .woken) :
    Timed (increments ++ [r]) r deadline (.ended true) := by
  obtain ⟨_, rfl⟩ | ⟨h, _⟩ := h
  · refine .inr ⟨rfl, List.length_append, ?_⟩
    rw [Nat.add_sub_cancel, List.drop_left]
  · exact nomatch h

variable {phase : Phase}

omit [DecidableEq R] in
theorem Fits.woken {lock : Option R} {r : R} (h : Fits lock increments r phase .sleeping) :
    Fits lock increments r phase .woken := by
  cases phase with
  | ticking | calling => exact ⟨h.1, h.2.woken⟩
  | called => exact ⟨h.1, h.2.1.woken, fun ho => nomatch h.2.2 ho⟩
  | dismissed => exact ⟨h.1, (nomatch ·)⟩
  | outside => exact nomatch h
  | holding => exact nomatch h.2
  | instantiating | instantiated => exact nomatch h.2.1
  | joined => exact nomatch h.2
  | leaving =>
    obtain ⟨_, h | h⟩ := h
    · exact nomatch h
    · exact nomatch h
  | returned =>
    obtain h | h := h
    · exact nomatch h
    · exact nomatch h

omit [DecidableEq R] in
theorem Fits.locked {lock : Option R} {r : R} (h : Fits lock increments r phase .woken) : lock = some r := by
  cases phase with
  | outside => exact nomatch h
  | returned =>
    obtain h | h := h
    · exact nomatch h
    · exact nomatch h
  | _ => exact h.1

omit [DecidableEq R] in
theorem Fits.incremented {lock : Option R} {r : R} (h : Fits lock increments r phase .woken) :
    Fits lock (increments ++ [r]) r phase (.ended true) := by
  cases phase with
  | ticking | calling => exact ⟨h.1, h.2.incremented⟩
  | called => exact ⟨h.1, h.2.1.incremented, fun _ => rfl⟩
  | dismissed => exact ⟨h.1, (nomatch ·)⟩
  | outside => exact nomatch h
  | holding => exact nomatch h.2
  | instantiating | instantiated => exact nomatch h.2.1
  | joined => exact nomatch h.2
  | leaving =>
    obtain ⟨_, h | h⟩ := h
    · exact nomatch h
    · exact nomatch h
  | returned =>
    obtain h | h := h
    · exact nomatch h
    · exact nomatch h

structure Inv (s : State R) : Prop where
  epoch : s.epoch = s.increments.length
  fits : ∀ r, Fits s.lock s.increments r (s.runs r) (s.tickers r)

omit [DecidableEq R] in
theorem Fits.other {lock lock' : Option R} {increments increments' : List R} {r : R}
    (h : Fits lock increments r phase ticker) (hsame : lock = some r → lock' = some r ∧ increments' = increments) :
    Fits lock' increments' r phase ticker := by
  cases phase with
  | outside | returned => exact h
  | _ =>
    obtain ⟨hlock, hincrements⟩ := hsame h.1
    subst hincrements
    exact ⟨hlock, h.2⟩

theorem Inv.move {s s' : State R} (hs : Inv s) (r : R) (hruns : s'.runs = Function.update s.runs r phase)
    (htickers : s'.tickers = Function.update s.tickers r ticker) (hepoch : s'.epoch = s'.increments.length)
    (hothers : ∀ r', r' ≠ r → s.lock = some r' → s'.lock = some r' ∧ s'.increments = s.increments)
    (hfits : Fits s'.lock s'.increments r phase ticker) : Inv s' := by
  refine ⟨hepoch, fun r' => ?_⟩
  rw [hruns, htickers]
  by_cases hr : r' = r
  · subst hr
    rw [Function.update_self, Function.update_self]
    exact hfits
  · rw [Function.update_of_ne hr, Function.update_of_ne hr]
    exact (hs.fits r').other (hothers r' hr)

theorem Inv.step {s : State R} (hs : Inv s) (event : Event R) : Inv (s.step event) := by
  have hsame (r r' : R) (_ : r' ≠ r) (h : s.lock = some r') : s.lock = some r' ∧ s.increments = s.increments := ⟨h, rfl⟩
  cases event with
  | refuse r failure =>
    rw [State.step]
    have hr := hs.fits r
    split
    · rename_i hphase
      rw [hphase] at hr
      exact hs.move r rfl (Function.update_eq_self r s.tickers).symm hs.epoch (hsame r) (.inl hr)
    · exact hs
  | acquire r =>
    rw [State.step]
    have hr := hs.fits r
    split
    · rename_i hphase hfree
      rw [hphase] at hr
      refine hs.move r rfl (Function.update_eq_self r s.tickers).symm hs.epoch (fun r' _ h => ?_) ⟨rfl, hr⟩
      exact nomatch hfree.symm.trans h
    · exact hs
  | arm r =>
    rw [State.step]
    have hr := hs.fits r
    split
    · rename_i hphase
      rw [hphase] at hr
      exact hs.move r rfl (Function.update_eq_self r s.tickers).symm hs.epoch (hsame r) ⟨hr.1, hr.2, congrArg (· + 1) hs.epoch.symm⟩
    · exact hs
  | instantiate r failure =>
    unfold State.step
    dsimp only
    have hr := hs.fits r
    split
    · rename_i deadline hphase
      rw [hphase] at hr
      exact hs.move r rfl (Function.update_eq_self r s.tickers).symm hs.epoch (hsame r) hr
    · rename_i deadline message hphase
      rw [hphase] at hr
      exact hs.move r rfl (Function.update_eq_self r s.tickers).symm hs.epoch (hsame r) ⟨hr.1, .inl hr.2.1⟩
    · exact hs
  | prepare r failure =>
    unfold State.step
    dsimp only
    have hr := hs.fits r
    split
    · rename_i deadline hphase
      rw [hphase] at hr
      exact hs.move r rfl rfl hs.epoch (hsame r) ⟨hr.1, .inl ⟨.inl rfl, hr.2.2⟩⟩
    · rename_i deadline failure hphase
      rw [hphase] at hr
      exact hs.move r rfl (Function.update_eq_self r s.tickers).symm hs.epoch (hsame r) ⟨hr.1, .inl hr.2.1⟩
    · exact hs
  | call r =>
    rw [State.step]
    have hr := hs.fits r
    split
    · rename_i deadline hphase
      rw [hphase] at hr
      exact hs.move r rfl (Function.update_eq_self r s.tickers).symm hs.epoch (hsame r) hr
    · exact hs
  | finish r outcome =>
    rw [State.step]
    have hr := hs.fits r
    split
    · rename_i deadline hphase
      rw [hphase] at hr
      split
      · exact hs
      · rename_i houtcome
        exact hs.move r rfl (Function.update_eq_self r s.tickers).symm hs.epoch (hsame r) ⟨hr.1, hr.2, fun h => absurd h houtcome⟩
    · exact hs
  | dismiss r =>
    rw [State.step]
    have hr := hs.fits r
    split
    · rename_i deadline outcome hphase
      rw [hphase] at hr
      exact hs.move r rfl (Function.update_eq_self r s.tickers).symm hs.epoch (hsame r) ⟨hr.1, hr.2.1.started⟩
    · exact hs
  | join r =>
    rw [State.step]
    have hr := hs.fits r
    split
    · rename_i outcome incremented hphase hticker
      rw [hphase] at hr
      exact hs.move r rfl (Function.update_eq_self r s.tickers).symm hs.epoch (hsame r) ⟨hr.1, incremented, hticker⟩
    · exact hs
  | conclude r executionTimeMs memoryBytesUsed stdout =>
    rw [State.step]
    have hr := hs.fits r
    split
    · rename_i outcome hphase
      rw [hphase] at hr
      exact hs.move r rfl (Function.update_eq_self r s.tickers).symm hs.epoch (hsame r) ⟨hr.1, .inr hr.2⟩
    · exact hs
  | release r =>
    rw [State.step]
    have hr := hs.fits r
    split
    · rename_i result hphase
      rw [hphase] at hr
      refine hs.move r rfl (Function.update_eq_self r s.tickers).symm hs.epoch (fun r' hne hlock => ?_) hr.2
      exact absurd (Option.some.inj (hlock.symm.trans hr.1)) hne
    · exact hs
  | check r =>
    rw [State.step]
    have hr := hs.fits r
    split
    · rename_i deadline hphase
      rw [hphase] at hr
      split
      · exact hs.move r rfl (Function.update_eq_self r s.tickers).symm hs.epoch (hsame r) ⟨hr.1, .inl hr.2.1⟩
      · exact hs
    · rename_i deadline hphase
      rw [hphase] at hr
      split
      · rename_i hreached
        refine hs.move r rfl (Function.update_eq_self r s.tickers).symm hs.epoch (hsame r) ⟨hr.1, hr.2, fun _ => ?_⟩
        exact (hr.2.of_reached (hs.epoch ▸ hreached)).1
      · exact hs
    · exact hs
  | timeout r =>
    rw [State.step]
    have hr := hs.fits r
    split
    · rename_i hticker
      rw [hticker] at hr
      exact hs.move r (Function.update_eq_self r s.runs).symm rfl hs.epoch (hsame r) hr.woken
    · exact hs
  | notice r =>
    rw [State.step]
    have hr := hs.fits r
    split
    · rename_i outcome hphase hticker
      rw [hphase] at hr
      refine hs.move r (Function.update_eq_self r s.runs).symm rfl hs.epoch (hsame r) ?_
      rw [hphase]
      exact ⟨hr.1, (nomatch ·)⟩
    · exact hs
  | increment r =>
    rw [State.step]
    have hr := hs.fits r
    split
    · rename_i hticker
      rw [hticker] at hr
      have hlock := hr.locked
      refine hs.move r (Function.update_eq_self r s.runs).symm rfl ?_ (fun r' hne h => ?_) hr.incremented
      · change s.epoch + 1 = (s.increments ++ [r]).length
        rw [List.length_append, List.length_singleton, hs.epoch]
      · exact absurd (Option.some.inj (h.symm.trans hlock)) hne
    · exact hs

omit [DecidableEq R] in
theorem inv_init : Inv (init R) := ⟨rfl, fun _ => rfl⟩

omit [DecidableEq R] in
theorem Inv.armed_fits {s : State R} (hs : Inv s) {r : R} (h : armed (s.runs r) = some deadline) :
    s.lock = some r ∧ (s.tickers r = .absent ∧ s.increments.length + 1 = deadline ∨ Timed s.increments r deadline (s.tickers r)) := by
  have hr := hs.fits r
  cases hphase : s.runs r with
  | instantiating | instantiated =>
    rw [hphase] at h hr
    obtain rfl := Option.some.inj h
    exact ⟨hr.1, .inl hr.2⟩
  | ticking | calling =>
    rw [hphase] at h hr
    obtain rfl := Option.some.inj h
    exact ⟨hr.1, .inr hr.2⟩
  | _ =>
    rw [hphase] at h
    exact nomatch h

omit [DecidableEq R] in
theorem Inv.isolated {s : State R} (hs : Inv s) : Isolated s where
  own r deadline harmed hreached := by
    rw [hs.epoch] at hreached
    obtain ⟨_, ⟨_, hdeadline⟩ | htimed⟩ := hs.armed_fits harmed
    · omega
    · exact (htimed.of_reached hreached).2
  interrupted r deadline hphase := by
    have hr := hs.fits r
    rw [hphase] at hr
    exact hr.2.1.of_ended (hr.2.2 rfl)
  outlives r result hphase := by
    have hr := hs.fits r
    rw [hphase] at hr
    obtain h | ⟨incremented, h⟩ := hr
    · rw [h]
      exact ⟨(nomatch ·), (nomatch ·)⟩
    · rw [h]
      exact ⟨(nomatch ·), (nomatch ·)⟩
  alone r r' deadline deadline' h h' := Option.some.inj ((hs.armed_fits h).1.symm.trans (hs.armed_fits h').1)
  starts r deadline harmed hticker := by
    rw [hs.epoch]
    obtain ⟨_, ⟨_, hdeadline⟩ | ⟨_, hdeadline⟩ | ⟨hended, _⟩⟩ := hs.armed_fits harmed
    · omega
    · omega
    · exact absurd hended hticker
  untimed r deadline hphase := by
    have hr := hs.fits r
    rcases hphase with hphase | hphase <;> rw [hphase] at hr <;> exact hr.2.1

/-- **Whatever the interleaving, no run has to fear the others.** -/
theorem runs_isolated (events : List (Event R)) : Throughout step Isolated (init R) events :=
  (throughout_invariant (I := Inv) (fun _ event hs => hs.step event) inv_init events).imp fun _ hs => hs.isolated

end State

end Cuca.Sandbox
