import Cuca.Lib.Accounts
import Cuca.Services.RateLimit
import Mathlib.Algebra.Order.BigOperators.Group.List

/-!
# Callers of a rate limiter

Any number of callers of `acquire` and `try_acquire` interleave, one atomic step at a time: the admission counter, the
slots of the semaphore and the bucket are three resources, taken in this order, with an exit after each.

* `Caller`, `Phase` : where a caller is, and what it holds;
* `move` : one atomic step of one caller, and `step` : of the limiter;
* `move_balanced` : what a step of one caller does to the three accounts;
* `Balance` : the accounts of a limiter, which every step keeps;
* `acquire_accounts` : what they say, in every run.
-/

namespace Cuca.Services.Acquire
open Transition

/-- How a caller leaves without a permit. -/
inductive Outcome where
  | refused (error : RateLimitError)
  | cancelled
  | panicked
deriving DecidableEq, Repr

inductive Phase where
  /-- The counter is bumped, the admission check is next. -/
  | checking
  /-- Awaits a slot. -/
  | parked
  /-- The semaphore has handed it a slot, which it has not taken up. -/
  | assigned
  /-- The wait budget is over, and the place in the semaphore's queue given up. -/
  | timedOut
  /-- Has taken up its slot; the observers are next. -/
  | slotted
  /-- Awaits the verdicts of the observers left. -/
  | observing (left : Nat)
  /-- About to attempt a token. -/
  | drawing
  /-- Awaits the next attempt. -/
  | sleeping
  /-- `try_acquire`, with a slot. -/
  | trying
  /-- `try_acquire`, without one. -/
  | refusing
  /-- On the way out, the slot not yet returned. -/
  | leaving (outcome : Outcome)
  | left (outcome : Outcome)
  /-- Has returned a permit, which is held. -/
  | holding
  /-- The permit is dropped. -/
  | released
deriving DecidableEq, Repr

structure Caller where
  /-- What the admission counter was bumped to. -/
  admitted : Nat
  deadline : Nat
  /-- Whether the `WaiterGuard` is alive. -/
  guarded : Bool
  /-- How many tokens it has spent. -/
  tokens : Nat
  phase : Phase
deriving DecidableEq, Repr

/-- What the callers share. -/
structure Shared where
  drawn : Drawn
  /-- The free slots of the semaphore. -/
  free : Nat
  /-- The admission counter. -/
  waiting : Nat
deriving DecidableEq, Repr

structure Limiter where
  shared : Shared
  callers : List Caller
deriving DecidableEq, Repr

/-- What an observer does. -/
inductive Verdict where
  | accepts
  | refuses (error : String)
  | panics
deriving DecidableEq, Repr

/-- The atomic steps of a caller. `now` is a reading of the timer, `reading` one of the bucket's clock. -/
inductive Move where
  | check
  | grantSlot
  | takeSlot
  | slotTimeout (now : Nat)
  | peek (reading : Nat)
  | warn (reading : Nat)
  | verdict (verdict : Verdict)
  | drawToken (now reading : Nat)
  | wake
  | cancel
  | reportBusy
  | dropSlot
  | dropGuard
  | dropPermit
deriving DecidableEq, Repr

inductive Event where
  | acquire (now : Nat)
  | tryAcquire
  | usage (reading : Nat)
  | move (i : Nat) (move : Move)
deriving DecidableEq, Repr

def Limiter.new (c : RateLimitConfig) (reading : Nat) : Limiter := ⟨⟨⟨BucketState.new c reading, 0⟩, c.maxConcurrent, 0⟩, []⟩

section
-- `crossesWarnFraction` stands for the comparison of two floats; nothing below depends on its outcome.
variable (c : RateLimitConfig) (observers : Nat) (crossesWarnFraction : Nat → Bool)

/-- One atomic step of a caller; a step that its phase does not allow does nothing. -/
def move (s : Shared) (caller : Caller) : Move → Shared × Caller
  | .check =>
    match caller.phase with
    | .checking =>
      if caller.admitted > c.maxWaiters then
        (s, { caller with phase := .left (.refused (.queueFull (caller.admitted - 1) c.maxWaiters)) })
      else (s, { caller with phase := .parked })
    | _ => (s, caller)
  | .grantSlot =>
    match caller.phase with
    | .parked => if s.free = 0 then (s, caller) else ({ s with free := s.free - 1 }, { caller with phase := .assigned })
    | _ => (s, caller)
  | .takeSlot =>
    match caller.phase with
    | .assigned => (s, { caller with phase := .slotted })
    | _ => (s, caller)
  | .slotTimeout now =>
    if now < caller.deadline then (s, caller)
    else
      match caller.phase with
      | .parked => (s, { caller with phase := .timedOut })
      -- a slot that was handed over as the wait ended goes back
      | .assigned => ({ s with free := s.free + 1 }, { caller with phase := .timedOut })
      | _ => (s, caller)
  | .peek reading =>
    match caller.phase with
    | .timedOut =>
      ({ s with drawn := s.drawn.step c ⟨.peekRetryAfter, reading⟩ },
        { caller with phase := .left (.refused (.exhausted (s.drawn.bucket.peekRetryAfter c reading).1)) })
    | _ => (s, caller)
  | .warn reading =>
    match caller.phase with
    | .slotted =>
      if observers ≠ 0 ∧ crossesWarnFraction caller.admitted then
        ({ s with drawn := s.drawn.step c ⟨.usage, reading⟩ }, { caller with phase := .observing observers })
      else (s, { caller with phase := .drawing })
    | _ => (s, caller)
  | .verdict verdict =>
    match caller.phase with
    | .observing 0 => (s, { caller with phase := .drawing })
    | .observing (left + 1) =>
      match verdict with
      | .accepts => (s, { caller with phase := .observing left })
      | .refuses error => (s, { caller with phase := .leaving (.refused (.observer error)) })
      | .panics => (s, { caller with phase := .leaving .panicked })
    | _ => (s, caller)
  | .drawToken now reading =>
    match caller.phase with
    | .drawing =>
      match (s.drawn.bucket.takeToken c reading).1 with
      | none =>
        ({ s with drawn := s.drawn.step c ⟨.takeToken, reading⟩ },
          { caller with phase := .holding, tokens := caller.tokens + 1 })
      | some retryAfter =>
        ({ s with drawn := s.drawn.step c ⟨.takeToken, reading⟩ },
          { caller with
            phase := if now ≥ caller.deadline then .leaving (.refused (.exhausted retryAfter)) else .sleeping })
    | .trying =>
      match (s.drawn.bucket.takeToken c reading).1 with
      | none =>
        ({ s with drawn := s.drawn.step c ⟨.takeToken, reading⟩ },
          { caller with phase := .holding, tokens := caller.tokens + 1 })
      | some retryAfter =>
        ({ s with drawn := s.drawn.step c ⟨.takeToken, reading⟩ },
          { caller with phase := .leaving (.refused (.exhausted retryAfter)) })
    | _ => (s, caller)
  | .wake =>
    match caller.phase with
    | .sleeping => (s, { caller with phase := .drawing })
    | _ => (s, caller)
  | .cancel =>
    match caller.phase with
    | .parked => (s, { caller with phase := .left .cancelled })
    | .assigned => (s, { caller with phase := .leaving .cancelled })
    | .sleeping => (s, { caller with phase := .leaving .cancelled })
    | _ => (s, caller)
  | .reportBusy =>
    match caller.phase with
    | .refusing => (s, { caller with phase := .left (.refused (.busy (c.maxConcurrent - s.free) c.maxConcurrent)) })
    | _ => (s, caller)
  | .dropSlot =>
    match caller.phase with
    | .leaving outcome => ({ s with free := s.free + 1 }, { caller with phase := .left outcome })
    | _ => (s, caller)
  | .dropGuard =>
    match caller.phase, caller.guarded with
    | .left _, true => ({ s with waiting := s.waiting - 1 }, { caller with guarded := false })
    | .holding, true => ({ s with waiting := s.waiting - 1 }, { caller with guarded := false })
    | _, _ => (s, caller)
  | .dropPermit =>
    match caller.phase, caller.guarded with
    | .holding, false => ({ s with free := s.free + 1 }, { caller with phase := .released })
    | _, _ => (s, caller)

def step (l : Limiter) : Event → Limiter
  | .acquire now =>
    { l with
      shared := { l.shared with waiting := l.shared.waiting + 1 }
      callers := l.callers ++ [⟨l.shared.waiting + 1, now + c.maxWait, true, 0, .checking⟩] }
  | .tryAcquire =>
    if l.shared.free = 0 then { l with callers := l.callers ++ [⟨0, 0, false, 0, .refusing⟩] }
    else
      { l with
        shared := { l.shared with free := l.shared.free - 1 }
        callers := l.callers ++ [⟨0, 0, false, 0, .trying⟩] }
  | .usage reading => { l with shared := { l.shared with drawn := l.shared.drawn.step c ⟨.usage, reading⟩ } }
  | .move i m =>
    match l.callers[i]? with
    | none => l
    | some caller =>
      { l with
        shared := (move c observers crossesWarnFraction l.shared caller m).1
        callers := l.callers.set i (move c observers crossesWarnFraction l.shared caller m).2 }

end

/-! ## Accounts -/

/-- Whether a caller has a slot, in progress or with its permit. -/
def Caller.hasSlot (caller : Caller) : Bool :=
  match caller.phase with
  | .assigned | .slotted | .observing _ | .drawing | .sleeping | .trying | .leaving _ | .holding => true
  | _ => false

/-- Whether a caller got a permit. -/
def Caller.granted (caller : Caller) : Bool :=
  match caller.phase with
  | .holding | .released => true
  | _ => false

/-- Whether a caller of `acquire` is past the admission check and has not returned. -/
def Caller.isParked (caller : Caller) : Bool :=
  caller.guarded && match caller.phase with
    | .checking | .left _ | .released => false
    | _ => true

/-- Whether a caller has returned, and dropped its permit if it got one. -/
def Caller.isDone (caller : Caller) : Bool :=
  !caller.guarded && match caller.phase with
    | .left _ | .released => true
    | _ => false

def Caller.isAdmitted (c : RateLimitConfig) (caller : Caller) : Bool :=
  caller.guarded && caller.admitted ≤ c.maxWaiters

/-- How many callers satisfy `p`. -/
def Limiter.count (l : Limiter) (p : Caller → Bool) : Nat := (l.callers.map fun caller => (p caller).toNat).sum

/-! ## One step of one caller -/

/-- What a step of one caller, from `x` to `y`, leaves balanced. -/
structure Balanced (c : RateLimitConfig) (s s' : Shared) (x y : Caller) : Prop where
  slots : s'.free + y.hasSlot.toNat = s.free + x.hasSlot.toNat
  waiting : (x.guarded → 0 < s.waiting) → s'.waiting + x.guarded.toNat = s.waiting + y.guarded.toNat
  spent : s'.drawn.spent + x.granted.toNat = s.drawn.spent + y.granted.toNat
  tokens : y.tokens + x.granted.toNat = x.tokens + y.granted.toNat
  admitted : y.isAdmitted c → x.isAdmitted c
  checked : (x.isParked → x.isAdmitted c) → y.isParked → y.isAdmitted c

namespace Balanced
variable {c : RateLimitConfig} {s s' : Shared} {x : Caller}

theorem refl : Balanced c s s x x := ⟨rfl, fun _ => rfl, rfl, rfl, id, fun h => h⟩

theorem goes {phase : Phase} (hslots : s'.free + (Caller.hasSlot { x with phase }).toNat = s.free + x.hasSlot.toNat)
    (hwaiting : s'.waiting = s.waiting) (hspent : s'.drawn.spent = s.drawn.spent)
    (hgranted : Caller.granted { x with phase } = x.granted)
    (hparked : Caller.isParked { x with phase } → x.isParked ∨ x.isAdmitted c) :
    Balanced c s s' x { x with phase } := by
  refine ⟨hslots, fun _ => by rw [hwaiting], by rw [hspent, hgranted], by rw [hgranted], id, fun hchecked h => ?_⟩
  rcases hparked h with hparked | hadmitted
  · exact hchecked hparked
  · exact hadmitted

theorem guard_drops (hguarded : x.guarded = true) (hslots : s'.free = s.free) (hwaiting : s'.waiting = s.waiting - 1)
    (hspent : s'.drawn = s.drawn) : Balanced c s s' x { x with guarded := false } := by
  refine ⟨by rw [hslots]; rfl, fun hpos => ?_, by rw [hspent]; rfl, rfl, ?_, ?_⟩
  · have := hpos hguarded
    simp [hguarded, hwaiting]
    omega
  · simp [Caller.isAdmitted]
  · simp [Caller.isParked]

end Balanced

theorem spent_takeToken (c : RateLimitConfig) (d : Drawn) (reading : Nat) :
    (d.step c ⟨.takeToken, reading⟩).spent = d.spent + (d.bucket.takeToken c reading).1.isNone.toNat := by
  rcases htake : d.bucket.takeToken c reading with ⟨_ | retryAfter, bucket⟩
  · simp [Drawn.step, htake]
  · simp [Drawn.step, htake]

section
variable (c : RateLimitConfig) (observers : Nat) (crossesWarnFraction : Nat → Bool)

theorem move_balanced (s : Shared) (caller : Caller) (m : Move) :
    Balanced c s (move c observers crossesWarnFraction s caller m).1 caller
      (move c observers crossesWarnFraction s caller m).2 := by
  obtain ⟨admitted, deadline, guarded, tokens, phase⟩ := caller
  cases m with
  | check =>
    cases phase with
    | checking =>
      rcases Nat.lt_or_ge c.maxWaiters admitted with hfull | hroom
      · rw [move, if_pos hfull]
        exact .goes rfl rfl rfl rfl (by simp [Caller.isParked])
      · rw [move, if_neg (Nat.not_lt.mpr hroom)]
        refine .goes rfl rfl rfl rfl fun hparked => .inr ?_
        simpa [Caller.isParked, Caller.isAdmitted, hroom] using hparked
    | _ => exact .refl
  | grantSlot =>
    cases phase with
    | parked =>
      rcases Nat.eq_zero_or_pos s.free with hnone | hsome
      · rw [move, if_pos hnone]
        exact .refl
      · rw [move, if_neg hsome.ne']
        exact .goes (Nat.sub_add_cancel hsome) rfl rfl rfl .inl
    | _ => exact .refl
  | takeSlot =>
    cases phase with
    | assigned => exact .goes rfl rfl rfl rfl .inl
    | _ => exact .refl
  | slotTimeout now =>
    rcases Nat.lt_or_ge now deadline with hearly | hover
    · rw [move, if_pos hearly]
      exact .refl
    · rw [move, if_neg (Nat.not_lt.mpr hover)]
      cases phase with
      | parked => exact .goes rfl rfl rfl rfl .inl
      | assigned => exact .goes rfl rfl rfl rfl .inl
      | _ => exact .refl
  | peek reading =>
    cases phase with
    | timedOut => exact .goes rfl rfl rfl rfl (by simp [Caller.isParked])
    | _ => exact .refl
  | warn reading =>
    cases phase with
    | slotted =>
      by_cases hwarn : observers ≠ 0 ∧ crossesWarnFraction admitted
      · rw [move, if_pos hwarn]
        exact .goes rfl rfl rfl rfl .inl
      · rw [move, if_neg hwarn]
        exact .goes rfl rfl rfl rfl .inl
    | _ => exact .refl
  | verdict verdict =>
    cases phase with
    | observing left =>
      cases left with
      | zero => exact .goes rfl rfl rfl rfl .inl
      | succ left =>
        cases verdict with
        | accepts => exact .goes rfl rfl rfl rfl .inl
        | refuses error => exact .goes rfl rfl rfl rfl .inl
        | panics => exact .goes rfl rfl rfl rfl .inl
    | _ => exact .refl
  | drawToken now reading =>
    have hspent := spent_takeToken c s.drawn reading
    cases phase with
    | drawing =>
      rcases htake : (s.drawn.bucket.takeToken c reading).1 with _ | retryAfter
      · rw [htake] at hspent
        simp only [move, htake]
        exact ⟨rfl, fun _ => rfl, hspent, rfl, id, fun hchecked hparked => hchecked hparked⟩
      · rw [htake] at hspent
        simp only [move, htake]
        rcases Nat.lt_or_ge now deadline with hearly | hover
        · rw [if_neg (Nat.not_le.mpr hearly)]
          exact .goes rfl rfl hspent rfl .inl
        · rw [if_pos hover]
          exact .goes rfl rfl hspent rfl .inl
    | trying =>
      rcases htake : (s.drawn.bucket.takeToken c reading).1 with _ | retryAfter
      · rw [htake] at hspent
        simp only [move, htake]
        exact ⟨rfl, fun _ => rfl, hspent, rfl, id, fun hchecked hparked => hchecked hparked⟩
      · rw [htake] at hspent
        simp only [move, htake]
        exact .goes rfl rfl hspent rfl .inl
    | _ => exact .refl
  | wake =>
    cases phase with
    | sleeping => exact .goes rfl rfl rfl rfl .inl
    | _ => exact .refl
  | cancel =>
    cases phase with
    | parked => exact .goes rfl rfl rfl rfl (by simp [Caller.isParked])
    | assigned => exact .goes rfl rfl rfl rfl .inl
    | sleeping => exact .goes rfl rfl rfl rfl .inl
    | _ => exact .refl
  | reportBusy =>
    cases phase with
    | refusing => exact .goes rfl rfl rfl rfl (by simp [Caller.isParked])
    | _ => exact .refl
  | dropSlot =>
    cases phase with
    | leaving outcome => exact .goes rfl rfl rfl rfl (by simp [Caller.isParked])
    | _ => exact .refl
  | dropGuard =>
    cases guarded with
    | false => cases phase <;> exact .refl
    | true =>
      cases phase with
      | left outcome => exact .guard_drops rfl rfl rfl rfl
      | holding => exact .guard_drops rfl rfl rfl rfl
      | _ => exact .refl
  | dropPermit =>
    cases guarded with
    | true => cases phase <;> exact .refl
    | false =>
      cases phase with
      | holding => exact .goes rfl rfl rfl rfl (by simp [Caller.isParked])
      | _ => exact .refl

end

/-! ## The accounts of a limiter -/

namespace Limiter

theorem count_append (l : Limiter) (p : Caller → Bool) (s : Shared) (x : Caller) :
    count ⟨s, l.callers ++ [x]⟩ p = l.count p + (p x).toNat := by simp [count]

theorem count_le {l : Limiter} {p q : Caller → Bool} (h : ∀ caller ∈ l.callers, p caller → q caller) :
    l.count p ≤ l.count q := by
  refine List.sum_le_sum fun caller hcaller => ?_
  exact Bool.toNat_le_toNat (h caller hcaller)

theorem count_none {l : Limiter} {p : Caller → Bool} (h : ∀ caller ∈ l.callers, p caller = false) : l.count p = 0 := by
  refine List.sum_eq_zero fun n hn => ?_
  obtain ⟨caller, hcaller, rfl⟩ := List.mem_map.mp hn
  rw [h caller hcaller]
  rfl

end Limiter

/-- What holds of a limiter between two steps. -/
structure Balance (c : RateLimitConfig) (l : Limiter) : Prop where
  slots : l.shared.free + l.count Caller.hasSlot = c.maxConcurrent
  waiting : l.shared.waiting = l.count Caller.guarded
  spent : l.shared.drawn.spent = l.count Caller.granted
  admitted : l.count (Caller.isAdmitted c) ≤ c.maxWaiters
  tokens : ∀ caller ∈ l.callers, caller.tokens = caller.granted.toNat
  checked : ∀ caller ∈ l.callers, caller.isParked → caller.isAdmitted c

namespace Balance
open Limiter
variable {c : RateLimitConfig}

theorem new (reading : Nat) : Balance c (new c reading) :=
  ⟨rfl, rfl, rfl, Nat.zero_le _, fun _ h => (List.not_mem_nil h).elim, fun _ h => (List.not_mem_nil h).elim⟩

theorem set {l : Limiter} (h : Balance c l) {i : Nat} {x y : Caller} {s : Shared} (hx : l.callers[i]? = some x)
    (hstep : Balanced c l.shared s x y) : Balance c ⟨s, l.callers.set i y⟩ := by
  have hmem : x ∈ l.callers := List.mem_of_getElem? hx
  have hcount (p : Caller → Bool) : ∃ rest, l.count p = (p x).toNat + rest ∧
      count ⟨s, l.callers.set i y⟩ p = (p y).toNat + rest := by
    obtain ⟨rest, hbefore, hafter⟩ := Accounts.one_account (fun caller => (p caller).toNat) hx
    exact ⟨rest, hbefore, hafter y⟩
  refine ⟨?_, ?_, ?_, ?_, fun z hz => ?_, fun z hz => ?_⟩
  · obtain ⟨rest, hbefore, hafter⟩ := hcount Caller.hasSlot
    have hslots := h.slots
    have hmoved := hstep.slots
    show s.free + _ = _
    omega
  · obtain ⟨rest, hbefore, hafter⟩ := hcount Caller.guarded
    have hwaiting := h.waiting
    have hmoved := hstep.waiting fun hguarded => by
      rw [hguarded] at hbefore
      simp at hbefore
      omega
    show s.waiting = _
    omega
  · obtain ⟨rest, hbefore, hafter⟩ := hcount Caller.granted
    have hspent := h.spent
    have hmoved := hstep.spent
    show s.drawn.spent = _
    omega
  · obtain ⟨rest, hbefore, hafter⟩ := hcount (Caller.isAdmitted c)
    have hadmitted := h.admitted
    have hmoved := Bool.toNat_le_toNat hstep.admitted
    omega
  · rcases List.mem_or_eq_of_mem_set hz with hz | rfl
    · exact h.tokens z hz
    · have hmoved := hstep.tokens
      have htokens := h.tokens x hmem
      omega
  · rcases List.mem_or_eq_of_mem_set hz with hz | rfl
    · exact h.checked z hz
    · exact hstep.checked (h.checked x hmem)

theorem append {l : Limiter} (h : Balance c l) {x : Caller} {s : Shared}
    (hslots : s.free + x.hasSlot.toNat = l.shared.free) (hwaiting : s.waiting = l.shared.waiting + x.guarded.toNat)
    (hspent : s.drawn.spent = l.shared.drawn.spent) (hgranted : x.granted = false) (htokens : x.tokens = 0)
    (hadmitted : x.isAdmitted c → l.shared.waiting < c.maxWaiters) (hparked : x.isParked = false) :
    Balance c ⟨s, l.callers ++ [x]⟩ := by
  refine ⟨?_, ?_, ?_, ?_, fun z hz => ?_, fun z hz => ?_⟩
  · have hbefore := h.slots
    rw [count_append]
    show s.free + _ = _
    omega
  · rw [count_append, ← h.waiting]
    exact hwaiting
  · rw [count_append, ← h.spent, hgranted]
    exact hspent
  · rw [count_append]
    cases hin : x.isAdmitted c with
    | false => exact h.admitted
    | true =>
      have hguarded : l.count (Caller.isAdmitted c) ≤ l.count Caller.guarded :=
        count_le fun caller _ hcaller => (Bool.and_eq_true_iff.mp hcaller).1
      have hroom := hadmitted hin
      rw [h.waiting] at hroom
      show _ + 1 ≤ _
      omega
  · rcases List.mem_append.mp hz with hz | hz
    · exact h.tokens z hz
    · rw [List.mem_singleton.mp hz, htokens, hgranted]
      rfl
  · rcases List.mem_append.mp hz with hz | hz
    · exact h.checked z hz
    · rw [List.mem_singleton.mp hz, hparked]
      exact fun hno => absurd hno Bool.false_ne_true

theorem step {l : Limiter} (h : Balance c l) (observers : Nat) (crossesWarnFraction : Nat → Bool) (e : Event) :
    Balance c (step c observers crossesWarnFraction l e) := by
  cases e with
  | acquire now =>
    refine h.append rfl rfl rfl rfl rfl (fun hadmitted => ?_) rfl
    have hroom : l.shared.waiting + 1 ≤ c.maxWaiters := by simpa [Caller.isAdmitted] using hadmitted
    exact hroom
  | tryAcquire =>
    rcases Nat.eq_zero_or_pos l.shared.free with hnone | hsome
    · rw [Acquire.step, if_pos hnone]
      exact h.append rfl rfl rfl rfl rfl (by simp [Caller.isAdmitted]) rfl
    · rw [Acquire.step, if_neg hsome.ne']
      exact h.append (Nat.sub_add_cancel hsome) rfl rfl rfl rfl (by simp [Caller.isAdmitted]) rfl
  | usage reading => exact ⟨h.slots, h.waiting, h.spent, h.admitted, h.tokens, h.checked⟩
  | move i m =>
    rcases hx : l.callers[i]? with _ | x
    · simpa only [Acquire.step, hx] using h
    · simp only [Acquire.step, hx]
      exact h.set hx (move_balanced c observers crossesWarnFraction l.shared x m)

end Balance

/-- **The accounts of a limiter.** Whatever its callers do, and in whatever order: the permits held and the slots in
progress fit in `maxConcurrent`, the callers past the admission check in `maxWaiters`; a token is spent for each permit
granted, by its caller, and for nothing else; and when all is returned, so are the counter and the slots. -/
theorem acquire_accounts (c : RateLimitConfig) (observers : Nat) (crossesWarnFraction : Nat → Bool) (reading : Nat)
    (events : List Event) :
    let l := run (step c observers crossesWarnFraction) (Limiter.new c reading) events
    l.count Caller.hasSlot ≤ c.maxConcurrent ∧
      l.count Caller.isParked ≤ c.maxWaiters ∧
      l.shared.drawn.spent = l.count Caller.granted ∧
      (∀ caller ∈ l.callers, caller.tokens = caller.granted.toNat) ∧
      ((∀ caller ∈ l.callers, caller.isDone) → l.shared.waiting = 0 ∧ l.shared.free = c.maxConcurrent) := by
  intro l
  have h : Balance c l :=
    run_invariant _ (fun _ e h => h.step observers crossesWarnFraction e) (Balance.new reading) events
  refine ⟨?_, (Limiter.count_le h.checked).trans h.admitted, h.spent, h.tokens, fun hdone => ?_⟩
  · have hslots := h.slots
    omega
  · have hguarded : l.count Caller.guarded = 0 := Limiter.count_none fun caller hcaller => by
      simpa using (Bool.and_eq_true_iff.mp (hdone caller hcaller)).1
    have hfree : l.count Caller.hasSlot = 0 := Limiter.count_none fun caller hcaller => by
      have hphase := (Bool.and_eq_true_iff.mp (hdone caller hcaller)).2
      unfold Caller.hasSlot
      split at hphase <;> simp_all
    have hslots := h.slots
    rw [hfree] at hslots
    exact ⟨h.waiting.trans hguarded, hslots⟩

end Cuca.Services.Acquire
