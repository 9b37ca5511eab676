import Cuca.Lib.Transition
import Cuca.Services.Tuner
import Mathlib.Algebra.Order.Field.Rat

/-!
# The token bucket of a rate limiter

Tokens are counted in thousandths, time in whole milliseconds of a monotonic clock. Every access refills first.

* `RateLimitConfig.validate` : the bounds a limiter is built with;
* `BucketState.refill` : brings the bucket current;
* `takeToken`, `usage`, `peekRetryAfter` : the accesses;
* `Drawn.step` : an access, with the tokens spent so far;
* `Drawn.window_induction` : invariants of accesses at rising readings.
-/

namespace Cuca.Services
open Transition

/-! ## Configuration -/

/-- The value of an `f32`, with the text it is printed as. -/
inductive F32 where
  | nan
  | infinite (negative : Bool)
  | finite (value : ℚ) (text : String)
deriving DecidableEq, Repr

def F32.display : F32 → String
  | .nan => "NaN"
  | .infinite negative => if negative then "-inf" else "inf"
  | .finite _ text => text

inductive RateLimitError where
  | config (message : String)
  | queueFull (waiters maxWaiters : Nat)
  | busy (inFlight maxConcurrent : Nat)
  | exhausted (retryAfterMs : Nat)
  | observer (error : String)
deriving DecidableEq, Repr

/-- `Semaphore::MAX_PERMITS` where a `usize` has 64 bits. -/
def MAX_PERMITS : Nat := 2 ^ 61 - 1

/-- The bounds of a limiter; observers, which only `acquire` calls, are left out. Durations are whole nanoseconds. -/
structure RateLimitConfig where
  maxRequests : Nat
  interval : Nat
  burst : Nat
  maxConcurrent : Nat
  maxWaiters : Nat
  maxWait : Nat
  warnFraction : Option F32
deriving DecidableEq, Repr

namespace RateLimitConfig

/-- Whether a warn fraction is outside `(0.0, 1.0]`. -/
def outsideUnit : F32 → Bool
  | .finite value _ => value ≤ 0 || value > 1
  | _ => true

def validate (c : RateLimitConfig) : Except RateLimitError Unit :=
  if c.maxRequests = 0 then .error (.config "max_requests must be non-zero")
  else if c.interval = 0 then .error (.config "interval must be non-zero")
  else if c.burst = 0 then .error (.config "burst must be non-zero")
  else if c.maxConcurrent = 0 then .error (.config "max_concurrent must be non-zero")
  else if c.maxConcurrent > MAX_PERMITS then
    .error (.config ("max_concurrent must be at most " ++ toString MAX_PERMITS ++ ", got " ++
      toString c.maxConcurrent))
  else if c.maxWaiters = 0 then .error (.config "max_waiters must be non-zero")
  else if c.maxWait = 0 then .error (.config "max_wait must be non-zero")
  else
    match c.warnFraction with
    | some fraction =>
      if outsideUnit fraction then
        .error (.config ("warn_fraction must be in (0.0, 1.0], got " ++ fraction.display))
      else .ok ()
    | none => .ok ()

def intervalMillis (c : RateLimitConfig) : Nat := max (asMillis c.interval) 1

def MILLI_TOKEN : Nat := 1000

def capacityMilli (c : RateLimitConfig) : Nat := c.burst * MILLI_TOKEN

def perIntervalMilli (c : RateLimitConfig) : Nat := c.maxRequests * MILLI_TOKEN

theorem intervalMillis_pos (c : RateLimitConfig) : 0 < c.intervalMillis := by
  unfold intervalMillis
  omega

theorem validate_ok {c : RateLimitConfig} (h : c.validate = .ok ()) : 0 < c.maxRequests ∧ 0 < c.burst := by
  unfold validate at h
  split_ifs at h
  exact ⟨by omega, by omega⟩

end RateLimitConfig

/-- A configuration that passed its check. -/
abbrev ValidRate := { c : RateLimitConfig // c.validate = .ok () }

/-! ## The bucket -/

structure BucketState where
  /-- Tokens in thousandths. -/
  tokensMilli : Nat
  /-- The reading at which they were last brought current. -/
  lastRefillMillis : Nat
deriving DecidableEq, Repr

namespace BucketState
open RateLimitConfig

def new (c : RateLimitConfig) (now : Nat) : BucketState := ⟨c.capacityMilli, now⟩

def gainMilli (c : RateLimitConfig) (elapsed : Nat) : Nat := elapsed * c.perIntervalMilli / c.intervalMillis

/-- The time `gain` costs, in whole milliseconds. -/
def consumedMillis (c : RateLimitConfig) (gain : Nat) : Nat := gain * c.intervalMillis / c.perIntervalMilli

def refill (c : RateLimitConfig) (b : BucketState) (now : Nat) : BucketState :=
  let gain := gainMilli c (now - b.lastRefillMillis)
  let headroom := c.capacityMilli - b.tokensMilli
  if gain ≥ headroom then ⟨c.capacityMilli, now⟩
  else ⟨b.tokensMilli + gain, b.lastRefillMillis + consumedMillis c gain⟩

/-- Milliseconds until the bucket holds one whole token. -/
def timeToNextToken (c : RateLimitConfig) (b : BucketState) : Nat :=
  let missing := MILLI_TOKEN - b.tokensMilli
  if missing = 0 then 0 else (missing * c.intervalMillis + c.perIntervalMilli - 1) / c.perIntervalMilli

/-! ## Accesses -/

/-- Spends one whole token, or says how long until the bucket holds one. -/
def takeToken (c : RateLimitConfig) (b : BucketState) (now : Nat) : Option Nat × BucketState :=
  let b := b.refill c now
  if b.tokensMilli ≥ MILLI_TOKEN then (none, { b with tokensMilli := b.tokensMilli - MILLI_TOKEN })
  else (some (b.timeToNextToken c), b)

/-- Whole tokens in the bucket. -/
def usage (c : RateLimitConfig) (b : BucketState) (now : Nat) : Nat × BucketState :=
  let b := b.refill c now
  (b.tokensMilli / MILLI_TOKEN, b)

def peekRetryAfter (c : RateLimitConfig) (b : BucketState) (now : Nat) : Nat × BucketState :=
  let b := b.refill c now
  (b.timeToNextToken c, b)

end BucketState

inductive AccessKind where
  | takeToken
  | usage
  | peekRetryAfter
deriving DecidableEq, Repr

/-- One access and its clock reading. -/
structure Access where
  kind : AccessKind
  now : Nat
deriving DecidableEq, Repr

/-- The accesses are made at rising readings, none before `start` and none after `finish`. -/
def Rising (start : Nat) (accesses : List Access) (finish : Nat) : Prop :=
  (start :: (accesses.map Access.now ++ [finish])).Pairwise (· ≤ ·)

namespace Rising

theorem cons {start now finish : Nat} {accesses : List Access} {kind : AccessKind} (hle : start ≤ now)
    (h : Rising now accesses finish) : Rising start (⟨kind, now⟩ :: accesses) finish := by
  refine List.pairwise_cons.mpr ⟨fun reading hreading => ?_, h⟩
  rcases List.mem_cons.mp hreading with rfl | hlater
  · exact hle
  · exact hle.trans ((List.pairwise_cons.mp h).1 reading hlater)

theorem earlier {start now finish : Nat} {accesses : List Access} (hle : start ≤ now) (h : Rising now accesses finish) :
    Rising start accesses finish := by
  obtain ⟨hfirst, hrest⟩ := List.pairwise_cons.mp h
  exact List.pairwise_cons.mpr ⟨fun reading hreading => hle.trans (hfirst reading hreading), hrest⟩

theorem replicate {start finish : Nat} {accesses : List Access} (h : Rising start accesses finish) (kind : AccessKind)
    (times : Nat) : Rising start (List.replicate times ⟨kind, start⟩ ++ accesses) finish := by
  induction times with
  | zero => exact h
  | succ times ih => exact ih.cons (Nat.le_refl _)

theorem split {start finish : Nat} {before window : List Access} {first : Access}
    (h : Rising start (before ++ first :: window) finish) :
    Rising start before first.now ∧ Rising first.now window finish := by
  have happend : ((start :: before.map Access.now) ++ first.now :: (window.map Access.now ++ [finish])).Pairwise
      (· ≤ ·) := by
    have heq : (before ++ first :: window).map Access.now ++ [finish] =
        before.map Access.now ++ first.now :: (window.map Access.now ++ [finish]) := by simp
    unfold Rising at h
    rwa [heq] at h
  obtain ⟨hbefore, hwindow, hacross⟩ := List.pairwise_append.mp happend
  refine ⟨?_, hwindow⟩
  show ((start :: before.map Access.now) ++ [first.now]).Pairwise (· ≤ ·)
  refine List.pairwise_append.mpr ⟨hbefore, List.pairwise_singleton _ _, fun x hx y hy => ?_⟩
  rw [List.mem_singleton.mp hy]
  exact hacross x hx _ List.mem_cons_self

end Rising

/-- A bucket and the tokens spent from it. -/
structure Drawn where
  bucket : BucketState
  spent : Nat
deriving DecidableEq, Repr

def Drawn.step (c : RateLimitConfig) (d : Drawn) (a : Access) : Drawn :=
  match a.kind with
  | .takeToken =>
    match d.bucket.takeToken c a.now with
    | (none, bucket) => ⟨bucket, d.spent + 1⟩
    | (some _, bucket) => ⟨bucket, d.spent⟩
  | .usage => ⟨(d.bucket.usage c a.now).2, d.spent⟩
  | .peekRetryAfter => ⟨(d.bucket.peekRetryAfter c a.now).2, d.spent⟩

/-! ## What a refill and an access do -/

namespace BucketState

theorem refill_full {c : RateLimitConfig} {b : BucketState} {now : Nat}
    (h : c.capacityMilli - b.tokensMilli ≤ gainMilli c (now - b.lastRefillMillis)) :
    b.refill c now = ⟨c.capacityMilli, now⟩ := if_pos h

theorem refill_part {c : RateLimitConfig} {b : BucketState} {now : Nat}
    (h : gainMilli c (now - b.lastRefillMillis) < c.capacityMilli - b.tokensMilli) :
    b.refill c now = ⟨b.tokensMilli + gainMilli c (now - b.lastRefillMillis),
      b.lastRefillMillis + consumedMillis c (gainMilli c (now - b.lastRefillMillis))⟩ := if_neg (by omega)

theorem consumedMillis_le {c : RateLimitConfig} (hrequests : 0 < c.maxRequests) (elapsed : Nat) :
    consumedMillis c (gainMilli c elapsed) ≤ elapsed := by
  have hp : 0 < c.perIntervalMilli := Nat.mul_pos hrequests (by decide)
  refine (Nat.div_le_div_right (Nat.div_mul_le_self _ _)).trans ?_
  rw [Nat.mul_div_cancel _ hp]

/-- Between accesses a bucket holds at most its capacity and is not ahead of the clock. -/
structure Current (c : RateLimitConfig) (b : BucketState) (now : Nat) : Prop where
  tokens_le : b.tokensMilli ≤ c.capacityMilli
  last_le : b.lastRefillMillis ≤ now

theorem new_current (c : RateLimitConfig) (now : Nat) : (new c now).Current c now := ⟨Nat.le_refl _, Nat.le_refl _⟩

theorem Current.refill {c : RateLimitConfig} (hrequests : 0 < c.maxRequests) {b : BucketState} {t now : Nat}
    (h : b.Current c t) (ht : t ≤ now) : (b.refill c now).Current c now := by
  rcases Nat.lt_or_ge (gainMilli c (now - b.lastRefillMillis)) (c.capacityMilli - b.tokensMilli) with hpart | hfull
  · rw [refill_part hpart]
    have hconsumed := consumedMillis_le hrequests (now - b.lastRefillMillis)
    have hlast := h.last_le
    refine ⟨?_, ?_⟩
    · show b.tokensMilli + gainMilli c (now - b.lastRefillMillis) ≤ c.capacityMilli
      omega
    · show b.lastRefillMillis + consumedMillis c (gainMilli c (now - b.lastRefillMillis)) ≤ now
      omega
  · rw [refill_full hfull]
    exact ⟨Nat.le_refl _, Nat.le_refl _⟩

end BucketState

namespace Drawn

theorem step_eq (c : RateLimitConfig) (d : Drawn) (a : Access) :
    d.step c a = ⟨d.bucket.refill c a.now, d.spent⟩ ∨
      RateLimitConfig.MILLI_TOKEN ≤ (d.bucket.refill c a.now).tokensMilli ∧
        d.step c a = ⟨{ d.bucket.refill c a.now with
          tokensMilli := (d.bucket.refill c a.now).tokensMilli - RateLimitConfig.MILLI_TOKEN }, d.spent + 1⟩ := by
  unfold step
  cases a.kind with
  | takeToken =>
    simp only [BucketState.takeToken]
    split_ifs with htoken
    · exact .inr ⟨htoken, rfl⟩
    · exact .inl rfl
  | usage => exact .inl rfl
  | peekRetryAfter => exact .inl rfl

/-- **The rule of windows**: what every refill and every spending keeps at rising readings holds at the end. -/
theorem window_induction {c : RateLimitConfig} {I : Nat → BucketState → Nat → Prop}
    (hrefill : ∀ n b t now, I n b t → t ≤ now → I n (b.refill c now) now)
    (hspend : ∀ n b t, I n b t → RateLimitConfig.MILLI_TOKEN ≤ b.tokensMilli →
      I (n + 1) { b with tokensMilli := b.tokensMilli - RateLimitConfig.MILLI_TOKEN } t)
    (accesses : List Access) : ∀ (d : Drawn) (t tn : Nat), I d.spent d.bucket t → Rising t accesses tn →
      ∃ last, last ≤ tn ∧ I (run (step c) d accesses).spent (run (step c) d accesses).bucket last := by
  induction accesses with
  | nil =>
    intro d t tn h hrising
    exact ⟨t, (List.pairwise_cons.mp hrising).1 tn (by simp), h⟩
  | cons a accesses ih =>
    intro d t tn h hrising
    obtain ⟨hle, hrest⟩ := List.pairwise_cons.mp hrising
    have hrefilled := hrefill d.spent d.bucket t a.now h (hle a.now (by simp))
    refine ih (d.step c a) a.now tn ?_ hrest
    rcases d.step_eq c a with heq | ⟨htoken, heq⟩
    · rw [heq]
      exact hrefilled
    · rw [heq]
      exact hspend _ _ _ hrefilled htoken

end Drawn
end Cuca.Services
