import Cuca.Services.RateBound

/-!
# How long to wait for a token

The wait that a refused access reports is rounded up, the refills during it round down, and the cap may cut them short.

* `timeToNextToken_pos`, `timeToNextToken_le` : a wait is positive, and an interval at most;
* `Ready` : a refill at `later` brings a whole token; `Ready.refill` : whatever refills come before it;
* `retry_after_suffices` : a wait suffices, unless a token is spent during it.
-/

namespace Cuca.Services
open Transition RateLimitConfig

/-- Where the loop of `acquire` sleeps until: the wait from `now`, or the end of its budget, in nanoseconds. -/
def sleepUntil (deadline now retryAfterMs : Nat) : Nat := min deadline (now + retryAfterMs * 1000000)

namespace BucketState
variable {c : RateLimitConfig} {b : BucketState}

theorem timeToNextToken_iff (hp : 0 < c.perIntervalMilli) (h : b.tokensMilli < MILLI_TOKEN) {wait : Nat} :
    b.timeToNextToken c ≤ wait ↔ (MILLI_TOKEN - b.tokensMilli) * c.intervalMillis ≤ wait * c.perIntervalMilli := by
  have hmissing : MILLI_TOKEN - b.tokensMilli ≠ 0 := by omega
  unfold timeToNextToken
  dsimp only
  rw [if_neg hmissing, ← Nat.lt_succ_iff, Nat.div_lt_iff_lt_mul hp, Nat.succ_mul]
  omega

theorem timeToNextToken_pos (hp : 0 < c.perIntervalMilli) (h : b.tokensMilli < MILLI_TOKEN) : 0 < b.timeToNextToken c := by
  by_contra hzero
  have hle := (timeToNextToken_iff hp h).mp (Nat.le_of_not_lt hzero)
  have hpos : 0 < (MILLI_TOKEN - b.tokensMilli) * c.intervalMillis := Nat.mul_pos (by omega) c.intervalMillis_pos
  omega

theorem timeToNextToken_le (hrequests : 0 < c.maxRequests) (h : b.tokensMilli < MILLI_TOKEN) : b.timeToNextToken c ≤ c.intervalMillis := by
  have hp : 0 < c.perIntervalMilli := Nat.mul_pos hrequests (by decide)
  apply (timeToNextToken_iff hp h).mpr
  calc (MILLI_TOKEN - b.tokensMilli) * c.intervalMillis
      ≤ MILLI_TOKEN * c.intervalMillis := Nat.mul_le_mul_right _ (Nat.sub_le _ _)
    _ ≤ c.perIntervalMilli * c.intervalMillis := Nat.mul_le_mul_right _ (Nat.le_mul_of_pos_left _ hrequests)
    _ = c.intervalMillis * c.perIntervalMilli := Nat.mul_comm _ _

/-! ## What a refill brings -/

/-- A refill at `later` brings a whole token. -/
def Ready (c : RateLimitConfig) (b : BucketState) (later : Nat) : Prop :=
  MILLI_TOKEN ≤ b.tokensMilli + gainMilli c (later - b.lastRefillMillis)

theorem gainMilli_split (c : RateLimitConfig) (elapsed gain : Nat) :
    gainMilli c elapsed ≤ gain + gainMilli c (elapsed - consumedMillis c gain) := by
  obtain hle | hlt := Nat.le_total gain (gainMilli c elapsed)
  · have hrest : gainMilli c elapsed - gain ≤ gainMilli c (elapsed - consumedMillis c gain) := by
      apply le_gainMilli.mpr
      have hgain := @gainMilli_mul_le c elapsed
      have hconsumed := @consumedMillis_mul_le c gain
      rw [Nat.sub_mul, Nat.sub_mul]
      omega
    omega
  · exact Nat.le_trans hlt (Nat.le_add_right _ _)

/-- **Refills in between keep it**, whatever their readings. -/
theorem Ready.refill (hburst : 0 < c.burst) {later : Nat} (h : Ready c b later) (now : Nat) :
    Ready c (b.refill c now) later := by
  unfold Ready at h ⊢
  obtain hpart | hfull := Nat.lt_or_ge (gainMilli c (now - b.lastRefillMillis)) (c.capacityMilli - b.tokensMilli)
  · rw [refill_part hpart]
    dsimp only
    obtain hbefore | hafter := Nat.le_total later now
    · have hmono : gainMilli c (later - b.lastRefillMillis) ≤ gainMilli c (now - b.lastRefillMillis) := gainMilli_mono (by omega)
      omega
    · have hsplit := gainMilli_split c (later - b.lastRefillMillis) (gainMilli c (now - b.lastRefillMillis))
      rw [Nat.sub_sub] at hsplit
      omega
  · rw [refill_full hfull]
    have hcapacity : MILLI_TOKEN ≤ c.capacityMilli := Nat.le_mul_of_pos_left _ hburst
    exact Nat.le_trans hcapacity (Nat.le_add_right _ _)

theorem Ready.takeToken (hburst : 0 < c.burst) {later : Nat} (h : Ready c b later) : (b.takeToken c later).1 = none := by
  have htoken : MILLI_TOKEN ≤ (b.refill c later).tokensMilli := by
    obtain hpart | hfull := Nat.lt_or_ge (gainMilli c (later - b.lastRefillMillis)) (c.capacityMilli - b.tokensMilli)
    · rw [refill_part hpart]
      exact h
    · rw [refill_full hfull]
      exact Nat.le_mul_of_pos_left _ hburst
  unfold BucketState.takeToken
  dsimp only
  rw [if_pos htoken]

theorem ready_of_wait (hp : 0 < c.perIntervalMilli) {now later : Nat} (hlast : b.lastRefillMillis ≤ now) (h : b.tokensMilli < MILLI_TOKEN)
    (hlater : now + b.timeToNextToken c ≤ later) : Ready c b later := by
  have hwait : b.timeToNextToken c ≤ later - b.lastRefillMillis := by omega
  have hgain := le_gainMilli.mpr ((timeToNextToken_iff hp h).mp hwait)
  unfold Ready
  omega

end BucketState

namespace Drawn
variable {c : RateLimitConfig}

theorem spent_le (d : Drawn) (a : Access) : d.spent ≤ (d.step c a).spent := by
  obtain heq | ⟨-, heq⟩ := d.step_eq c a
  · rw [heq]
  · rw [heq]
    exact Nat.le_succ _

theorem spent_le_run (accesses : List Access) (d : Drawn) : d.spent ≤ (run (step c) d accesses).spent :=
  run_mono (step c) (R := fun d d' : Drawn => d.spent ≤ d'.spent) (fun _ => Nat.le_refl _) (fun _ _ _ => Nat.le_trans) spent_le d accesses

theorem ready_run (hburst : 0 < c.burst) {later : Nat} {accesses : List Access} :
    ∀ {d : Drawn}, d.bucket.Ready c later → (run (step c) d accesses).spent = d.spent →
      (run (step c) d accesses).bucket.Ready c later := by
  induction accesses with
  | nil => exact fun h _ => h
  | cons a accesses ih =>
    intro d h hspent
    rw [run_cons] at hspent ⊢
    have hmono := spent_le_run (c := c) accesses (d.step c a)
    obtain heq | ⟨-, heq⟩ := d.step_eq c a
    · apply ih
      · rw [heq]
        exact h.refill hburst a.now
      · rw [hspent, heq]
    · have hlt : d.spent < (d.step c a).spent := by
        rw [heq]
        exact Nat.lt_succ_self _
      omega

end Drawn

/-- **A reported wait suffices.** Whatever the rate, and the bucket that refuses a token: the wait is positive and at most one interval,
counted in whole milliseconds and at least one; after it a token is there, if none is spent in between, whatever else reads the bucket and
when; and the loop of `acquire` never sleeps until now. -/
theorem retry_after_suffices (config : ValidRate) {b b' : BucketState} {now retryAfter : Nat} (hcurrent : b.Current config.1 now)
    (h : b.takeToken config.1 now = (some retryAfter, b')) :
    0 < retryAfter ∧ retryAfter ≤ config.1.intervalMillis ∧
      (1000000 ≤ config.1.interval → retryAfter * 1000000 ≤ config.1.interval) ∧
      (∀ accesses, spentFrom config.1 b' accesses = 0 → ∀ later, now + retryAfter ≤ later →
        ((run (Drawn.step config.1) ⟨b', 0⟩ accesses).bucket.takeToken config.1 later).1 = none) ∧
      ∀ deadline timer, timer < deadline → timer < sleepUntil deadline timer retryAfter := by
  obtain ⟨hrequests, hburst⟩ := validate_ok config.2
  have hp : 0 < config.1.perIntervalMilli := Nat.mul_pos hrequests (by decide)
  unfold BucketState.takeToken at h
  dsimp only at h
  split at h
  · exact nomatch (Prod.mk.inj h).1
  · rename_i hshort
    obtain ⟨hwait, rfl⟩ := Prod.mk.inj h
    obtain rfl := Option.some.inj hwait
    have hlt : (b.refill config.1 now).tokensMilli < MILLI_TOKEN := Nat.lt_of_not_le hshort
    have hpos := BucketState.timeToNextToken_pos hp hlt
    have hle := BucketState.timeToNextToken_le hrequests hlt
    have hrefilled := hcurrent.refill hrequests (Nat.le_refl now)
    refine ⟨hpos, hle, fun hinterval => ?_, fun accesses hspent later hlater => ?_, fun deadline timer htimer => ?_⟩
    · have hmillis : config.1.intervalMillis * 1000000 ≤ config.1.interval := by
        unfold intervalMillis asMillis
        omega
      exact Nat.le_trans (Nat.mul_le_mul_right _ hle) hmillis
    · have hready := BucketState.ready_of_wait hp hrefilled.last_le hlt hlater
      exact (Drawn.ready_run hburst (d := ⟨b.refill config.1 now, 0⟩) hready hspent).takeToken hburst
    · unfold sleepUntil
      omega

def slowRate : ValidRate := ⟨⟨1, 45000000000, 1, 1, 1, 45000000000, none⟩, by decide⟩

theorem slow_rate_waits : 45000 ≤ slowRate.1.intervalMillis ∧
    ((run (Drawn.step slowRate.1) ⟨⟨0, 7⟩, 0⟩ [⟨.usage, 20000⟩, ⟨.takeToken, 30001⟩]).bucket.takeToken slowRate.1 45007).1 = none := by
  have hcurrent : (⟨0, 7⟩ : BucketState).Current slowRate.1 7 := ⟨Nat.zero_le _, Nat.le_refl _⟩
  obtain ⟨-, hle, -, hsuffices, -⟩ :=
    retry_after_suffices slowRate hcurrent (by decide : (⟨0, 7⟩ : BucketState).takeToken slowRate.1 7 = (some 45000, ⟨0, 7⟩))
  exact ⟨hle, hsuffices [⟨.usage, 20000⟩, ⟨.takeToken, 30001⟩] (by decide) 45007 (by decide)⟩

def halfMilliRate : ValidRate := ⟨⟨1, 500000, 1, 1, 1, 500000, none⟩, by decide⟩

/-- An interval under a millisecond counts as one, and a wait exceeds it. -/
theorem wait_exceeds_interval : ¬∀ (config : ValidRate) (b b' : BucketState) (now retryAfter : Nat), b.Current config.1 now →
    b.takeToken config.1 now = (some retryAfter, b') → retryAfter * 1000000 ≤ config.1.interval := by
  intro hall
  have hcurrent : (⟨0, 0⟩ : BucketState).Current halfMilliRate.1 0 := ⟨Nat.zero_le _, Nat.le_refl _⟩
  have hle := hall halfMilliRate ⟨0, 0⟩ ⟨0, 0⟩ 0 1 hcurrent (by decide)
  exact absurd hle (by decide)

end Cuca.Services
