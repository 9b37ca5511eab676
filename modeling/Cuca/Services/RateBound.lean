import Cuca.Services.RateLimit
import Mathlib.Tactic.Linarith
import Mathlib.Tactic.Ring

/-!
# What a token bucket lets through

A refill grants `gainMilli` for the time since the mark and moves the mark by `consumedMillis`, each rounded down. Where
the second rounding loses time, that time is granted again.

* `BoundsSpending` : no window spends more than the burst and the rate over the window;
* `NeverMints` : an early refill leaves no more tokens than the later refill alone;
* `Charges` : the rates whose refills charge for what they grant;
* `Ledger` : an account of tokens and time that refills and spending keep;
* `rate_bound_iff` : the two hold exactly of those rates.
-/

namespace Cuca.Services
open Transition RateLimitConfig BucketState

def spentFrom (c : RateLimitConfig) (b : BucketState) (accesses : List Access) : Nat :=
  (run (Drawn.step c) ⟨b, 0⟩ accesses).spent

/-- The bucket of a limiter that started at `start`, after the accesses. -/
def bucketAfter (c : RateLimitConfig) (start : Nat) (accesses : List Access) : BucketState :=
  (run (Drawn.step c) ⟨BucketState.new c start, 0⟩ accesses).bucket

/-- In every window of a run, from its first access to `tn`, at most the burst and the rate's share are spent. -/
def BoundsSpending (c : RateLimitConfig) : Prop :=
  ∀ (start : Nat) (before : List Access) (first : Access) (window : List Access) (tn : Nat),
    Rising start (before ++ first :: window) tn →
    spentFrom c (bucketAfter c start before) (first :: window) ≤
      c.burst + (tn - first.now) * c.maxRequests / c.intervalMillis

/-- Refilling at `t1` and at `t2` leaves no more tokens than refilling at `t2`. -/
def NeverMints (c : RateLimitConfig) : Prop :=
  ∀ (b : BucketState) (t1 t2 : Nat), b.Current c t1 → t1 ≤ t2 →
    ((b.refill c t1).refill c t2).tokensMilli ≤ (b.refill c t2).tokensMilli

/-- A millisecond is worth a whole number of milli-tokens, or a milli-token a whole number of milliseconds; or one
millisecond fills the bucket; or the bucket holds one token, and a window is short of whole milliseconds a milli-token
by at most `max_requests`. -/
def Charges (c : RateLimitConfig) : Prop :=
  c.intervalMillis ∣ c.perIntervalMilli ∨ c.perIntervalMilli ∣ c.intervalMillis ∨
    c.burst * c.intervalMillis ≤ c.maxRequests ∨
    c.burst = 1 ∧ c.intervalMillis % c.perIntervalMilli ≤ c.maxRequests

instance (c : RateLimitConfig) : Decidable (Charges c) := by unfold Charges; infer_instance

/-! ## The two roundings -/

section Rounding
variable {c : RateLimitConfig} {elapsed gain : Nat}

theorem gainMilli_mul_le : gainMilli c elapsed * c.intervalMillis ≤ elapsed * c.perIntervalMilli :=
  Nat.div_mul_le_self _ _

theorem lt_gainMilli_mul : elapsed * c.perIntervalMilli < (gainMilli c elapsed + 1) * c.intervalMillis :=
  Nat.lt_mul_of_div_lt (Nat.lt_succ_self _) c.intervalMillis_pos

theorem le_gainMilli : gain ≤ gainMilli c elapsed ↔ gain * c.intervalMillis ≤ elapsed * c.perIntervalMilli :=
  Nat.le_div_iff_mul_le c.intervalMillis_pos

theorem gainMilli_zero : gainMilli c 0 = 0 := by
  unfold gainMilli
  rw [Nat.zero_mul, Nat.zero_div]

theorem gainMilli_mono {earlier : Nat} (h : earlier ≤ elapsed) : gainMilli c earlier ≤ gainMilli c elapsed :=
  Nat.div_le_div_right (Nat.mul_le_mul_right _ h)

theorem consumedMillis_mul_le : consumedMillis c gain * c.perIntervalMilli ≤ gain * c.intervalMillis :=
  Nat.div_mul_le_self _ _

theorem consumedMillis_zero : consumedMillis c 0 = 0 := by
  unfold consumedMillis
  rw [Nat.zero_mul, Nat.zero_div]

theorem refill_still {b : BucketState} (h : b.tokensMilli ≤ c.capacityMilli) : b.refill c b.lastRefillMillis = b := by
  have hgain : gainMilli c (b.lastRefillMillis - b.lastRefillMillis) = 0 := by rw [Nat.sub_self, gainMilli_zero]
  rcases Nat.lt_or_ge b.tokensMilli c.capacityMilli with hroom | hfull
  · rw [refill_part (by omega), hgain, consumedMillis_zero]
    rfl
  · rw [refill_full (by omega), Nat.le_antisymm hfull h]

end Rounding

/-! ## Ledgers -/

/-- What refills and spending keep of the tokens spent since `t0`, the tokens left and the mark, and what it bounds. -/
structure Ledger (c : RateLimitConfig) (Q : Nat → Nat → Nat → Nat → Prop) : Prop where
  start_full : ∀ t0, Q t0 0 c.capacityMilli t0
  start_part : ∀ tokens last elapsed, tokens + gainMilli c elapsed < c.capacityMilli →
    Q (last + elapsed) 0 (tokens + gainMilli c elapsed) (last + consumedMillis c (gainMilli c elapsed))
  fill : ∀ t0 spent tokens last elapsed, tokens ≤ c.capacityMilli → Q t0 spent tokens last →
    c.capacityMilli ≤ tokens + gainMilli c elapsed → Q t0 spent c.capacityMilli (last + elapsed)
  part : ∀ t0 spent tokens last elapsed, Q t0 spent tokens last → tokens + gainMilli c elapsed < c.capacityMilli →
    Q t0 spent (tokens + gainMilli c elapsed) (last + consumedMillis c (gainMilli c elapsed))
  spend : ∀ t0 spent tokens last, tokens + MILLI_TOKEN ≤ c.capacityMilli → Q t0 spent (tokens + MILLI_TOKEN) last →
    Q t0 (spent + 1) tokens last
  bound : ∀ t0 spent tokens last tn, tokens ≤ c.capacityMilli → last ≤ tn → Q t0 spent tokens last →
    spent ≤ c.burst + (tn - t0) * c.maxRequests / c.intervalMillis

namespace Ledger
variable {c : RateLimitConfig} {Q : Nat → Nat → Nat → Nat → Prop}

theorem start (l : Ledger c Q) {b : BucketState} {t0 : Nat} (h : b.lastRefillMillis ≤ t0) :
    Q t0 0 (b.refill c t0).tokensMilli (b.refill c t0).lastRefillMillis := by
  rcases Nat.lt_or_ge (gainMilli c (t0 - b.lastRefillMillis)) (c.capacityMilli - b.tokensMilli) with hpart | hfull
  · rw [refill_part hpart]
    have := l.start_part b.tokensMilli b.lastRefillMillis (t0 - b.lastRefillMillis) (by omega)
    rwa [Nat.add_sub_cancel' h] at this
  · rw [refill_full hfull]
    exact l.start_full t0

def Open (c : RateLimitConfig) (Q : Nat → Nat → Nat → Nat → Prop) (t0 spent : Nat) (b : BucketState) (t : Nat) : Prop :=
  b.Current c t ∧ Q t0 spent b.tokensMilli b.lastRefillMillis

theorem refill (l : Ledger c Q) (hrequests : 0 < c.maxRequests) {b : BucketState} {t0 spent t now : Nat}
    (h : Open c Q t0 spent b t) (ht : t ≤ now) : Open c Q t0 spent (b.refill c now) now := by
  refine ⟨h.1.refill hrequests ht, ?_⟩
  have hlast := h.1.last_le.trans ht
  rcases Nat.lt_or_ge (gainMilli c (now - b.lastRefillMillis)) (c.capacityMilli - b.tokensMilli) with hpart | hfull
  · rw [refill_part hpart]
    exact l.part _ _ _ _ _ h.2 (by omega)
  · rw [refill_full hfull]
    have := l.fill _ _ _ _ (now - b.lastRefillMillis) h.1.tokens_le h.2 (by omega)
    rwa [Nat.add_sub_cancel' hlast] at this

theorem spendToken (l : Ledger c Q) {b : BucketState} {t0 spent t : Nat} (h : Open c Q t0 spent b t)
    (htoken : MILLI_TOKEN ≤ b.tokensMilli) :
    Open c Q t0 (spent + 1) { b with tokensMilli := b.tokensMilli - MILLI_TOKEN } t := by
  refine ⟨⟨(Nat.sub_le _ _).trans h.1.tokens_le, h.1.last_le⟩, l.spend _ _ _ _ ?_ ?_⟩
  · rw [Nat.sub_add_cancel htoken]
    exact h.1.tokens_le
  · rw [Nat.sub_add_cancel htoken]
    exact h.2

theorem boundsSpending (l : Ledger c Q) (hrequests : 0 < c.maxRequests) : BoundsSpending c := by
  intro start before first window tn hrising
  obtain ⟨hrisingBefore, hrisingWindow⟩ := hrising.split
  -- the bucket the window finds
  have hfound : ∃ last, last ≤ first.now ∧ (bucketAfter c start before).Current c last :=
    Drawn.window_induction (I := fun _ b t => b.Current c t) (fun _ _ _ _ h ht => h.refill hrequests ht)
      (fun _ _ _ h _ => ⟨(Nat.sub_le _ _).trans h.tokens_le, h.last_le⟩) before _ start first.now
      (new_current c start) hrisingBefore
  obtain ⟨last, hlast, hcurrent⟩ := hfound
  -- the account opens with the first access's refill
  have hopen : Open c Q first.now 0 ((bucketAfter c start before).refill c first.now) first.now :=
    ⟨hcurrent.refill hrequests hlast, l.start (hcurrent.last_le.trans hlast)⟩
  have hfirst : Open c Q first.now (Drawn.step c ⟨bucketAfter c start before, 0⟩ first).spent
      (Drawn.step c ⟨bucketAfter c start before, 0⟩ first).bucket first.now := by
    rcases Drawn.step_eq c ⟨bucketAfter c start before, 0⟩ first with heq | ⟨htoken, heq⟩
    · rw [heq]
      exact hopen
    · rw [heq]
      exact l.spendToken hopen htoken
  obtain ⟨t, ht, hend⟩ := Drawn.window_induction (I := Open c Q first.now)
    (fun _ _ _ _ h hnow => l.refill hrequests h hnow) (fun _ _ _ h htoken => l.spendToken h htoken) window _ first.now tn
    hfirst hrisingWindow
  exact l.bound _ _ _ _ _ hend.1.tokens_le (hend.1.last_le.trans ht) hend.2

end Ledger

/-- A rate mints nothing if the gain at `t1` and the gain of the time left after it make no more than the gain at
`t2`. -/
theorem neverMints_of_gain {c : RateLimitConfig} (hrequests : 0 < c.maxRequests)
    (h : ∀ earlier elapsed, earlier ≤ elapsed → gainMilli c elapsed < c.capacityMilli →
      gainMilli c earlier + gainMilli c (elapsed - consumedMillis c (gainMilli c earlier)) ≤ gainMilli c elapsed) :
    NeverMints c := by
  intro b t1 t2 hcurrent ht
  have hcap := ((hcurrent.refill hrequests (Nat.le_refl t1)).refill hrequests ht).tokens_le
  have hearlier : t1 - b.lastRefillMillis ≤ t2 - b.lastRefillMillis := by omega
  rcases Nat.lt_or_ge (gainMilli c (t2 - b.lastRefillMillis)) (c.capacityMilli - b.tokensMilli) with hpart | hfull
  · have hgain := h _ _ hearlier (by omega)
    have hmono := gainMilli_mono (c := c) hearlier
    have hrest : t2 - (b.lastRefillMillis + consumedMillis c (gainMilli c (t1 - b.lastRefillMillis))) =
        t2 - b.lastRefillMillis - consumedMillis c (gainMilli c (t1 - b.lastRefillMillis)) := by omega
    rw [refill_part hpart, @refill_part _ _ t1 (by omega), refill_part]
    · show _ + _ + gainMilli c (t2 - (_ + _)) ≤ _ + _
      rw [hrest]
      omega
    · show gainMilli c (t2 - (_ + _)) < _ - (_ + _)
      rw [hrest]
      omega
  · rw [refill_full hfull]
    exact hcap

/-! ## Rates whose gains cost whole milliseconds -/

section Exact
variable {c : RateLimitConfig}

theorem cost_exact (hrequests : 0 < c.maxRequests)
    (h : c.intervalMillis ∣ c.perIntervalMilli ∨ c.perIntervalMilli ∣ c.intervalMillis) (elapsed : Nat) :
    gainMilli c elapsed * c.intervalMillis = consumedMillis c (gainMilli c elapsed) * c.perIntervalMilli := by
  have hp : 0 < c.perIntervalMilli := Nat.mul_pos hrequests (by decide)
  refine (Nat.div_mul_cancel ?_).symm
  rcases h with hdvd | hdvd
  · -- every millisecond is worth `m` milli-tokens
    obtain ⟨m, hm⟩ := hdvd
    have hgain : gainMilli c elapsed = elapsed * m := by
      unfold gainMilli
      rw [hm, Nat.mul_left_comm, Nat.mul_div_cancel_left _ c.intervalMillis_pos]
    rw [hgain, Nat.mul_assoc, Nat.mul_comm m, ← hm]
    exact Nat.dvd_mul_left _ _
  · exact hdvd.mul_left _

/-- Time and tokens are kept exactly. -/
def Balanced (c : RateLimitConfig) (t0 spent tokens last : Nat) : Prop :=
  (spent * MILLI_TOKEN + tokens) * c.intervalMillis + t0 * c.perIntervalMilli ≤
    c.capacityMilli * c.intervalMillis + last * c.perIntervalMilli

theorem balanced_ledger (hexact : ∀ elapsed, gainMilli c elapsed * c.intervalMillis =
    consumedMillis c (gainMilli c elapsed) * c.perIntervalMilli) : Ledger c (Balanced c) where
  start_full t0 := by
    unfold Balanced
    rw [Nat.zero_mul, Nat.zero_add]
  start_part tokens last elapsed hpart := by
    unfold Balanced
    have hcost := hexact elapsed
    -- what the gain leaves over is less than a milli-token
    have hrest := @lt_gainMilli_mul c elapsed
    have hroom := Nat.mul_le_mul_right c.intervalMillis (Nat.succ_le_of_lt hpart)
    simp only [Nat.add_mul, Nat.succ_mul, Nat.zero_mul] at *
    omega
  fill t0 spent tokens last elapsed htokens h hfull := by
    unfold Balanced at *
    have hgain := @gainMilli_mul_le c elapsed
    have hroom := Nat.mul_le_mul_right c.intervalMillis hfull
    simp only [Nat.add_mul] at *
    omega
  part t0 spent tokens last elapsed h hpart := by
    unfold Balanced at *
    have hcost := hexact elapsed
    simp only [Nat.add_mul] at *
    omega
  spend t0 spent tokens last htokens h := by
    unfold Balanced at *
    rwa [Nat.succ_mul, Nat.add_assoc, Nat.add_comm MILLI_TOKEN]
  bound t0 spent tokens last tn htokens hlast h := by
    unfold Balanced capacityMilli perIntervalMilli at h
    have htn := Nat.mul_le_mul_right c.maxRequests hlast
    -- in whole tokens
    have hwhole : spent * c.intervalMillis + t0 * c.maxRequests ≤
        c.burst * c.intervalMillis + last * c.maxRequests := by
      refine Nat.le_of_mul_le_mul_left ?_ (show 0 < MILLI_TOKEN by decide)
      calc MILLI_TOKEN * (spent * c.intervalMillis + t0 * c.maxRequests)
          ≤ (spent * MILLI_TOKEN + tokens) * c.intervalMillis + t0 * (c.maxRequests * MILLI_TOKEN) := by
            have : 0 ≤ tokens * c.intervalMillis := Nat.zero_le _
            linarith
        _ ≤ c.burst * MILLI_TOKEN * c.intervalMillis + last * (c.maxRequests * MILLI_TOKEN) := h
        _ = MILLI_TOKEN * (c.burst * c.intervalMillis + last * c.maxRequests) := by ring
    refine Nat.sub_le_iff_le_add'.mp ?_
    rw [Nat.le_div_iff_mul_le c.intervalMillis_pos, Nat.sub_mul, Nat.sub_mul]
    omega

theorem gain_exact (hexact : ∀ elapsed, gainMilli c elapsed * c.intervalMillis =
    consumedMillis c (gainMilli c elapsed) * c.perIntervalMilli) (earlier elapsed : Nat) (h : earlier ≤ elapsed) :
    gainMilli c earlier + gainMilli c (elapsed - consumedMillis c (gainMilli c earlier)) ≤ gainMilli c elapsed := by
  rw [le_gainMilli, Nat.add_mul, hexact earlier]
  have hrest := @gainMilli_mul_le c (elapsed - consumedMillis c (gainMilli c earlier))
  have hcost : consumedMillis c (gainMilli c earlier) * c.perIntervalMilli ≤ elapsed * c.perIntervalMilli := by
    rw [← hexact earlier]
    exact gainMilli_mul_le.trans (Nat.mul_le_mul_right _ h)
  rw [Nat.sub_mul] at hrest
  omega

end Exact

/-! ## Rates that fill the bucket in a millisecond -/

section Fills
variable {c : RateLimitConfig}

theorem capacity_le_gain (hfills : c.burst * c.intervalMillis ≤ c.maxRequests) {elapsed : Nat} (h : 0 < elapsed) :
    elapsed * c.capacityMilli ≤ gainMilli c elapsed := by
  rw [le_gainMilli]
  unfold capacityMilli perIntervalMilli
  calc elapsed * (c.burst * MILLI_TOKEN) * c.intervalMillis
      = elapsed * (c.burst * c.intervalMillis * MILLI_TOKEN) := by ring
    _ ≤ elapsed * (c.maxRequests * MILLI_TOKEN) := Nat.mul_le_mul_left _ (Nat.mul_le_mul_right _ hfills)

theorem still_of_part (hfills : c.burst * c.intervalMillis ≤ c.maxRequests) {elapsed : Nat}
    (h : gainMilli c elapsed < c.capacityMilli) : elapsed = 0 := by
  by_contra hne
  have hfull := capacity_le_gain hfills (Nat.pos_of_ne_zero hne)
  have := Nat.le_mul_of_pos_left c.capacityMilli (Nat.pos_of_ne_zero hne)
  omega

/-- Every millisecond since `t0` brings a burst at most. -/
def Refilled (c : RateLimitConfig) (t0 spent tokens last : Nat) : Prop :=
  t0 ≤ last ∧ spent * MILLI_TOKEN + tokens ≤ c.capacityMilli + (last - t0) * c.capacityMilli

theorem refilled_ledger (hfills : c.burst * c.intervalMillis ≤ c.maxRequests) : Ledger c (Refilled c) where
  start_full t0 := ⟨Nat.le_refl _, by omega⟩
  start_part tokens last elapsed hpart := by
    have hstill := still_of_part hfills (lt_of_le_of_lt (Nat.le_add_left _ _) hpart)
    subst hstill
    rw [gainMilli_zero] at hpart ⊢
    rw [consumedMillis_zero]
    exact ⟨Nat.le_refl _, by omega⟩
  fill t0 spent tokens last elapsed htokens h hfull := by
    obtain ⟨ht0, hspent⟩ := h
    refine ⟨by omega, ?_⟩
    rcases Nat.eq_zero_or_pos elapsed with rfl | hpos
    · rw [gainMilli_zero] at hfull
      rw [Nat.add_zero]
      omega
    · have hlater : (last - t0 + 1) * c.capacityMilli ≤ (last + elapsed - t0) * c.capacityMilli :=
        Nat.mul_le_mul_right _ (by omega)
      rw [Nat.succ_mul] at hlater
      omega
  part t0 spent tokens last elapsed h hpart := by
    have hstill := still_of_part hfills (lt_of_le_of_lt (Nat.le_add_left _ _) hpart)
    subst hstill
    rw [gainMilli_zero, consumedMillis_zero]
    exact h
  spend t0 spent tokens last htokens h := by
    refine ⟨h.1, ?_⟩
    rw [Nat.succ_mul]
    have := h.2
    omega
  bound t0 spent tokens last tn htokens hlast h := by
    obtain ⟨ht0, hspent⟩ := h
    unfold capacityMilli at hspent
    have hwhole : spent ≤ c.burst + (last - t0) * c.burst := by
      refine Nat.le_of_mul_le_mul_right ?_ (show 0 < MILLI_TOKEN by decide)
      rw [Nat.add_mul, Nat.mul_assoc]
      omega
    have hshare : (last - t0) * c.burst ≤ (tn - t0) * c.maxRequests / c.intervalMillis := by
      rw [Nat.le_div_iff_mul_le c.intervalMillis_pos, Nat.mul_assoc]
      exact Nat.mul_le_mul (by omega) hfills
    omega

theorem gain_fills (hfills : c.burst * c.intervalMillis ≤ c.maxRequests) (earlier elapsed : Nat)
    (h : earlier ≤ elapsed) (hpart : gainMilli c elapsed < c.capacityMilli) :
    gainMilli c earlier + gainMilli c (elapsed - consumedMillis c (gainMilli c earlier)) ≤ gainMilli c elapsed := by
  obtain rfl := still_of_part hfills hpart
  obtain rfl := Nat.le_zero.mp h
  rw [Nat.zero_sub, gainMilli_zero]

end Fills

/-! ## One token, short of whole milliseconds -/

section Single
variable {c : RateLimitConfig}

def milliMillis (c : RateLimitConfig) : Nat := c.intervalMillis / c.perIntervalMilli

def shortMillis (c : RateLimitConfig) : Nat := c.intervalMillis % c.perIntervalMilli

theorem milliMillis_add_short (c : RateLimitConfig) :
    milliMillis c * c.perIntervalMilli + shortMillis c = c.intervalMillis := Nat.div_add_mod' _ _

theorem lt_of_gain (hshort : 0 < shortMillis c) {gain elapsed : Nat} (hgain : 0 < gain)
    (h : gain ≤ gainMilli c elapsed) : gain * milliMillis c < elapsed := by
  rw [le_gainMilli, ← milliMillis_add_short c, Nat.mul_add, ← Nat.mul_assoc] at h
  have hover : 0 < gain * shortMillis c := Nat.mul_pos hgain hshort
  exact Nat.lt_of_mul_lt_mul_right (a := c.perIntervalMilli) (by omega)

theorem le_of_gain_lt (hle : shortMillis c ≤ c.maxRequests) {elapsed : Nat} (h : gainMilli c elapsed < MILLI_TOKEN) :
    elapsed ≤ (gainMilli c elapsed + 1) * milliMillis c := by
  have hnext := @lt_gainMilli_mul c elapsed
  rw [← milliMillis_add_short c, Nat.mul_add, ← Nat.mul_assoc] at hnext
  have hover : (gainMilli c elapsed + 1) * shortMillis c ≤ c.perIntervalMilli := by
    unfold perIntervalMilli
    rw [Nat.mul_comm c.maxRequests]
    exact Nat.mul_le_mul h hle
  refine Nat.le_of_lt_succ (Nat.lt_of_mul_lt_mul_right (a := c.perIntervalMilli) ?_)
  rw [Nat.succ_mul]
  omega

theorem mul_milliMillis_le_consumed (hp : 0 < c.perIntervalMilli) (gain : Nat) :
    gain * milliMillis c ≤ consumedMillis c gain := by
  unfold consumedMillis milliMillis
  rw [Nat.le_div_iff_mul_le hp, Nat.mul_assoc]
  exact Nat.mul_le_mul_left _ (Nat.div_mul_le_self _ _)

def fillMillis (c : RateLimitConfig) : Nat := MILLI_TOKEN * milliMillis c + 1

/-- Spent tokens are a filling apart. -/
def Spaced (c : RateLimitConfig) (t0 spent tokens last : Nat) : Prop :=
  t0 + spent * fillMillis c + (if tokens = MILLI_TOKEN then fillMillis c else tokens * milliMillis c) ≤
    last + fillMillis c

theorem spaced_ledger (hrequests : 0 < c.maxRequests) (hburst : c.burst = 1) (hshort : 0 < shortMillis c)
    (hle : shortMillis c ≤ c.maxRequests) : Ledger c (Spaced c) := by
  have hp : 0 < c.perIntervalMilli := Nat.mul_pos hrequests (by decide)
  have hcap : c.capacityMilli = MILLI_TOKEN := by rw [capacityMilli, hburst, Nat.one_mul]
  constructor <;> rw [hcap] <;> unfold Spaced
  case start_full =>
    intro t0
    rw [if_pos rfl, Nat.zero_mul, Nat.add_zero]
  case start_part =>
    intro tokens last elapsed hpart
    have hnext := le_of_gain_lt hle (lt_of_le_of_lt (Nat.le_add_left _ _) hpart)
    have hconsumed := mul_milliMillis_le_consumed hp (gainMilli c elapsed)
    have htokens : (tokens + gainMilli c elapsed + 1) * milliMillis c ≤ MILLI_TOKEN * milliMillis c :=
      Nat.mul_le_mul_right _ hpart
    rw [if_neg (by omega), Nat.zero_mul]
    unfold fillMillis
    simp only [Nat.succ_mul, Nat.add_mul] at *
    omega
  case fill =>
    intro t0 spent tokens last elapsed htokens h hfull
    rw [if_pos rfl]
    by_cases htoken : tokens = MILLI_TOKEN
    · rw [if_pos htoken] at h
      omega
    · rw [if_neg htoken] at h
      have hlong := lt_of_gain hshort (show 0 < MILLI_TOKEN - tokens by omega)
        (show MILLI_TOKEN - tokens ≤ gainMilli c elapsed by omega)
      have hwhole : (tokens + (MILLI_TOKEN - tokens)) * milliMillis c = MILLI_TOKEN * milliMillis c := by
        rw [Nat.add_sub_cancel' htokens]
      rw [Nat.add_mul] at hwhole
      unfold fillMillis at *
      omega
  case part =>
    intro t0 spent tokens last elapsed h hpart
    have hconsumed := mul_milliMillis_le_consumed hp (gainMilli c elapsed)
    rw [if_neg (by omega)] at h ⊢
    rw [Nat.add_mul]
    omega
  case spend =>
    intro t0 spent tokens last htokens h
    obtain rfl : tokens = 0 := by omega
    rw [Nat.zero_add, if_pos rfl] at h
    rw [if_neg (by decide), Nat.zero_mul, Nat.succ_mul]
    omega
  case bound =>
    intro t0 spent tokens last tn htokens hlast h
    have hinterval : c.intervalMillis ≤ fillMillis c * c.maxRequests := by
      rw [← milliMillis_add_short c]
      unfold fillMillis perIntervalMilli
      calc milliMillis c * (c.maxRequests * MILLI_TOKEN) + shortMillis c
          ≤ milliMillis c * (c.maxRequests * MILLI_TOKEN) + c.maxRequests := Nat.add_le_add_left hle _
        _ = (MILLI_TOKEN * milliMillis c + 1) * c.maxRequests := by ring
    have hspaced : (spent - 1) * fillMillis c ≤ tn - t0 := by
      rw [Nat.sub_mul, Nat.one_mul]
      omega
    rw [hburst]
    refine Nat.sub_le_iff_le_add'.mp ((Nat.le_div_iff_mul_le c.intervalMillis_pos).mpr ?_)
    calc (spent - 1) * c.intervalMillis ≤ (spent - 1) * (fillMillis c * c.maxRequests) := Nat.mul_le_mul_left _ hinterval
      _ = (spent - 1) * fillMillis c * c.maxRequests := (Nat.mul_assoc _ _ _).symm
      _ ≤ (tn - t0) * c.maxRequests := Nat.mul_le_mul_right _ hspaced

theorem gain_single (hrequests : 0 < c.maxRequests) (hburst : c.burst = 1) (hshort : 0 < shortMillis c)
    (hle : shortMillis c ≤ c.maxRequests) (earlier elapsed : Nat) (h : earlier ≤ elapsed)
    (hpart : gainMilli c elapsed < c.capacityMilli) :
    gainMilli c earlier + gainMilli c (elapsed - consumedMillis c (gainMilli c earlier)) ≤ gainMilli c elapsed := by
  have hp : 0 < c.perIntervalMilli := Nat.mul_pos hrequests (by decide)
  have hcap : c.capacityMilli = MILLI_TOKEN := by rw [capacityMilli, hburst, Nat.one_mul]
  rw [hcap] at hpart
  by_contra hmore
  have hmono := gainMilli_mono (c := c) h
  -- one milli-token more would have taken longer than `elapsed`
  have hlong := lt_of_gain hshort (show 0 < gainMilli c elapsed + 1 - gainMilli c earlier by omega)
    (show gainMilli c elapsed + 1 - gainMilli c earlier ≤
      gainMilli c (elapsed - consumedMillis c (gainMilli c earlier)) by omega)
  have hconsumed := mul_milliMillis_le_consumed hp (gainMilli c earlier)
  have hnext := le_of_gain_lt hle hpart
  have hsum : (gainMilli c earlier + (gainMilli c elapsed + 1 - gainMilli c earlier)) * milliMillis c =
      (gainMilli c elapsed + 1) * milliMillis c := by
    rw [Nat.add_sub_cancel' (by omega)]
  rw [Nat.add_mul] at hsum
  omega

end Single

theorem bounds_of_charges (c : RateLimitConfig) (hrequests : 0 < c.maxRequests) (h : Charges c) :
    BoundsSpending c ∧ NeverMints c := by
  have hexact (hdvd : c.intervalMillis ∣ c.perIntervalMilli ∨ c.perIntervalMilli ∣ c.intervalMillis) :
      BoundsSpending c ∧ NeverMints c :=
    ⟨(balanced_ledger (cost_exact hrequests hdvd)).boundsSpending hrequests,
      neverMints_of_gain hrequests fun _ _ hle _ => gain_exact (cost_exact hrequests hdvd) _ _ hle⟩
  rcases h with hdvd | hdvd | hfills | ⟨hburst, hle⟩
  · exact hexact (.inl hdvd)
  · exact hexact (.inr hdvd)
  · exact ⟨(refilled_ledger hfills).boundsSpending hrequests, neverMints_of_gain hrequests (gain_fills hfills)⟩
  · rcases Nat.eq_zero_or_pos (shortMillis c) with hzero | hshort
    · exact hexact (.inr (Nat.dvd_of_mod_eq_zero hzero))
    · exact ⟨(spaced_ledger hrequests hburst hshort hle).boundsSpending hrequests,
        neverMints_of_gain hrequests (gain_single hrequests hburst hshort hle)⟩

end Cuca.Services
