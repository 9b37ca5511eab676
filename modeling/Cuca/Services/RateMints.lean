import Cuca.Services.RateBound

/-!
# Where a token bucket lets too much through

Every rate that does not charge for its gains has a run that spends more than its bound: readings at one frozen
millisecond that each gain and cost nothing, or readings spaced so that each gains a milli-token early.

* `takes`, `drips` : the accesses such runs are made of;
* `rate_bound_iff` : the bound holds exactly where the rate charges.
-/

namespace Cuca.Services
open Transition RateLimitConfig BucketState

/-! ## Runs of one access -/

theorem Drawn.step_take (c : RateLimitConfig) (d : Drawn) (now : Nat) :
    d.step c ⟨.takeToken, now⟩ =
      if MILLI_TOKEN ≤ (d.bucket.refill c now).tokensMilli then
        ⟨{ d.bucket.refill c now with tokensMilli := (d.bucket.refill c now).tokensMilli - MILLI_TOKEN }, d.spent + 1⟩
      else ⟨d.bucket.refill c now, d.spent⟩ := by
  by_cases h : MILLI_TOKEN ≤ (d.bucket.refill c now).tokensMilli
  · simp only [Drawn.step, BucketState.takeToken, ge_iff_le, if_pos h]
  · simp only [Drawn.step, BucketState.takeToken, ge_iff_le, if_neg h]

/-- `times` tokens asked for at one reading. -/
def takes (times now : Nat) : List Access := List.replicate times ⟨.takeToken, now⟩

theorem run_takes (c : RateLimitConfig) (rest now : Nat) : ∀ (times spent : Nat), rest + times ≤ c.burst →
    run (Drawn.step c) ⟨⟨(rest + times) * MILLI_TOKEN, now⟩, spent⟩ (takes times now) =
      ⟨⟨rest * MILLI_TOKEN, now⟩, spent + times⟩ := by
  intro times
  induction times with
  | zero => intro spent _; rfl
  | succ times ih =>
    intro spent hle
    have hcap : (rest + (times + 1)) * MILLI_TOKEN ≤ c.capacityMilli := Nat.mul_le_mul_right _ hle
    have hstill := refill_still (b := ⟨(rest + (times + 1)) * MILLI_TOKEN, now⟩) hcap
    have hstep : Drawn.step c ⟨⟨(rest + (times + 1)) * MILLI_TOKEN, now⟩, spent⟩ ⟨.takeToken, now⟩ =
        ⟨⟨(rest + times) * MILLI_TOKEN, now⟩, spent + 1⟩ := by
      rw [Drawn.step_take]
      show ite (_ ≤ (BucketState.refill c ⟨_, now⟩ now).tokensMilli) _ _ = _
      rw [hstill, ← Nat.add_assoc, Nat.succ_mul, if_pos (Nat.le_add_left _ _), Nat.add_sub_cancel]
    show run (Drawn.step c) _ (⟨.takeToken, now⟩ :: takes times now) = _
    rw [run_cons, hstep, ih (spent + 1) (by omega), Nat.add_assoc, Nat.add_comm 1]

section Overspent
variable {c : RateLimitConfig}

theorem BoundsSpending.share (h : BoundsSpending c) (hburst : 0 < c.burst) {more : List Access} {tn : Nat}
    (hrising : Rising 0 more tn) :
    (run (Drawn.step c) ⟨⟨0, 0⟩, c.burst⟩ more).spent ≤ c.burst + tn * c.maxRequests / c.intervalMillis := by
  obtain ⟨burst, hsucc⟩ : ∃ burst, c.burst = burst + 1 := Nat.exists_eq_succ_of_ne_zero hburst.ne'
  have hwindow := h 0 [] ⟨.takeToken, 0⟩ (takes burst 0 ++ more) tn
    ((hrising.replicate .takeToken burst).cons (Nat.le_refl 0))
  have hburst := run_takes c 0 0 c.burst 0 (by omega)
  simp only [Nat.zero_add, Nat.zero_mul] at hburst
  have hall : spentFrom c (bucketAfter c 0 []) (⟨.takeToken, 0⟩ :: (takes burst 0 ++ more)) =
      (run (Drawn.step c) ⟨⟨0, 0⟩, c.burst⟩ more).spent := by
    have htakes : takes c.burst 0 = ⟨.takeToken, 0⟩ :: takes burst 0 := by
      rw [hsucc]
      rfl
    rw [← hburst, ← run_append, htakes]
    rfl
  rwa [hall] at hwindow

/-! ## Frozen readings -/

theorem run_usages (hgain : 0 < gainMilli c 1) (hfree : consumedMillis c (gainMilli c 1) = 0)
    (hcap : 0 < c.capacityMilli) (spent times : Nat) :
    (run (Drawn.step c) ⟨⟨0, 0⟩, spent⟩ (List.replicate times ⟨.usage, 1⟩)).spent = spent ∧
      ((run (Drawn.step c) ⟨⟨0, 0⟩, spent⟩ (List.replicate times ⟨.usage, 1⟩)).bucket = ⟨c.capacityMilli, 1⟩ ∨
        ∃ tokens, (run (Drawn.step c) ⟨⟨0, 0⟩, spent⟩ (List.replicate times ⟨.usage, 1⟩)).bucket = ⟨tokens, 0⟩ ∧
          times ≤ tokens ∧ tokens < c.capacityMilli) := by
  induction times with
  | zero => exact ⟨rfl, .inr ⟨0, rfl, Nat.le_refl 0, hcap⟩⟩
  | succ times ih =>
    rw [List.replicate_succ', run_concat]
    obtain ⟨hspent, hbucket⟩ := ih
    refine ⟨hspent, ?_⟩
    show BucketState.refill c _ 1 = _ ∨ ∃ tokens, BucketState.refill c _ 1 = _ ∧ _
    rcases hbucket with hfull | ⟨tokens, hpart, hle, hlt⟩
    · rw [hfull]
      exact .inl (refill_still (Nat.le_refl _))
    · rw [hpart]
      rcases Nat.lt_or_ge (gainMilli c 1) (c.capacityMilli - tokens) with hroom | hfill
      · refine .inr ⟨tokens + gainMilli c 1, ?_, by omega, by omega⟩
        rw [refill_part hroom]
        show BucketState.mk _ (0 + consumedMillis c (gainMilli c 1)) = _
        rw [hfree]
        rfl
      · exact .inl (refill_full hfill)

theorem frozen_overspends (h : BoundsSpending c) (hburst : 0 < c.burst) (hlt : c.intervalMillis < c.perIntervalMilli)
    (hdvd : ¬ c.intervalMillis ∣ c.perIntervalMilli) : c.burst * c.intervalMillis ≤ c.maxRequests := by
  have hcap : 0 < c.capacityMilli := Nat.mul_pos hburst (by decide)
  have hgain : 0 < gainMilli c 1 := by
    rw [Nat.pos_iff_ne_zero, ← Nat.one_le_iff_ne_zero, le_gainMilli]
    omega
  have hfree : consumedMillis c (gainMilli c 1) = 0 := by
    refine Nat.div_eq_of_lt (lt_of_le_of_ne ?_ fun heq => hdvd ?_)
    · have := @gainMilli_mul_le c 1
      omega
    · exact ⟨_, heq.symm.trans (Nat.mul_comm _ _)⟩
  have hrising : Rising 0 (List.replicate c.capacityMilli ⟨.usage, 1⟩ ++ (takes c.burst 1 ++ [])) 1 := by
    have hlast : Rising 1 [] 1 := List.pairwise_pair.mpr (Nat.le_refl 1)
    exact ((hlast.replicate .takeToken c.burst).replicate .usage c.capacityMilli).earlier (Nat.zero_le 1)
  have hshare := h.share hburst hrising
  -- the bucket is full again at 1, and a second burst goes through
  obtain ⟨hspent, hbucket⟩ := run_usages hgain hfree hcap c.burst c.capacityMilli
  have hfull : run (Drawn.step c) ⟨⟨0, 0⟩, c.burst⟩ (List.replicate c.capacityMilli ⟨.usage, 1⟩) =
      ⟨⟨(0 + c.burst) * MILLI_TOKEN, 1⟩, c.burst⟩ := by
    rcases hbucket with hfull | ⟨tokens, -, hle, hlt⟩
    · rw [Nat.zero_add]
      exact congr_arg₂ Drawn.mk hfull hspent
    · omega
  rw [List.append_nil, run_append, hfull, run_takes c 0 1 c.burst c.burst (by omega), Nat.one_mul] at hshare
  exact (Nat.le_div_iff_mul_le c.intervalMillis_pos).mp (Nat.le_of_add_le_add_left hshare)

/-! ## Early readings -/

def drips (c : RateLimitConfig) (times : Nat) : List Access :=
  (List.range times).map fun j => ⟨.takeToken, (j + 1) * milliMillis c + 1⟩

theorem drips_succ (c : RateLimitConfig) (times : Nat) :
    drips c (times + 1) = drips c times ++ [⟨.takeToken, (times + 1) * milliMillis c + 1⟩] := by
  unfold drips
  rw [List.range_succ, List.map_append]
  rfl

theorem rising_drips (c : RateLimitConfig) (times : Nat) :
    Rising 0 (drips c times) (times * milliMillis c + 1) := by
  have hlater (j k : Nat) (h : j ≤ k) : j * milliMillis c + 1 ≤ k * milliMillis c + 1 :=
    Nat.succ_le_succ (Nat.mul_le_mul_right _ h)
  refine List.pairwise_cons.mpr ⟨fun _ _ => Nat.zero_le _, List.pairwise_append.mpr ⟨?_, List.pairwise_singleton _ _, ?_⟩⟩
  · unfold drips
    rw [List.map_map, List.pairwise_map]
    exact List.pairwise_lt_range.imp fun hlt => hlater _ _ (by omega)
  · intro reading hreading finish hfinish
    rw [List.mem_singleton.mp hfinish]
    unfold drips at hreading
    rw [List.map_map] at hreading
    obtain ⟨j, hj, rfl⟩ := List.mem_map.mp hreading
    exact hlater _ _ (List.mem_range.mp hj)

theorem drip_gain (hshort : 0 < shortMillis c) (hp : 0 < c.perIntervalMilli)
    (hle : c.perIntervalMilli ≤ c.intervalMillis) : gainMilli c (milliMillis c + 1) = 1 := by
  have hsum := milliMillis_add_short c
  have hmod : shortMillis c < c.perIntervalMilli := Nat.mod_lt _ hp
  unfold gainMilli
  rw [Nat.succ_mul]
  refine Nat.div_eq_of_lt_le ?_ ?_
  · omega
  · omega

theorem drip_elapsed (c : RateLimitConfig) (j : Nat) :
    (j + 1) * milliMillis c + 1 - j * milliMillis c = milliMillis c + 1 := by
  rw [Nat.succ_mul]
  omega

theorem drip_refill (hshort : 0 < shortMillis c) (hp : 0 < c.perIntervalMilli)
    (hle : c.perIntervalMilli ≤ c.intervalMillis) {tokens : Nat} (j : Nat) (hroom : tokens + 1 < c.capacityMilli) :
    BucketState.refill c ⟨tokens, j * milliMillis c⟩ ((j + 1) * milliMillis c + 1) =
      ⟨tokens + 1, (j + 1) * milliMillis c⟩ := by
  have hgain : gainMilli c ((j + 1) * milliMillis c + 1 - j * milliMillis c) = 1 := by
    rw [drip_elapsed, drip_gain hshort hp hle]
  rw [refill_part]
  · show BucketState.mk (tokens + gainMilli c (_ - j * milliMillis c))
      (j * milliMillis c + consumedMillis c (gainMilli c (_ - j * milliMillis c))) = _
    rw [hgain, Nat.succ_mul]
    unfold consumedMillis milliMillis
    rw [Nat.one_mul]
  · show gainMilli c (_ - j * milliMillis c) < c.capacityMilli - tokens
    omega

theorem run_drips (hshort : 0 < shortMillis c) (hp : 0 < c.perIntervalMilli)
    (hle : c.perIntervalMilli ≤ c.intervalMillis) (spent : Nat) : ∀ times,
    (MILLI_TOKEN < c.capacityMilli ∨ MILLI_TOKEN = c.capacityMilli ∧ times < MILLI_TOKEN) →
    run (Drawn.step c) ⟨⟨0, 0⟩, spent⟩ (drips c times) =
      ⟨⟨times % MILLI_TOKEN, times * milliMillis c⟩, spent + times / MILLI_TOKEN⟩ := by
  intro times
  induction times with
  | zero =>
    intro _
    rw [Nat.zero_mod, Nat.zero_mul, Nat.zero_div]
    rfl
  | succ times ih =>
    intro hcap
    rw [drips_succ, run_concat, ih (by omega), Drawn.step_take]
    have hroom : times % MILLI_TOKEN + 1 < c.capacityMilli := by
      unfold MILLI_TOKEN at *
      omega
    show ite (_ ≤ (BucketState.refill c ⟨_, _⟩ _).tokensMilli) _ _ = _
    rw [drip_refill hshort hp hle times hroom]
    unfold MILLI_TOKEN
    by_cases htoken : 1000 ≤ times % 1000 + 1
    · rw [if_pos htoken, show times % 1000 + 1 - 1000 = (times + 1) % 1000 by omega,
        show spent + times / 1000 + 1 = spent + (times + 1) / 1000 by omega]
    · rw [if_neg htoken, show times % 1000 + 1 = (times + 1) % 1000 by omega,
        show times / 1000 = (times + 1) / 1000 by omega]

theorem BoundsSpending.short_le (h : BoundsSpending c) (hburst : 0 < c.burst) {tokens : Nat}
    (hgiven : c.burst + tokens ≤ (run (Drawn.step c) ⟨⟨0, 0⟩, c.burst⟩ (drips c (tokens * MILLI_TOKEN))).spent) :
    tokens * shortMillis c ≤ c.maxRequests := by
  have hshare := hgiven.trans (h.share hburst (rising_drips c (tokens * MILLI_TOKEN)))
  have hbound := (Nat.le_div_iff_mul_le c.intervalMillis_pos).mp (Nat.le_of_add_le_add_left hshare)
  have hwhole : (tokens * MILLI_TOKEN * milliMillis c + 1) * c.maxRequests =
      tokens * (milliMillis c * c.perIntervalMilli) + c.maxRequests := by
    unfold perIntervalMilli
    ring
  rw [hwhole, ← milliMillis_add_short c, Nat.mul_add] at hbound
  omega

end Overspent

theorem charges_of_bounds (c : RateLimitConfig) (hrequests : 0 < c.maxRequests) (hburst : 0 < c.burst)
    (h : BoundsSpending c) : Charges c := by
  have hp : 0 < c.perIntervalMilli := Nat.mul_pos hrequests (by decide)
  unfold Charges
  by_cases hdvd : c.intervalMillis ∣ c.perIntervalMilli
  · exact .inl hdvd
  rcases Nat.lt_or_ge c.intervalMillis c.perIntervalMilli with hlt | hle
  · exact .inr (.inr (.inl (frozen_overspends h hburst hlt hdvd)))
  rcases Nat.eq_zero_or_pos (shortMillis c) with hzero | hshort
  · exact .inr (.inl (Nat.dvd_of_mod_eq_zero hzero))
  rcases Nat.lt_or_ge 1 c.burst with hmany | hone
  · -- with room for two tokens the drips go on: one token too many is reached
    have hcap : MILLI_TOKEN < c.capacityMilli := by
      unfold capacityMilli MILLI_TOKEN
      omega
    have hgiven : c.burst + (c.maxRequests + 1) ≤
        (run (Drawn.step c) ⟨⟨0, 0⟩, c.burst⟩ (drips c ((c.maxRequests + 1) * MILLI_TOKEN))).spent := by
      rw [run_drips hshort hp hle c.burst _ (.inl hcap), Nat.mul_div_cancel _ (by decide)]
    have hover := h.short_le hburst hgiven
    have := Nat.le_mul_of_pos_right (c.maxRequests + 1) hshort
    omega
  · -- with room for one token the thousandth drip fills the bucket
    have hburst' : c.burst = 1 := by omega
    have hcap : c.capacityMilli = MILLI_TOKEN := by rw [capacityMilli, hburst', Nat.one_mul]
    have hgiven : c.burst + 1 ≤ (run (Drawn.step c) ⟨⟨0, 0⟩, c.burst⟩ (drips c (1 * MILLI_TOKEN))).spent := by
      rw [show 1 * MILLI_TOKEN = 999 + 1 from rfl, drips_succ, run_concat,
        run_drips hshort hp hle c.burst 999 (.inr ⟨hcap.symm, by decide⟩), Drawn.step_take]
      have hrefill : BucketState.refill c ⟨999 % MILLI_TOKEN, 999 * milliMillis c⟩ ((999 + 1) * milliMillis c + 1) =
          ⟨c.capacityMilli, (999 + 1) * milliMillis c + 1⟩ := by
        refine refill_full ?_
        show c.capacityMilli - 999 % MILLI_TOKEN ≤ gainMilli c (_ - 999 * milliMillis c)
        rw [drip_elapsed, drip_gain hshort hp hle, hcap]
        decide
      show _ ≤ (ite (_ ≤ (BucketState.refill c ⟨_, _⟩ _).tokensMilli) _ _ : Drawn).spent
      rw [hrefill, if_pos (Nat.le_of_eq hcap.symm)]
      exact Nat.le_refl _
    have hover := h.short_le hburst hgiven
    rw [Nat.one_mul] at hover
    exact .inr (.inr (.inr ⟨hburst', hover⟩))

/-- **The bound of a token bucket** holds exactly where its rate charges for what it grants. -/
theorem rate_bound_iff (config : ValidRate) :
    BoundsSpending config.1 ∧ NeverMints config.1 ↔ Charges config.1 := by
  obtain ⟨hrequests, hburst⟩ := validate_ok config.2
  constructor
  · intro h
    exact charges_of_bounds config.1 hrequests hburst h.1
  · exact bounds_of_charges config.1 hrequests

def twoInThree : ValidRate := ⟨⟨2, 3000000, 1, 1, 1, 3000000, none⟩, by decide⟩

/-- A read at the reading of the next request mints its token: two are spent in a millisecond that allows one. -/
theorem frozen_reading_mints :
    spentFrom twoInThree.1 (bucketAfter twoInThree.1 0 []) [⟨.takeToken, 0⟩, ⟨.usage, 1⟩, ⟨.takeToken, 1⟩] = 2 ∧
      twoInThree.1.burst + (1 - 0) * twoInThree.1.maxRequests / twoInThree.1.intervalMillis = 1 ∧
      ¬ BoundsSpending twoInThree.1 := by
  have hspent : spentFrom twoInThree.1 (bucketAfter twoInThree.1 0 [])
      [⟨.takeToken, 0⟩, ⟨.usage, 1⟩, ⟨.takeToken, 1⟩] = 2 := by decide
  have hbound : twoInThree.1.burst + (1 - 0) * twoInThree.1.maxRequests / twoInThree.1.intervalMillis = 1 := by decide
  refine ⟨hspent, hbound, fun h => ?_⟩
  have hrising : Rising 0 [⟨.takeToken, 0⟩, ⟨.usage, 1⟩, ⟨.takeToken, 1⟩] 1 := by
    unfold Rising
    decide
  have := h 0 [] ⟨.takeToken, 0⟩ [⟨.usage, 1⟩, ⟨.takeToken, 1⟩] 1 hrising
  rw [hspent] at this
  exact absurd (this.trans_eq hbound) (by decide)

end Cuca.Services
