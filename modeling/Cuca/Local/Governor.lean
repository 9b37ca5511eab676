import Cuca.Lib.Simulation
import Cuca.Lib.Transition
import Mathlib.Data.List.MinMax
import Mathlib.Tactic.Linarith

/-!
# The governor of speculation

Whether a round drafts, decided from the throughputs measured so far. Times and throughputs are rationals, and the counts of samples
are naturals.

* `Governor.wantSpec`, `Governor.record` : the two halves of a round, `step` : both;
* `Ledger` : what the drafting rounds so far are paid with;
* `drafted_bounded` : where speculation is slower, few rounds draft;
* `drafted_unbounded` : but a first measurement that is never taken is asked for without end.
-/

namespace Cuca.Local

/-! ## The averages -/

/-- An exponential moving average. -/
structure Ema where
  value : ℚ
  /-- Samples recorded, the first excluded. -/
  n : Nat
  skipped : Bool
  deriving DecidableEq, Repr

namespace Ema

def ALPHA : ℚ := 3 / 10

def default : Ema := ⟨0, 0, false⟩

def record (e : Ema) (value : ℚ) : Ema :=
  if !e.skipped then { e with skipped := true }
  else
    { e with
      value := if e.n = 0 then value else e.value + ALPHA * (value - e.value)
      n := e.n + 1 }

end Ema

/-! ## The rounds -/

structure Governor where
  plain : Ema
  spec : Ema
  /-- Rounds left in a forced probe or refresh, and the mode it forces. -/
  forced : Nat
  forcedSpec : Bool
  /-- Rounds since the last probe or refresh. -/
  since : Nat
  probeEvery : Nat
  deriving DecidableEq, Repr

/-- A measured round: the tokens it advanced and the seconds it took. -/
structure Round where
  tokens : Nat
  secs : ℚ
  tokens_pos : 0 < tokens
  secs_pos : 0 < secs

def Round.tps (r : Round) : ℚ := r.tokens / r.secs

namespace Governor

def MIN_SAMPLES : Nat := 2
def PROBE_EVERY : Nat := 32
def MAX_PROBE_EVERY : Nat := 512
def REFRESH_EVERY : Nat := 64
def MARGIN : ℚ := 102 / 100
def OUTLIER : ℚ := 6

def default : Governor := ⟨.default, .default, 0, false, 0, 0⟩

/-- Whether the next round should draft. -/
def wantSpec (g : Governor) : Bool × Governor :=
  if g.forced > 0 then (g.forcedSpec, { g with forced := g.forced - 1 })
  else if g.plain.n < MIN_SAMPLES + (!g.plain.skipped).toNat then (false, g)
  else if g.spec.n < MIN_SAMPLES then (true, g)
  else
    let interval := max g.probeEvery PROBE_EVERY
    let since := g.since + 1
    if g.spec.value ≥ g.plain.value * MARGIN then
      if since ≥ REFRESH_EVERY then (false, { g with since := 0, forced := 1, forcedSpec := false })
      else (true, { g with since := since, probeEvery := 0 })
    else if since ≥ interval then (true, { g with since := 0, forced := 1, forcedSpec := true })
    else (false, { g with since := since })

def isOutlier (g : Governor) (tps : ℚ) : Bool :=
  g.plain.n ≥ MIN_SAMPLES && tps * OUTLIER < g.plain.value && g.spec.n < MIN_SAMPLES

/-- Records a finished round. -/
def record (g : Governor) (spec : Bool) (tokens : Nat) (secs : ℚ) : Governor :=
  if secs ≤ 0 then g
  else
    let tps := tokens / secs
    let wasProbe : Bool := spec && g.spec.value < g.plain.value * MARGIN
    if spec && g.isOutlier tps then g
    else
      let g := if spec then { g with spec := g.spec.record tps } else { g with plain := g.plain.record tps }
      -- a probe that fails doubles the interval before the next one
      if wasProbe && g.forced = 0 && g.spec.n ≥ MIN_SAMPLES && g.spec.value < g.plain.value * MARGIN then
        { g with probeEvery := min (max g.probeEvery PROBE_EVERY * 2) MAX_PROBE_EVERY }
      else g

/-- Asks, and records what the round measured. -/
def step (g : Governor) (r : Round) : Bool × Governor :=
  let (spec, g) := g.wantSpec
  (spec, g.record spec r.tokens r.secs)

def answered (rounds : List Round) : List (Bool × Round) := (Simulation.run step default rounds).1.zip rounds

def drafted (rounds : List Round) : Nat := (Simulation.run step default rounds).1.count true

def Slower (rounds : List Round) : Prop :=
  ∀ a ∈ answered rounds, ∀ b ∈ answered rounds, a.1 = true → b.1 = false → a.2.tps < b.2.tps

def Kept (g : Governor) (r : Round) : Prop := g.wantSpec.1 = true → g.wantSpec.2.isOutlier r.tps = false

/-! ## The averages of the slower mode -/

end Governor

namespace Ema

theorem record_lt {e : Ema} {bound value : ℚ} (h : 0 < e.n → e.value < bound) (hvalue : value < bound) :
    0 < (e.record value).n → (e.record value).value < bound := by
  unfold record
  split_ifs with hskipped hn
  · exact h
  · exact fun _ => hvalue
  · intro _
    have hold := h (Nat.pos_of_ne_zero hn)
    show e.value + ALPHA * (value - e.value) < bound
    unfold ALPHA
    linarith

theorem le_record {e : Ema} {bound value : ℚ} (h : 0 < e.n → bound ≤ e.value) (hvalue : bound ≤ value) :
    0 < (e.record value).n → bound ≤ (e.record value).value := by
  unfold record
  split_ifs with hskipped hn
  · exact h
  · exact fun _ => hvalue
  · intro _
    have hold := h (Nat.pos_of_ne_zero hn)
    show bound ≤ e.value + ALPHA * (value - e.value)
    unfold ALPHA
    linarith

theorem record_skipped (e : Ema) (value : ℚ) : (e.record value).skipped = true := by
  unfold record
  cases e.skipped <;> rfl

theorem record_n (e : Ema) (value : ℚ) : (e.record value).n + 1 = e.n + e.skipped.toNat + 1 := by
  unfold record
  cases e.skipped <;> rfl

end Ema

namespace Governor

/-! ## What a round can do -/

def Settled (g : Governor) : Prop := MIN_SAMPLES ≤ g.plain.n ∧ g.plain.skipped = true ∧ MIN_SAMPLES ≤ g.spec.n

theorem record_eq (g : Governor) (spec : Bool) (r : Round) (hkept : spec = true → g.isOutlier r.tps = false) :
    ∃ probeEvery, g.record spec r.tokens r.secs =
      if spec then { g with spec := g.spec.record r.tps, probeEvery := probeEvery }
      else { g with plain := g.plain.record r.tps, probeEvery := probeEvery } := by
  have houtlier : (spec && g.isOutlier r.tps) = false := by
    cases spec with
    | true => exact hkept rfl
    | false => rfl
  unfold record
  rw [if_neg (not_le.mpr r.secs_pos)]
  show ∃ probeEvery, (if (spec && g.isOutlier r.tps) = true then _ else _) = _
  rw [houtlier, if_neg Bool.false_ne_true]
  dsimp only
  split_ifs with hspec hprobe
  · exact ⟨_, rfl⟩
  · exact ⟨g.probeEvery, rfl⟩
  · exact ⟨_, rfl⟩
  · exact ⟨g.probeEvery, rfl⟩

theorem wantSpec_averages (g : Governor) : g.wantSpec.2.plain = g.plain ∧ g.wantSpec.2.spec = g.spec := by
  unfold wantSpec
  dsimp only
  split_ifs
  all_goals exact ⟨rfl, rfl⟩

/-! ## Speculation is slower -/

/-- The averages are on their sides of a positive throughput. -/
structure Behind (bound : ℚ) (g : Governor) : Prop where
  bound_pos : 0 < bound
  spec : 0 < g.spec.n → g.spec.value < bound
  plain : 0 < g.plain.n → bound ≤ g.plain.value

def Fits (bound : ℚ) (spec : Bool) (r : Round) : Prop := (spec = true → r.tps < bound) ∧ (spec = false → bound ≤ r.tps)

theorem Behind.slower {bound : ℚ} {g : Governor} (h : Behind bound g) (hsettled : g.Settled) :
    g.spec.value < g.plain.value * MARGIN := by
  have hspec := h.spec (Nat.lt_of_lt_of_le Nat.two_pos hsettled.2.2)
  have hplain := h.plain (Nat.lt_of_lt_of_le Nat.two_pos hsettled.1)
  have hpos := h.bound_pos
  unfold MARGIN
  linarith

theorem Behind.step {bound : ℚ} {g : Governor} {r : Round} (h : Behind bound g) (hkept : g.Kept r)
    (hfits : Fits bound g.wantSpec.1 r) : Behind bound (g.step r).2 := by
  obtain ⟨hplain, hspec⟩ := g.wantSpec_averages
  obtain ⟨probeEvery, hrecord⟩ := record_eq g.wantSpec.2 g.wantSpec.1 r hkept
  show Behind bound (g.wantSpec.2.record g.wantSpec.1 r.tokens r.secs)
  rw [hrecord]
  cases hwant : g.wantSpec.1 with
  | true =>
    rw [if_pos rfl]
    refine ⟨h.bound_pos, Ema.record_lt ?_ (hfits.1 hwant), ?_⟩
    · rw [hspec]
      exact h.spec
    · show 0 < g.wantSpec.2.plain.n → bound ≤ g.wantSpec.2.plain.value
      rw [hplain]
      exact h.plain
  | false =>
    rw [if_neg Bool.false_ne_true]
    refine ⟨h.bound_pos, ?_, Ema.le_record ?_ (hfits.2 hwant)⟩
    · show 0 < g.wantSpec.2.spec.n → g.wantSpec.2.spec.value < bound
      rw [hspec]
      exact h.spec
    · rw [hplain]
      exact h.plain

/-- **What the drafting rounds are paid with**: three measure speculation, and every other two wait for a probe. -/
structure Ledger (g : Governor) (rounds drafted : Nat) : Prop where
  forced : g.forced = 0 ∨ g.forced = 1 ∧ g.forcedSpec = true ∧ g.Settled
  warm : 0 < drafted → MIN_SAMPLES ≤ g.plain.n ∧ g.plain.skipped = true
  early : ¬ g.Settled → g.since = 0 ∧ drafted = g.spec.n + g.spec.skipped.toNat
  first : g.plain.skipped = false → g.plain.n = 0
  paid : 33 * drafted + 2 * g.since + 31 * g.forced ≤ 2 * rounds + 99

theorem Settled.record_spec {g : Governor} (h : g.Settled) (value : ℚ) (forced since probeEvery : Nat) (forcedSpec : Bool) :
    Settled ⟨g.plain, g.spec.record value, forced, forcedSpec, since, probeEvery⟩ := by
  refine ⟨h.1, h.2.1, ?_⟩
  have hn := g.spec.record_n value
  have hspec := h.2.2
  show MIN_SAMPLES ≤ (g.spec.record value).n
  omega

theorem ledger_default : Ledger default 0 0 where
  forced := .inl rfl
  warm h := absurd h (Nat.lt_irrefl 0)
  early _ := ⟨rfl, rfl⟩
  first _ := rfl
  paid := by decide

theorem Ledger.step {g : Governor} {rounds drafted : Nat} (h : Ledger g rounds drafted) {r : Round} (hkept : g.Kept r)
    (hslower : g.Settled → g.spec.value < g.plain.value * MARGIN) :
    Ledger (g.step r).2 (rounds + 1) (drafted + (g.step r).1.toNat) := by
  obtain ⟨probeEvery, hrecord⟩ := record_eq g.wantSpec.2 g.wantSpec.1 r hkept
  have hstep : g.step r = (g.wantSpec.1, g.wantSpec.2.record g.wantSpec.1 r.tokens r.secs) := rfl
  rw [hstep, hrecord]
  have hpaid := h.paid
  have hspecN := g.spec.record_n r.tps
  have hspecSkipped := g.spec.record_skipped r.tps
  rcases h.forced with hforced | ⟨hforced, hmode, hsettled⟩
  · by_cases hplain : g.plain.n < MIN_SAMPLES + (!g.plain.skipped).toNat
    · -- plain decoding is still to be measured
      have hwant : g.wantSpec = (false, g) := by
        rw [wantSpec, if_neg (by omega), if_pos hplain]
      have hnone : drafted = 0 := by
        by_contra hdrafted
        obtain ⟨hn, hskipped⟩ := h.warm (Nat.pos_of_ne_zero hdrafted)
        rw [hskipped] at hplain
        exact absurd hn (Nat.not_le.mpr hplain)
      have hunsettled : ¬ g.Settled := fun hsettled => by
        rw [hsettled.2.1] at hplain
        exact absurd hsettled.1 (Nat.not_le.mpr hplain)
      obtain ⟨hsince, hcount⟩ := h.early hunsettled
      rw [hwant]
      refine ⟨.inl hforced, fun hpos => absurd hpos (by simp [hnone]), fun _ => ⟨hsince, hcount⟩, fun hskipped => ?_, ?_⟩
      · have hrecorded := g.plain.record_skipped r.tps
        exact absurd (hrecorded.symm.trans hskipped) (by decide)
      · show 33 * (drafted + 0) + 2 * g.since + 31 * g.forced ≤ 2 * (rounds + 1) + 99
        omega
    · have hskipped : g.plain.skipped = true := by
        by_contra hskipped
        rw [Bool.not_eq_true] at hskipped
        rw [h.first hskipped, hskipped] at hplain
        exact hplain (by decide)
      have hmeasured : MIN_SAMPLES ≤ g.plain.n := by
        rw [hskipped] at hplain
        exact Nat.not_lt.mp hplain
      by_cases hspec : g.spec.n < MIN_SAMPLES
      · -- speculation is still to be measured
        have hwant : g.wantSpec = (true, g) := by
          rw [wantSpec, if_neg (by omega), if_neg hplain, if_pos hspec]
        obtain ⟨hsince, hcount⟩ := h.early fun hsettled => absurd hsettled.2.2 (Nat.not_le.mpr hspec)
        rw [hwant]
        refine ⟨.inl hforced, fun _ => ⟨hmeasured, hskipped⟩, fun _ => ⟨hsince, ?_⟩, h.first, ?_⟩
        · show drafted + 1 = (g.spec.record r.tps).n + (g.spec.record r.tps).skipped.toNat
          rw [hspecSkipped, Bool.toNat_true]
          omega
        · show 33 * (drafted + 1) + 2 * g.since + 31 * g.forced ≤ 2 * (rounds + 1) + 99
          have hle := Bool.toNat_le g.spec.skipped
          unfold MIN_SAMPLES at hspec
          omega
      · have hsettled : g.Settled := ⟨hmeasured, hskipped, Nat.not_lt.mp hspec⟩
        have hbehind : ¬ g.spec.value ≥ g.plain.value * MARGIN := not_le.mpr (hslower hsettled)
        by_cases hprobe : g.since + 1 ≥ max g.probeEvery PROBE_EVERY
        · -- the first round of a probe
          have hwant : g.wantSpec = (true, { g with since := 0, forced := 1, forcedSpec := true }) := by
            rw [wantSpec, if_neg (by omega), if_neg hplain, if_neg hspec]
            dsimp only
            rw [if_neg hbehind, if_pos hprobe]
          have hinterval : PROBE_EVERY ≤ g.since + 1 := (Nat.le_max_right _ _).trans hprobe
          rw [hwant]
          have hnext := hsettled.record_spec r.tps 1 0 probeEvery true
          refine ⟨.inr ⟨rfl, rfl, hnext⟩, fun _ => ⟨hmeasured, hskipped⟩, fun hnot => absurd hnext hnot, h.first, ?_⟩
          show 33 * (drafted + 1) + 2 * 0 + 31 * 1 ≤ 2 * (rounds + 1) + 99
          unfold PROBE_EVERY at hinterval
          omega
        · have hwant : g.wantSpec = (false, { g with since := g.since + 1 }) := by
            rw [wantSpec, if_neg (by omega), if_neg hplain, if_neg hspec]
            dsimp only
            rw [if_neg hbehind, if_neg hprobe]
          have hn := g.plain.record_n r.tps
          have hnext : MIN_SAMPLES ≤ (g.plain.record r.tps).n := by omega
          rw [hwant]
          refine ⟨.inl hforced, fun _ => ⟨hnext, g.plain.record_skipped r.tps⟩,
            fun hnot => absurd ⟨hnext, g.plain.record_skipped r.tps, hsettled.2.2⟩ hnot, fun hnot => ?_, ?_⟩
          · exact absurd ((g.plain.record_skipped r.tps).symm.trans hnot) (by decide)
          · show 33 * (drafted + 0) + 2 * (g.since + 1) + 31 * g.forced ≤ 2 * (rounds + 1) + 99
            omega
  · -- the second round of a probe
    have hwant : g.wantSpec = (true, { g with forced := g.forced - 1 }) := by
      rw [wantSpec, if_pos (by omega), hmode]
    rw [hwant]
    have hnext := hsettled.record_spec r.tps (g.forced - 1) g.since probeEvery g.forcedSpec
    refine ⟨.inl ?_, fun _ => ⟨hsettled.1, hsettled.2.1⟩, fun hnot => absurd hnext hnot, h.first, ?_⟩
    · show g.forced - 1 = 0
      omega
    · show 33 * (drafted + 1) + 2 * g.since + 31 * (g.forced - 1) ≤ 2 * (rounds + 1) + 99
      omega

/-! ## Runs -/

theorem ledger_run {bound : ℚ} (rounds : List Round) : ∀ {g : Governor} {before drafted : Nat}, Ledger g before drafted → Behind bound g →
    Transition.Along (fun g r => (g.step r).2) Kept g rounds →
    (∀ a ∈ (Simulation.run step g rounds).1.zip rounds, Fits bound a.1 a.2) →
    Ledger (Simulation.run step g rounds).2 (before + rounds.length) (drafted + (Simulation.run step g rounds).1.count true) := by
  induction rounds with
  | nil => exact fun h _ _ _ => h
  | cons r rounds ih =>
    intro g before drafted hledger hbehind hkept hfits
    have hfirst : Fits bound (g.step r).1 r := hfits _ List.mem_cons_self
    have hnext := ih (hledger.step hkept.1 hbehind.slower) (hbehind.step hkept.1 hfirst) hkept.2
      fun a ha => hfits a (List.mem_cons_of_mem _ ha)
    have hcount : (Simulation.run step g (r :: rounds)).1.count true =
        (g.step r).1.toNat + (Simulation.run step (g.step r).2 rounds).1.count true := by
      show ((g.step r).1 :: (Simulation.run step (g.step r).2 rounds).1).count true = _
      rw [List.count_cons, Nat.add_comm]
      cases (g.step r).1 <;> rfl
    rw [hcount, List.length_cons, Nat.add_comm rounds.length, ← Nat.add_assoc, ← Nat.add_assoc]
    exact hnext

theorem exists_between (below above : List ℚ) (hpos : ∀ q ∈ above, 0 < q) (h : ∀ p ∈ below, ∀ q ∈ above, p < q) :
    ∃ bound, 0 < bound ∧ (∀ p ∈ below, p < bound) ∧ ∀ q ∈ above, bound ≤ q := by
  cases hleast : above.argmin id with
  | some least =>
    have hmem : least ∈ above := List.argmin_mem hleast
    exact ⟨least, hpos least hmem, fun p hp => h p hp least hmem, fun q hq => List.le_of_mem_argmin hq hleast⟩
  | none =>
    obtain rfl := List.argmin_eq_none.mp hleast
    cases htop : below.argmax id with
    | some top =>
      refine ⟨max top 0 + 1, by positivity, fun p hp => ?_, by simp⟩
      have hle : p ≤ top := List.le_of_mem_argmax hp htop
      have hmax := le_max_left top 0
      linarith
    | none =>
      obtain rfl := List.argmax_eq_none.mp htop
      exact ⟨1, one_pos, by simp, by simp⟩

/-- **Where speculation is slower, few rounds draft**: three, and of the others two in `PROBE_EVERY + 1`, in a run none of whose
drafting rounds is left out of the estimate. -/
theorem drafted_bounded (rounds : List Round) (hslower : Slower rounds)
    (hkept : Transition.Along (fun g r => (step g r).2) Kept default rounds) :
    (PROBE_EVERY + 1) * drafted rounds ≤ 2 * rounds.length + 3 * (PROBE_EVERY + 1) := by
  obtain ⟨bound, hpos, hbelow, habove⟩ := exists_between
    (((answered rounds).filter fun a => a.1).map fun a => a.2.tps)
    (((answered rounds).filter fun a => !a.1).map fun a => a.2.tps)
    (fun q hq => by
      obtain ⟨a, -, rfl⟩ := List.mem_map.mp hq
      exact div_pos (by exact_mod_cast a.2.tokens_pos) a.2.secs_pos)
    (fun p hp q hq => by
      obtain ⟨a, ha, rfl⟩ := List.mem_map.mp hp
      obtain ⟨b, hb, rfl⟩ := List.mem_map.mp hq
      obtain ⟨ha, hspec⟩ := List.mem_filter.mp ha
      obtain ⟨hb, hplain⟩ := List.mem_filter.mp hb
      exact hslower a ha b hb hspec (by simpa using hplain))
  have hfits : ∀ a ∈ answered rounds, Fits bound a.1 a.2 := by
    refine fun a ha => ⟨fun hspec => hbelow _ (List.mem_map_of_mem (List.mem_filter.mpr ⟨ha, hspec⟩)), fun hplain => ?_⟩
    exact habove _ (List.mem_map_of_mem (List.mem_filter.mpr ⟨ha, by simp [hplain]⟩))
  have hbehind : Behind bound default := ⟨hpos, fun h => absurd h (Nat.lt_irrefl 0), fun h => absurd h (Nat.lt_irrefl 0)⟩
  have hledger := (ledger_run rounds ledger_default hbehind hkept hfits).paid
  rw [Nat.zero_add, Nat.zero_add] at hledger
  unfold drafted PROBE_EVERY
  omega

def plainRound : Round := ⟨1, 1, Nat.one_pos, one_pos⟩

def halfRound : Round := ⟨1, 2, Nat.one_pos, by norm_num⟩

def measured : List Round := [plainRound, plainRound, plainRound, halfRound, halfRound, halfRound, plainRound]

theorem drafted_bounded_measured : drafted measured = 3 ∧
    (PROBE_EVERY + 1) * drafted measured ≤ 2 * measured.length + 3 * (PROBE_EVERY + 1) := by
  have hkept : Transition.Along (fun g r => (step g r).2) Kept default measured := by
    simp only [measured, Transition.Along, Kept]
    decide +kernel
  exact ⟨by decide +kernel, drafted_bounded measured (by unfold Slower; decide +kernel) hkept⟩

/-! ## A measurement that is never taken -/

def slowRound : Round := ⟨1, 7, Nat.one_pos, by norm_num⟩

def warmed : Governor := ⟨⟨1, 2, true⟩, .default, 0, false, 0, 0⟩

def hopeless (n : Nat) : List Round := List.replicate 3 plainRound ++ List.replicate n slowRound

theorem warmed_step : warmed.step slowRound = (true, warmed) := by decide +kernel

theorem run_hopeless (n : Nat) :
    (Simulation.run step default (hopeless n)).1 = List.replicate 3 false ++ List.replicate n true := by
  have hslow : (Simulation.run step warmed (List.replicate n slowRound)).1 = List.replicate n true := by
    induction n with
    | zero => rfl
    | succ n ih =>
      rw [List.replicate_succ, List.replicate_succ, ← ih]
      show (warmed.step slowRound).1 :: (Simulation.run step (warmed.step slowRound).2 _).1 = _
      rw [warmed_step]
  have hwarm : (step (step (step default plainRound).2 plainRound).2 plainRound).2 = warmed := by decide +kernel
  have hplain : (step default plainRound).1 = false ∧ (step (step default plainRound).2 plainRound).1 = false ∧
      (step (step (step default plainRound).2 plainRound).2 plainRound).1 = false := by decide +kernel
  obtain ⟨hfirst, hsecond, hthird⟩ := hplain
  show (step default plainRound).1 :: (step (step default plainRound).2 plainRound).1 ::
    (step (step (step default plainRound).2 plainRound).2 plainRound).1 ::
    (Simulation.run step (step (step (step default plainRound).2 plainRound).2 plainRound).2 (List.replicate n slowRound)).1 = _
  rw [hfirst, hsecond, hthird, hwarm, hslow]
  rfl

theorem drafted_hopeless (n : Nat) : drafted (hopeless n) = n := by
  rw [drafted, run_hopeless, List.count_append, List.count_replicate_self, List.count_replicate, if_neg (by decide), Nat.zero_add]

theorem slower_hopeless (n : Nat) : Slower (hopeless n) := by
  have hanswered : answered (hopeless n) = List.replicate 3 (false, plainRound) ++ List.replicate n (true, slowRound) := by
    rw [answered, run_hopeless, hopeless, List.zip_append (by rw [List.length_replicate, List.length_replicate]),
      List.zip_replicate', List.zip_replicate']
  intro a ha b hb hspec hplain
  rw [hanswered] at ha hb
  have hslow : a.2 = slowRound := by
    rcases List.mem_append.mp ha with h | h
    · rw [List.eq_of_mem_replicate h] at hspec
      cases hspec
    · rw [List.eq_of_mem_replicate h]
  have hfast : b.2 = plainRound := by
    rcases List.mem_append.mp hb with h | h
    · rw [List.eq_of_mem_replicate h]
    · rw [List.eq_of_mem_replicate h] at hplain
      cases hplain
  rw [hslow, hfast]
  decide +kernel

/-- **Seven times slower**, speculation is never measured, and every round drafts: no share of the rounds bounds the drafting ones. -/
theorem drafted_unbounded : ¬ ∃ fixed part whole : Nat, part < whole ∧
    ∀ rounds, Slower rounds → whole * drafted rounds ≤ part * rounds.length + fixed := by
  rintro ⟨fixed, part, whole, hlt, hbound⟩
  have h := hbound (hopeless (3 * part + fixed + 1)) (slower_hopeless _)
  rw [drafted_hopeless, hopeless, List.length_append, List.length_replicate, List.length_replicate] at h
  have hle : (part + 1) * (3 * part + fixed + 1) ≤ whole * (3 * part + fixed + 1) := Nat.mul_le_mul_right _ hlt
  have hexpand : (part + 1) * (3 * part + fixed + 1) = part * (3 * part + fixed + 1) + (3 * part + fixed + 1) := Nat.succ_mul _ _
  have hright : part * (3 + (3 * part + fixed + 1)) = part * 3 + part * (3 * part + fixed + 1) := Nat.mul_add _ _ _
  omega

end Governor
end Cuca.Local
