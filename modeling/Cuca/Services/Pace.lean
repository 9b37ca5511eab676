import Cuca.Lib.Settling
import Cuca.Services.Scheduler
import Mathlib.Algebra.Order.Ring.Int

/-!
# The pace of a backend

How long the calls of a backend take: a mean that every finished call moves by an eighth of the gap. The sums are of `i64`s, and nothing is the
result of one that overflows.

* `Pace.record`, `Pace.recordAll` : one call, and one after the other;
* `record_eq` : what a call makes of the mean, as in the scheduler;
* `pace_settles` : the mean stays between, and settles next to calls that take equally long.
-/

namespace Cuca.Services

/-- `i64::try_from(n).unwrap_or(i64::MAX)` -/
def toI64 (n : Nat) : Int := min n i64Max

/-- What fits an `i64`. -/
def checkI64 (n : Int) : Option Int := if -2 ^ 63 ≤ n ∧ n < 2 ^ 63 then some n else none

structure Pace where
  meanMs : Nat
  deriving DecidableEq, Repr

namespace Pace

def new : Pace := ⟨ASSUMED_CALL_MS⟩

def record (p : Pace) (runMs : Nat) : Option Pace := do
  let gap ← checkI64 (toI64 runMs - toI64 p.meanMs)
  let biased ← checkI64 (gap + (1 <<< (PACE_SHIFT - 1) : Nat))
  let step := biased >>> PACE_SHIFT
  let next ← checkI64 (toI64 p.meanMs + step)
  return ⟨max (if next < 0 then 1 else next.toNat) 1⟩

def recordAll (p : Pace) (runs : List Nat) : Option Pace := runs.foldlM record p

theorem paceRecord_eq (mean : Nat) {run : Nat} (h : run < 2 ^ 62) :
    paceRecord mean run = max 1 (toI64 mean + ((run : Int) - toI64 mean + 4) / 8).toNat := by
  have hrun : min run i64Max = run := by
    unfold i64Max
    omega
  have hshift (n : Int) : n >>> PACE_SHIFT = n / 8 := Int.shiftRight_eq_div_pow n 3
  have hbias : (2 : Int) ^ (PACE_SHIFT - 1) = 4 := by decide
  unfold paceRecord
  dsimp only
  rw [hrun, hshift, hbias, max_comm]
  rfl

/-- **A call** moves the mean by an eighth of the gap, and nothing overflows. -/
theorem record_eq (p : Pace) {run : Nat} (h : run < 2 ^ 62) : p.record run = some ⟨paceRecord p.meanMs run⟩ := by
  have hrun : toI64 run = run := by
    unfold toI64 i64Max
    omega
  have hmean : 0 ≤ toI64 p.meanMs ∧ toI64 p.meanMs < 2 ^ 63 := by
    unfold toI64 i64Max
    omega
  have hshift (n : Int) : n >>> PACE_SHIFT = n / 8 := Int.shiftRight_eq_div_pow n 3
  have hcheck {n : Int} (hn : -2 ^ 63 ≤ n ∧ n < 2 ^ 63) : checkI64 n = some n := if_pos hn
  have hbias : ((1 <<< (PACE_SHIFT - 1) : Nat) : Int) = 4 := by decide
  rw [paceRecord_eq p.meanMs h]
  unfold record
  rw [hrun, hbias, hcheck (by omega), Option.bind_eq_bind, Option.bind_some, hcheck (by omega)]
  dsimp only [Option.bind_eq_bind, Option.bind_some]
  rw [hshift, hcheck (by omega), Option.bind_some, if_neg (by omega), max_comm]
  rfl

theorem paceRecord_between (mean : Nat) {run : Nat} (h : run < 2 ^ 62) :
    1 ≤ paceRecord mean run ∧ min mean (max run 1) ≤ paceRecord mean run ∧ paceRecord mean run ≤ max mean (max run 1) := by
  rw [paceRecord_eq mean h]
  unfold toI64 i64Max
  omega

theorem recordAll_snoc (p : Pace) (runs : List Nat) (run : Nat) : p.recordAll (runs ++ [run]) = (p.recordAll runs).bind (record · run) := by
  unfold recordAll
  rw [List.foldlM_append]
  refine congrArg (Option.bind _) (funext fun q => ?_)
  rw [List.foldlM_cons]
  cases q.record run <;> rfl

theorem recordAll_defined (p : Pace) {runs : List Nat} (h : ∀ run ∈ runs, run < 2 ^ 62) : ∃ q, p.recordAll runs = some q := by
  induction runs using List.reverseRecOn with
  | nil => exact ⟨p, rfl⟩
  | append_singleton runs run ih =>
    obtain ⟨q, hq⟩ := ih fun r hr => h r (List.mem_append_left _ hr)
    refine ⟨⟨paceRecord q.meanMs run⟩, ?_⟩
    rw [recordAll_snoc, hq, Option.bind_some, record_eq q (h run (List.mem_append_right _ (List.mem_singleton_self run)))]

/-! ## Calls that take equally long -/

/-- The means after calls that all take `d`. -/
def meanAfter (p : Pace) (d : Nat) : Nat → Nat
  | 0 => p.meanMs
  | n + 1 => paceRecord (meanAfter p d n) d

theorem recordAll_replicate (p : Pace) {d : Nat} (h : d < 2 ^ 62) (n : Nat) : p.recordAll (List.replicate n d) = some ⟨p.meanAfter d n⟩ := by
  induction n with
  | zero => rfl
  | succ n ih => rw [List.replicate_succ', recordAll_snoc, ih, Option.bind_some, record_eq _ h, meanAfter]

def apart (a b : Nat) : Nat := (a - b) + (b - a)

theorem paceRecord_nearer {mean d : Nat} (hd : 1 ≤ d) (hlt : d < 2 ^ 62) :
    (paceRecord mean d ≠ mean → apart (paceRecord mean d) d < apart mean d) ∧ (paceRecord mean d = mean → apart mean d ≤ 4) := by
  rw [paceRecord_eq mean hlt]
  unfold apart toI64 i64Max
  omega

/-- **The mean settles** within 4 ms of calls that all take as long. -/
theorem settled (p : Pace) {d : Nat} (hd : 1 ≤ d) (hlt : d < 2 ^ 62) :
    ∃ n, apart (p.meanAfter d n) d ≤ 4 ∧ ∀ k, n ≤ k → p.meanAfter d k = p.meanAfter d n := by
  obtain ⟨n, hn⟩ := Settling.settles (InvImage.wf (apart · d) Nat.lt_wfRel.wf) (p.meanAfter d)
    (fun k => p.meanAfter d (k + 1) ≠ p.meanAfter d k) (fun k hk => not_not.mp hk) fun k (_ : 0 ≤ k) hmoves => (paceRecord_nearer hd hlt).1 hmoves
  have hstays (k : Nat) (hk : n ≤ k) : p.meanAfter d (k + 1) = p.meanAfter d k := not_not.mp (hn k hk)
  refine ⟨n, (paceRecord_nearer hd hlt).2 (hstays n (Nat.le_refl n)), fun k hk => ?_⟩
  induction k, hk using Nat.le_induction with
  | base => rfl
  | succ k hk ih => rw [hstays k hk, ih]

theorem meanAfter_grows (p : Pace) {d : Nat} (hd : 1 ≤ d) (hlt : d < 2 ^ 62) (h : p.meanMs ≤ d) :
    Monotone (p.meanAfter d) ∧ ∀ n, p.meanAfter d n ≤ d := by
  have hbelow (n : Nat) : p.meanAfter d n ≤ d := by
    induction n with
    | zero => exact h
    | succ n ih =>
      have hbetween := (paceRecord_between (p.meanAfter d n) hlt).2.2
      rw [meanAfter]
      omega
  refine ⟨monotone_nat_of_le_succ fun n => ?_, hbelow⟩
  have hbetween := (paceRecord_between (p.meanAfter d n) hlt).2.1
  have hn := hbelow n
  rw [meanAfter]
  omega

theorem meanAfter_falls (p : Pace) {d : Nat} (hd : 1 ≤ d) (hlt : d < 2 ^ 62) (h : d ≤ p.meanMs) :
    Antitone (p.meanAfter d) ∧ ∀ n, d ≤ p.meanAfter d n := by
  have habove (n : Nat) : d ≤ p.meanAfter d n := by
    induction n with
    | zero => exact h
    | succ n ih =>
      have hbetween := (paceRecord_between (p.meanAfter d n) hlt).2.1
      rw [meanAfter]
      omega
  refine ⟨antitone_nat_of_succ_le fun n => ?_, habove⟩
  have hbetween := (paceRecord_between (p.meanAfter d n) hlt).2.2
  have hn := habove n
  rw [meanAfter]
  omega

/-- **The pace**, from any start: no call overflows, each leaves the mean at least 1 and between what it was and the call, and calls that take
equally long move it towards them, up to 4 ms, where it stays. -/
theorem pace_settles (p : Pace) :
    (∀ runs run, (∀ r ∈ runs ++ [run], r < 2 ^ 62) → ∃ q q', p.recordAll runs = some q ∧ q.record run = some q' ∧ 1 ≤ q'.meanMs ∧
      min q.meanMs (max run 1) ≤ q'.meanMs ∧ q'.meanMs ≤ max q.meanMs (max run 1)) ∧
    ∀ d, 1 ≤ d → d < 2 ^ 62 → ∃ means : Nat → Nat, (∀ n, p.recordAll (List.replicate n d) = some ⟨means n⟩) ∧
      (p.meanMs ≤ d → Monotone means ∧ ∀ n, means n ≤ d) ∧ (d ≤ p.meanMs → Antitone means ∧ ∀ n, d ≤ means n) ∧
      ∃ n, apart (means n) d ≤ 4 ∧ ∀ k, n ≤ k → means k = means n := by
  refine ⟨fun runs run h => ?_, fun d hd hlt => ?_⟩
  · have hrun := h run (List.mem_append_right _ (List.mem_singleton_self run))
    obtain ⟨q, hq⟩ := p.recordAll_defined fun r hr => h r (List.mem_append_left _ hr)
    exact ⟨q, _, hq, record_eq q hrun, paceRecord_between q.meanMs hrun⟩
  · exact ⟨p.meanAfter d, recordAll_replicate p hlt, meanAfter_grows p hd hlt, meanAfter_falls p hd hlt, settled p hd hlt⟩

theorem pace_settles_new : ∃ n mean, Pace.new.recordAll (List.replicate n 800) = some ⟨mean⟩ ∧ apart mean 800 ≤ 4 := by
  obtain ⟨means, hmeans, _, _, n, hnear, _⟩ := (pace_settles Pace.new).2 800 (by decide) (by decide)
  exact ⟨n, means n, hmeans n, hnear⟩

end Pace

end Cuca.Services
