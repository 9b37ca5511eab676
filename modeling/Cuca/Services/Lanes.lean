import Cuca.Services.Queue
import Mathlib.Data.List.Perm.Subperm

/-!
# Lanes and buckets

A dispatch as the run of its starts. While fewer calls run than the level admits one of its buckets is free, wherever they sit, so a
dispatch stops only where it has to.

* `LaneStart` : what a start must be: the first of those its lane admits, in a bucket of its lane;
* `Exhausted` : no eligible call can be placed;
* `Dispatches`, `dispatch_dispatches` : every dispatch is a run of such starts, up to the level or until nothing can be placed.
-/

namespace Cuca.Services.Queue

variable {level reservedFrom now : Nat} {eligible : Waiter → Bool} {q : Queue}

/-- A start by the rules of the lanes. -/
structure LaneStart (q : Queue) (level reservedFrom : Nat) (eligible : Waiter → Bool) (index bucket : Nat) (waiter : Waiter) : Prop
    extends Placed q level reservedFrom eligible index bucket waiter where
  /-- A reserved call starts in bucket 0. -/
  reserved : reservedFrom ≤ level → waiter.callMeta.lane = .reserved → bucket = 0
  /-- A shared call takes bucket 0 only when no eligible reserved call waits. -/
  shared : reservedFrom ≤ level → waiter.callMeta.lane = .shared → bucket = 0 →
    ∀ w ∈ q.waiting, eligible w = true → w.callMeta.lane ≠ .reserved

/-- Nothing can be placed: no eligible call waits, or, where the lanes are split, only reserved ones while bucket 0 is busy. -/
structure Exhausted (q : Queue) (level reservedFrom : Nat) (eligible : Waiter → Bool) : Prop where
  below : level < reservedFrom → ∀ w ∈ q.waiting, eligible w = false
  shared : reservedFrom ≤ level → ∀ w ∈ q.waiting, eligible w = true → w.callMeta.lane = .reserved
  reserved : reservedFrom ≤ level → ∀ w ∈ q.waiting, eligible w = true → ∃ runner ∈ q.running, runner.bucket = 0

/-! ## Buckets -/

/-- **There is a free bucket** for each call that the level still admits. -/
theorem exists_bucketFree (hroom : q.running.length < level) : ∃ bucket < level, q.bucketFree bucket = true := by
  by_contra hnone
  -- otherwise all `level` buckets are among those of the running calls
  have hsubset : List.range level ⊆ q.running.map Runner.bucket := by
    intro bucket hbucket
    by_contra hfree
    refine hnone ⟨bucket, List.mem_range.mp hbucket, bucketFree_iff.mpr fun runner hrunner heq => hfree ?_⟩
    exact List.mem_map.mpr ⟨runner, hrunner, heq⟩
  have hle := (List.subperm_of_subset List.nodup_range hsubset).length_le
  rw [List.length_range, List.length_map] at hle
  omega

theorem not_bucketFree {bucket : Nat} (h : q.bucketFree bucket = false) : ∃ runner ∈ q.running, runner.bucket = bucket := by
  simpa [bucketFree] using h

theorem find_none {buckets : List Nat} (h : buckets.find? q.bucketFree = none) {bucket : Nat} (hmem : bucket ∈ buckets) :
    q.bucketFree bucket = false := by
  simpa using List.find?_eq_none.mp h bucket hmem

/-! ## Placements -/

theorem nextPlacement_lane {index bucket : Nat} (hlevel : 0 < level)
    (h : q.nextPlacement level reservedFrom eligible = some (index, bucket)) : ∃ waiter, q.LaneStart level reservedFrom eligible index bucket waiter := by
  obtain ⟨waiter, hplaced⟩ := nextPlacement_some hlevel h
  refine ⟨waiter, hplaced, fun hsplit hlane => ?_, fun hsplit hlane hzero => ?_⟩
  all_goals
    unfold nextPlacement at h
    rw [if_neg (Nat.not_lt.mpr hsplit)] at h
    dsimp only at h
    split at h
  · exact (Prod.mk.inj (Option.some.inj h)).2.symm
  · -- the other choice is among the calls that are not reserved
    split at h
    · exact nomatch h
    · rename_i index' hshared
      obtain ⟨waiter', hbest⟩ := best_some hshared
      split at h
      · exact nomatch h
      · obtain rfl := (Prod.mk.inj (Option.some.inj h)).1
        obtain rfl : waiter = waiter' := Option.some.inj (hplaced.at_index.symm.trans hbest.at_index)
        exact absurd hlane (by simpa using (Bool.and_eq_true_iff.mp hbest.eligible_self).1)
  · -- the first choice is among the reserved calls
    rename_i index' hreserved
    obtain ⟨rfl, -⟩ := Prod.mk.inj (Option.some.inj h)
    split at hreserved
    · obtain ⟨waiter', hbest⟩ := best_some hreserved
      obtain rfl : waiter = waiter' := Option.some.inj (hplaced.at_index.symm.trans hbest.at_index)
      have hlane' : waiter.callMeta.lane = .reserved := by simpa using (Bool.and_eq_true_iff.mp hbest.eligible_self).1
      exact absurd (hlane.symm.trans hlane') (by decide)
    · exact nomatch hreserved
  · -- bucket 0 is free, so that no eligible reserved call waits
    rename_i hreserved
    have hfree : q.bucketFree 0 = true := bucketFree_iff.mpr (hzero ▸ hplaced.bucket_free)
    rw [if_pos hfree] at hreserved
    intro w hw hel hres
    have hnot := best_none.mp hreserved w hw
    simp [hres, hel] at hnot

theorem nextPlacement_none (hroom : q.running.length < level)
    (h : q.nextPlacement level reservedFrom eligible = none) : q.Exhausted level reservedFrom eligible := by
  obtain ⟨free, hfree, hbucket⟩ := exists_bucketFree hroom
  unfold nextPlacement at h
  split at h
  · rename_i hbelow
    split at h
    · rename_i hfind
      exact absurd hbucket (by simp [find_none hfind (List.mem_range.mpr hfree)])
    · have hnone := best_none.mp (Option.map_eq_none_iff.mp h)
      exact ⟨fun _ => hnone, fun hsplit => absurd hbelow (by omega), fun hsplit => absurd hbelow (by omega)⟩
  · rename_i hsplit
    dsimp only at h
    split at h
    · exact nomatch h
    · rename_i hreserved
      have hshared : ∀ w ∈ q.waiting, eligible w = true → w.callMeta.lane = .reserved := by
        split at h
        · rename_i hnone
          intro w hw hel
          have hnot := best_none.mp hnone w hw
          simpa [hel] using hnot
        · split at h
          · rename_i hfind
            -- the free bucket is one of those that were tried
            obtain ⟨hothers, hzero⟩ := Option.or_eq_none_iff.mp hfind
            have hbusy : q.bucketFree 0 = false := by
              cases hbusy : q.bucketFree 0 with
              | false => rfl
              | true =>
                rw [hbusy, if_pos rfl] at hzero
                exact nomatch hzero
            have hpos : free ≠ 0 := by
              rintro rfl
              exact absurd hbucket (by simp [hbusy])
            have hmem : free ∈ List.range' 1 (level - 1) := List.mem_range'_1.mpr ⟨by omega, by omega⟩
            exact absurd hbucket (by simp [find_none hothers hmem])
          · exact nomatch h
      refine ⟨fun hbelow => absurd hbelow hsplit, fun _ => hshared, fun _ w hw hel => ?_⟩
      apply not_bucketFree
      cases hzero : q.bucketFree 0 with
      | false => rfl
      | true =>
        rw [hzero, if_pos rfl] at hreserved
        have hnot := best_none.mp hreserved w hw
        simp [hshared w hw hel, hel] at hnot

/-! ## Dispatches -/

/-- A dispatch: starts by the rules of the lanes, while the level has room, until nothing can be placed. -/
inductive Dispatches (level reservedFrom now : Nat) (eligible : Waiter → Bool) : Queue → List Nat → Queue → Prop where
  | stop {q : Queue} (h : level ≤ q.running.length ∨ q.Exhausted level reservedFrom eligible) : Dispatches level reservedFrom now eligible q [] q
  | start {q q' : Queue} {index bucket : Nat} {waiter : Waiter} {started : List Nat} (hroom : q.running.length < level)
    (hlane : q.LaneStart level reservedFrom eligible index bucket waiter)
    (rest : Dispatches level reservedFrom now eligible (q.start waiter index bucket level now) started q') :
    Dispatches level reservedFrom now eligible q (waiter.id :: started) q'

theorem dispatchLoop_dispatches (fuel : Nat) (started : List Nat) (hfuel : q.waiting.length ≤ fuel) :
    ∃ more, (dispatchLoop level reservedFrom now eligible fuel q started).2 = started ++ more ∧
      Dispatches level reservedFrom now eligible q more (dispatchLoop level reservedFrom now eligible fuel q started).1 := by
  induction fuel generalizing q started with
  | zero =>
    have hempty : q.waiting = [] := List.eq_nil_of_length_eq_zero (Nat.le_zero.mp hfuel)
    have hno (w : Waiter) (hw : w ∈ q.waiting) : False := by
      rw [hempty] at hw
      exact nomatch hw
    refine ⟨[], (List.append_nil _).symm, .stop (.inr ⟨?_, ?_, ?_⟩)⟩
    · exact fun _ w hw => (hno w hw).elim
    · exact fun _ w hw => (hno w hw).elim
    · exact fun _ w hw => (hno w hw).elim
  | succ fuel ih =>
    unfold dispatchLoop
    split
    · rename_i hroom
      cases hnext : q.nextPlacement level reservedFrom eligible with
      | none => exact ⟨[], (List.append_nil _).symm, .stop (.inr (nextPlacement_none hroom hnext))⟩
      | some placement =>
        obtain ⟨index, bucket⟩ := placement
        obtain ⟨waiter, hlane⟩ := nextPlacement_lane (Nat.zero_lt_of_lt hroom) hnext
        have hlt := (List.getElem?_eq_some_iff.mp hlane.at_index).1
        have hfuel' : (q.start waiter index bucket level now).waiting.length ≤ fuel := by
          unfold Queue.start
          dsimp only
          rw [List.length_eraseIdx_of_lt hlt]
          omega
        obtain ⟨more, hmore, hrest⟩ := ih (started ++ [waiter.id]) hfuel'
        dsimp only
        rw [hlane.at_index]
        dsimp only
        refine ⟨waiter.id :: more, ?_, .start hroom hlane hrest⟩
        rw [hmore, List.append_assoc]
        rfl
    · rename_i hfull
      exact ⟨[], (List.append_nil _).symm, .stop (.inl (Nat.le_of_not_lt hfull))⟩

/-- **A dispatch is work-conserving and respects the lanes.** -/
theorem dispatch_dispatches (q : Queue) (level reservedFrom now : Nat) (eligible : Waiter → Bool) :
    Dispatches level reservedFrom now eligible q (q.dispatch level reservedFrom now eligible).2
      (q.dispatch level reservedFrom now eligible).1 := by
  obtain ⟨more, hmore, hall⟩ := dispatchLoop_dispatches q.waiting.length [] (Nat.le_refl _)
  unfold dispatch
  rw [hmore]
  exact hall

end Cuca.Services.Queue
