import Cuca.Lib.Selection
import Cuca.Services.Tuner
import Mathlib.Data.List.Nodup
import Mathlib.Data.List.Perm.Basic

/-!
# The waiting and running calls of one backend

* `Queue.best` : the waiter with the biggest value, the earliest among equals;
* `Queue.nextPlacement` : the next waiter to start and its bucket, with the reserved lane's bucket 0;
* `Queue.dispatch` : starts as many waiters as the level allows;
* `Queue.complete` : ends a running call and ages every waiter by one.
-/

namespace Cuca.Services
open Selection

/-! ## Calls -/

/-- How soon a call should go. -/
inductive Priority where
  | low
  | medium
  | high
  | urgent
deriving DecidableEq, Repr

def Priority.initialValue : Priority → Nat
  | low => 1
  | medium => 10
  | high => 100
  | urgent => 10000

/-- Which lane a call queues in. -/
inductive Lane where
  | shared
  | reserved
deriving DecidableEq, Repr

/-- Who a model call is for, as the scheduler queues it. -/
structure CallMeta where
  kind : String
  priority : Priority
  lane : Lane
  subject : String
  reference : Option String
  reruns : Nat
  task : Option Nat
  /-- Which members of the pool it may run on: bit `i` is the `i`-th. -/
  allowed : UInt64
deriving DecidableEq, Repr

def CallMeta.new (kind : String) (priority : Priority) (subject : String) : CallMeta where
  kind := kind
  priority := priority
  lane := .shared
  subject := subject
  reference := none
  reruns := 0
  task := none
  allowed := UInt64.ofNat u64Max

def CallMeta.effectivePriority (m : CallMeta) : Priority := if m.reruns > 0 then .urgent else m.priority

def CallMeta.initialValue (m : CallMeta) : Nat := m.effectivePriority.initialValue

theorem CallMeta.initialValue_bounds (m : CallMeta) : 1 ≤ m.initialValue ∧ m.initialValue ≤ 10000 := by
  unfold initialValue
  cases m.effectivePriority <;> decide

structure Waiter where
  id : Nat
  callMeta : CallMeta
  value : Nat
  arrived : Nat
deriving DecidableEq, Repr

structure Runner where
  id : Nat
  callMeta : CallMeta
  value : Nat
  waited : Nat
  started : Nat
  bucket : Nat
  level : Nat
deriving DecidableEq, Repr

def Waiter.aged (w : Waiter) : Waiter := { w with value := w.value + 1 }

def Waiter.order (a b : Waiter) : Ordering := (compare a.value b.value).then (compare b.id a.id)

theorem Waiter.order_isLE {a b : Waiter} :
    (a.order b).isLE = true ↔ a.value < b.value ∨ a.value = b.value ∧ b.id ≤ a.id := by
  rw [order, Ordering.isLE_then_iff_or, Nat.compare_eq_lt, Nat.compare_eq_eq, Nat.isLE_compare]

theorem Waiter.order_swap (a b : Waiter) : a.order b = (b.order a).swap := by
  rw [order, order, Ordering.swap_then, Nat.compare_swap, Nat.compare_swap]

theorem Waiter.order_trans {a b c : Waiter} (hab : (a.order b).isLE = true) (hbc : (b.order c).isLE = true) :
    (a.order c).isLE = true := by
  rw [order_isLE] at *
  omega

def indexedOrder (a b : Waiter × Nat) : Ordering := a.1.order b.1

instance : Std.TransCmp indexedOrder where
  eq_swap := Waiter.order_swap _ _
  isLE_trans := Waiter.order_trans

/-! ## The queue -/

structure Queue where
  waiting : List Waiter
  running : List Runner
deriving DecidableEq, Repr

namespace Queue

def empty : Queue := ⟨[], []⟩

/-- `id` is the next value of the process-wide counter. -/
def push (q : Queue) (id : Nat) (callMeta : CallMeta) (now : Nat) : Queue :=
  { q with waiting := q.waiting ++ [⟨id, callMeta, callMeta.initialValue, now⟩] }

def isWaiting (q : Queue) (id : Nat) : Bool := q.waiting.any fun waiter => waiter.id == id

def best (q : Queue) (eligible : Waiter → Bool) : Option Nat :=
  (maxBy indexedOrder (q.waiting.zipIdx.filter fun (waiter, _) => eligible waiter)).map Prod.snd

def bucketFree (q : Queue) (bucket : Nat) : Bool := !q.running.any fun runner => runner.bucket == bucket

/-- The next waiter to start and the bucket it starts in. -/
def nextPlacement (q : Queue) (level reservedFrom : Nat) (eligible : Waiter → Bool) : Option (Nat × Nat) :=
  if level < reservedFrom then
    match (List.range level).find? q.bucketFree with
    | none => none
    | some bucket => (q.best eligible).map fun index => (index, bucket)
  else
    let reservedFree := q.bucketFree 0
    match if reservedFree then q.best fun waiter => waiter.callMeta.lane = .reserved && eligible waiter else none with
    | some index => some (index, 0)
    | none =>
      match q.best fun waiter => waiter.callMeta.lane ≠ .reserved && eligible waiter with
      | none => none
      | some index =>
        match ((List.range' 1 (level - 1)).find? q.bucketFree).or (if reservedFree then some 0 else none) with
        | none => none
        | some bucket => some (index, bucket)

/-- Moves the waiter at `index` to `bucket`. -/
def start (q : Queue) (waiter : Waiter) (index bucket level now : Nat) : Queue where
  waiting := q.waiting.eraseIdx index
  running := q.running ++ [{ id := waiter.id, waited := now - waiter.arrived, callMeta := waiter.callMeta,
                             value := waiter.value, started := now, bucket := bucket, level := level }]

/-- The loop of `dispatch`; a waiter leaves the queue on each turn, so `fuel` is the number of waiters. -/
def dispatchLoop (level reservedFrom now : Nat) (eligible : Waiter → Bool) :
    Nat → Queue → List Nat → Queue × List Nat
  | 0, q, started => (q, started)
  | fuel + 1, q, started =>
    if q.running.length < level then
      match q.nextPlacement level reservedFrom eligible with
      | none => (q, started)
      | some (index, bucket) =>
        match q.waiting[index]? with
        | none => (q, started)
        | some waiter =>
          dispatchLoop level reservedFrom now eligible fuel (q.start waiter index bucket level now)
            (started ++ [waiter.id])
    else (q, started)

/-- Starts as many waiters as `level` allows; answers their ids. -/
def dispatch (q : Queue) (level reservedFrom now : Nat) (eligible : Waiter → Bool) : Queue × List Nat :=
  dispatchLoop level reservedFrom now eligible q.waiting.length q []

/-- Ends a running call and ages every waiter by one. -/
def complete (q : Queue) (id : Nat) : Option (Runner × Queue) :=
  match q.running.findIdx? fun runner => runner.id == id with
  | none => none
  | some position =>
    match q.running[position]? with
    | none => none
    | some runner =>
      some (runner, { waiting := q.waiting.map Waiter.aged, running := q.running.eraseIdx position })

def withdraw (q : Queue) (id : Nat) : Bool × Queue :=
  let waiting := q.waiting.filter fun waiter => waiter.id != id
  (waiting.length != q.waiting.length, { q with waiting := waiting })

def isRunning (q : Queue) (id : Nat) : Bool := q.running.any fun runner => runner.id == id

def runningLevel (q : Queue) (id : Nat) : Option Nat :=
  (q.running.find? fun runner => runner.id == id).map Runner.level

/-! ## What the choice is -/

/-- The waiter at `index` is eligible, and no eligible waiter is before it. -/
structure Best (q : Queue) (eligible : Waiter → Bool) (index : Nat) (waiter : Waiter) : Prop where
  at_index : q.waiting[index]? = some waiter
  eligible_self : eligible waiter = true
  first : ∀ w ∈ q.waiting, eligible w = true → (w.order waiter).isLE = true

theorem best_some {q : Queue} {eligible : Waiter → Bool} {index : Nat} (h : q.best eligible = some index) :
    ∃ waiter, q.Best eligible index waiter := by
  rw [best, Option.map_eq_some_iff] at h
  obtain ⟨⟨waiter, index'⟩, hmax, rfl⟩ := h
  have hmem := List.mem_filter.mp (maxBy_mem hmax)
  refine ⟨waiter, List.mem_zipIdx_iff_getElem?.mp hmem.1, hmem.2, fun w hw hel => ?_⟩
  obtain ⟨i, hi⟩ := List.mem_iff_getElem?.mp hw
  have hin : (w, i) ∈ q.waiting.zipIdx.filter fun (waiter, _) => eligible waiter :=
    List.mem_filter.mpr ⟨List.mem_zipIdx_iff_getElem?.mpr hi, hel⟩
  have hle : (indexedOrder (w, i) (waiter, index')).isLE = true := maxBy_ge hmax hin
  exact hle

theorem best_none {q : Queue} {eligible : Waiter → Bool} :
    q.best eligible = none ↔ ∀ w ∈ q.waiting, eligible w = false := by
  rw [best, Option.map_eq_none_iff, maxBy_eq_none_iff, List.filter_eq_nil_iff]
  constructor
  · intro h w hw
    obtain ⟨i, hi⟩ := List.mem_iff_getElem?.mp hw
    simpa using h (w, i) (List.mem_zipIdx_iff_getElem?.mpr hi)
  · rintro h ⟨w, i⟩ hw
    simpa using h w (List.mem_of_getElem? (List.mem_zipIdx_iff_getElem?.mp hw))

theorem bucketFree_iff {q : Queue} {bucket : Nat} :
    q.bucketFree bucket = true ↔ ∀ runner ∈ q.running, runner.bucket ≠ bucket := by
  simp [bucketFree]

/-- Which waiters a placement chooses among: those of the chosen waiter's lane, or all of them where the lanes are not
split. -/
structure Placed (q : Queue) (level reservedFrom : Nat) (eligible : Waiter → Bool) (index bucket : Nat)
    (waiter : Waiter) : Prop where
  at_index : q.waiting[index]? = some waiter
  eligible_self : eligible waiter = true
  first : ∀ w ∈ q.waiting, eligible w = true → (level < reservedFrom ∨ w.callMeta.lane = waiter.callMeta.lane) →
    (w.order waiter).isLE = true
  bucket_lt : bucket < level
  bucket_free : ∀ runner ∈ q.running, runner.bucket ≠ bucket

theorem nextPlacement_some {q : Queue} {level reservedFrom : Nat} {eligible : Waiter → Bool} {index bucket : Nat}
    (hlevel : 0 < level) (h : q.nextPlacement level reservedFrom eligible = some (index, bucket)) :
    ∃ waiter, q.Placed level reservedFrom eligible index bucket waiter := by
  unfold nextPlacement at h
  split_ifs at h with hlanes
  · cases hfind : (List.range level).find? q.bucketFree with
    | none => simp [hfind] at h
    | some free =>
      rw [hfind] at h
      simp only [Option.map_eq_some_iff, Prod.mk.injEq] at h
      obtain ⟨index', hbest, rfl, rfl⟩ := h
      obtain ⟨waiter, hw⟩ := best_some hbest
      exact ⟨waiter, hw.at_index, hw.eligible_self, fun w hw' hel _ => hw.first w hw' hel,
        List.mem_range.mp (List.mem_of_find?_eq_some hfind), bucketFree_iff.mp (List.find?_some hfind)⟩
  · simp only at h
    split at h
    · rename_i index' hreserved
      simp only [Option.some.injEq, Prod.mk.injEq] at h
      obtain ⟨rfl, rfl⟩ := h
      split_ifs at hreserved with hfree
      obtain ⟨waiter, hw⟩ := best_some hreserved
      have hlane : waiter.callMeta.lane = .reserved ∧ eligible waiter = true := by simpa using hw.eligible_self
      refine ⟨waiter, hw.at_index, hlane.2, fun w hw' hel hor => ?_, hlevel, bucketFree_iff.mp hfree⟩
      have hsame := (hor.resolve_left hlanes).trans hlane.1
      exact hw.first w hw' (by simp [hsame, hel])
    · cases hshared : q.best fun waiter => waiter.callMeta.lane ≠ .reserved && eligible waiter with
      | none =>
        rw [hshared] at h
        cases h
      | some index' =>
        rw [hshared] at h
        simp only at h
        cases hfind : ((List.range' 1 (level - 1)).find? q.bucketFree).or
            (if q.bucketFree 0 = true then some 0 else none) with
        | none =>
          rw [hfind] at h
          cases h
        | some free =>
          simp only [hfind, Option.some.injEq, Prod.mk.injEq] at h
          obtain ⟨rfl, rfl⟩ := h
          obtain ⟨waiter, hw⟩ := best_some hshared
          have hlane : waiter.callMeta.lane ≠ .reserved ∧ eligible waiter = true := by
            simpa using hw.eligible_self
          have hbucket : free < level ∧ q.bucketFree free = true := by
            rcases Option.or_eq_some_iff.mp hfind with hin | ⟨-, hzero⟩
            · have hmem := List.mem_range'_1.mp (List.mem_of_find?_eq_some hin)
              exact ⟨by omega, List.find?_some hin⟩
            · split_ifs at hzero with hfree
              obtain rfl := Option.some.inj hzero
              exact ⟨hlevel, hfree⟩
          refine ⟨waiter, hw.at_index, hlane.2, fun w hw' hel hor => ?_, hbucket.1, bucketFree_iff.mp hbucket.2⟩
          have hsame := (hor.resolve_left hlanes).trans_ne hlane.1
          exact hw.first w hw' (by simp [hsame, hel])

/-! ## What a completion and a start do -/

theorem perm_eraseIdx {α : Type} {xs : List α} {x : α} {index : Nat} (h : xs[index]? = some x) :
    xs.Perm (x :: xs.eraseIdx index) := by
  obtain ⟨hlt, rfl⟩ := List.getElem?_eq_some_iff.mp h
  exact (List.getElem_cons_eraseIdx_perm hlt).symm

theorem complete_some {q q' : Queue} {id : Nat} {runner : Runner} (h : q.complete id = some (runner, q')) :
    runner.id = id ∧ q'.waiting = q.waiting.map Waiter.aged ∧ q.running.Perm (runner :: q'.running) := by
  unfold complete at h
  cases hfind : q.running.findIdx? fun runner => runner.id == id with
  | none => simp [hfind] at h
  | some position =>
    cases hat : q.running[position]? with
    | none => simp [hfind, hat] at h
    | some found =>
      simp only [hfind, hat, Option.some.injEq, Prod.mk.injEq] at h
      obtain ⟨rfl, rfl⟩ := h
      refine ⟨?_, rfl, perm_eraseIdx hat⟩
      obtain ⟨hlt, hid, -⟩ := List.findIdx?_eq_some_iff_getElem.mp hfind
      rw [List.getElem?_eq_getElem hlt, Option.some.injEq] at hat
      simpa [hat] using hid

theorem complete_none {q : Queue} {id : Nat} : q.complete id = none ↔ ∀ runner ∈ q.running, runner.id ≠ id := by
  unfold complete
  constructor
  · intro h runner hrunner hid
    cases hfind : q.running.findIdx? fun runner => runner.id == id with
    | none => simpa [hid] using List.findIdx?_eq_none_iff.mp hfind runner hrunner
    | some position =>
      obtain ⟨hlt, -⟩ := List.findIdx?_eq_some_iff_getElem.mp hfind
      simp [hfind, List.getElem?_eq_getElem hlt] at h
  · intro h
    rw [List.findIdx?_eq_none_iff.mpr fun runner hrunner => by simpa using h runner hrunner]

theorem start_perm {q : Queue} {waiter : Waiter} {index : Nat} (h : q.waiting[index]? = some waiter)
    (bucket level now : Nat) : q.waiting.Perm (waiter :: (q.start waiter index bucket level now).waiting) :=
  perm_eraseIdx h

/-! ## What a dispatch does -/

section Rule
variable {level reservedFrom now : Nat} {eligible : Waiter → Bool} {I : Queue → List Nat → Prop}

theorem dispatchLoop_induction (hstart : ∀ q started index bucket waiter, I q started → q.running.length < level →
      q.Placed level reservedFrom eligible index bucket waiter →
      I (q.start waiter index bucket level now) (started ++ [waiter.id])) (fuel : Nat) :
    ∀ q started, I q started → I (dispatchLoop level reservedFrom now eligible fuel q started).1
      (dispatchLoop level reservedFrom now eligible fuel q started).2 := by
  induction fuel with
  | zero => exact fun q started h => h
  | succ fuel ih =>
    intro q started h
    unfold dispatchLoop
    split_ifs with hroom
    · cases hnext : q.nextPlacement level reservedFrom eligible with
      | none => exact h
      | some placement =>
        obtain ⟨index, bucket⟩ := placement
        obtain ⟨waiter, hplaced⟩ := nextPlacement_some (by omega) hnext
        simp only [hplaced.at_index]
        exact ih _ _ (hstart q started index bucket waiter h hroom hplaced)
    · exact h

/-- **The dispatch rule**: what every start keeps, a whole dispatch keeps. -/
theorem dispatch_induction {q : Queue} (hq : I q [])
    (hstart : ∀ q started index bucket waiter, I q started → q.running.length < level →
      q.Placed level reservedFrom eligible index bucket waiter →
      I (q.start waiter index bucket level now) (started ++ [waiter.id])) :
    I (q.dispatch level reservedFrom now eligible).1 (q.dispatch level reservedFrom now eligible).2 :=
  dispatchLoop_induction hstart _ q [] hq

theorem dispatchLoop_sublist (fuel : Nat) (q : Queue) (started : List Nat) :
    (dispatchLoop level reservedFrom now eligible fuel q started).1.waiting.Sublist q.waiting :=
  dispatchLoop_induction (I := fun q' _ => q'.waiting.Sublist q.waiting)
    (fun _ _ _ _ _ h _ _ => (List.eraseIdx_sublist _ _).trans h) fuel q started (List.Sublist.refl _)

end Rule

theorem dispatch_waiting_sublist (q : Queue) (level reservedFrom now : Nat) (eligible : Waiter → Bool) :
    (q.dispatch level reservedFrom now eligible).1.waiting.Sublist q.waiting :=
  dispatchLoop_sublist ..

def startsOne (q : Queue) (level reservedFrom : Nat) (eligible : Waiter → Bool) : Bool :=
  q.running.length < level && (q.nextPlacement level reservedFrom eligible).isSome

theorem dispatch_stuck {q : Queue} {level reservedFrom : Nat} {eligible : Waiter → Bool}
    (h : q.startsOne level reservedFrom eligible = false) (now : Nat) :
    q.dispatch level reservedFrom now eligible = (q, []) := by
  unfold dispatch
  cases q.waiting.length with
  | zero => rfl
  | succ fuel =>
    unfold dispatchLoop
    split_ifs with hroom
    · have hnone : q.nextPlacement level reservedFrom eligible = none := by
        simpa [startsOne, hroom] using h
      rw [hnone]
    · rfl

theorem dispatch_starts {q : Queue} {level reservedFrom : Nat} {eligible : Waiter → Bool}
    (h : q.startsOne level reservedFrom eligible = true) (now : Nat) :
    (q.dispatch level reservedFrom now eligible).1.waiting.length < q.waiting.length := by
  rw [startsOne, Bool.and_eq_true, decide_eq_true_eq, Option.isSome_iff_exists] at h
  obtain ⟨hroom, ⟨index, bucket⟩, hnext⟩ := h
  obtain ⟨waiter, hplaced⟩ := nextPlacement_some (by omega) hnext
  have hlt : index < q.waiting.length := (List.getElem?_eq_some_iff.mp hplaced.at_index).1
  obtain ⟨fuel, hfuel⟩ := Nat.exists_eq_succ_of_ne_zero (show q.waiting.length ≠ 0 by omega)
  rw [dispatch, hfuel, dispatchLoop, if_pos hroom, hnext]
  simp only [hplaced.at_index]
  have herase := List.length_eraseIdx_of_lt hlt
  refine (dispatchLoop_sublist ..).length_le.trans_lt ?_
  change (q.waiting.eraseIdx index).length < fuel + 1
  omega

theorem startsOne_idle {waiter : Waiter} {level reservedFrom : Nat} {eligible : Waiter → Bool} (hlevel : 1 ≤ level)
    (hel : eligible waiter = true) : startsOne ⟨[waiter], []⟩ level reservedFrom eligible = true := by
  have hfree : ∀ bucket, bucketFree ⟨[waiter], []⟩ bucket = true := fun bucket => by simp [bucketFree]
  have hsome : ∀ el : Waiter → Bool, el waiter = true → (best ⟨[waiter], []⟩ el).isSome = true := by
    intro el hw
    rw [Option.isSome_iff_ne_none]
    intro hnone
    have := best_none.mp hnone waiter List.mem_cons_self
    rw [hw] at this
    cases this
  rw [startsOne, Bool.and_eq_true, decide_eq_true_eq]
  refine ⟨hlevel, ?_⟩
  unfold nextPlacement
  split_ifs with hlanes
  · have hzero : (List.range level).find? (bucketFree ⟨[waiter], []⟩) = some 0 := by
      obtain ⟨n, rfl⟩ := Nat.exists_eq_add_of_le' hlevel
      simp [List.range_succ_eq_map, hfree]
    rw [hzero, Option.isSome_map]
    exact hsome eligible hel
  · cases hlane : waiter.callMeta.lane with
    | reserved =>
      obtain ⟨index, hindex⟩ := Option.isSome_iff_exists.mp
        (hsome (fun w => w.callMeta.lane = .reserved && eligible w) (by simp [hlane, hel]))
      simp only [hfree, if_true, hindex, Option.isSome_some]
    | shared =>
      have hnone : best ⟨[waiter], []⟩ (fun w => w.callMeta.lane = .reserved && eligible w) = none := by
        simp [best_none, hlane]
      obtain ⟨index, hindex⟩ := Option.isSome_iff_exists.mp
        (hsome (fun w => w.callMeta.lane ≠ .reserved && eligible w) (by simp [hlane, hel]))
      simp only [hfree 0, if_true, hnone, hindex]
      cases (List.range' 1 (level - 1)).find? (bucketFree ⟨[waiter], []⟩) <;> rfl

/-- **A dispatch respects the order**: an eligible waiter starts before any waiter after it that competes with it. -/
theorem dispatch_order {q : Queue} {level reservedFrom now : Nat} {eligible : Waiter → Bool}
    (hnodup : (q.waiting.map Waiter.id).Nodup) {a b : Waiter} (ha : a ∈ q.waiting) (hb : b ∈ q.waiting)
    (hel : eligible a = true) (hlane : level < reservedFrom ∨ a.callMeta.lane = b.callMeta.lane)
    (hbefore : a.order b = .gt) : ∀ before after,
      (q.dispatch level reservedFrom now eligible).2 = before ++ b.id :: after → a.id ∈ before := by
  -- along the loop: what still waits was waiting, `a` waits or has started, and `b` has not started before `a`
  refine (dispatch_induction (I := fun q' started => (q'.waiting ⊆ q.waiting) ∧
    (a ∈ q'.waiting ∨ a.id ∈ started) ∧ ∀ before after, started = before ++ b.id :: after → a.id ∈ before)
    ⟨List.Subset.refl _, .inl ha, by simp⟩ ?_).2.2
  rintro q' started index bucket waiter ⟨hsub, hwhere, horder⟩ - hplaced
  have hperm := start_perm hplaced.at_index bucket level now
  have hwaiter : waiter ∈ q.waiting := hsub (List.mem_of_getElem? hplaced.at_index)
  refine ⟨fun w hw => hsub (hperm.mem_iff.mpr (List.mem_cons_of_mem _ hw)), ?_, ?_⟩
  · rcases hwhere with hin | hin
    · rcases List.mem_cons.mp (hperm.mem_iff.mp hin) with rfl | hleft
      · exact .inr (by simp)
      · exact .inl hleft
    · exact .inr (List.mem_append_left _ hin)
  · intro before after hsplit
    rcases List.eq_nil_or_concat after with rfl | ⟨after, last, rfl⟩
    · -- `b` is the waiter that starts now, so `a` cannot be waiting any more
      obtain ⟨rfl, hid⟩ : started = before ∧ [waiter.id] = [b.id] := List.append_inj' hsplit rfl
      refine hwhere.resolve_left fun hin => ?_
      obtain rfl : waiter = b := List.inj_on_of_nodup_map hnodup hwaiter hb (by simpa using hid)
      have hle := hplaced.first a hin hel hlane
      rw [hbefore] at hle
      cases hle
    · rw [List.concat_eq_append, ← List.cons_append, ← List.append_assoc] at hsplit
      exact horder before after (List.append_inj' hsplit rfl).1

end Queue
end Cuca.Services
