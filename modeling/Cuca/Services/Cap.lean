import Cuca.Services.Rebalance

/-!
# The cap on the calls waiting at one backend

`Scheduler.enqueue` refuses at `maxWaiting`; `moveWaiting` does not look at it.

* `Scheduler.waitsWithin` : at most `maxWaiting` calls wait here;
* `Pool.FindsRoom` : what a move needs to stay within the cap of its target, read off the state before it;
* `cap_iff_room` : a run stays within every cap exactly when each of its moves finds room.
-/

namespace Cuca.Services
open Transition

namespace Scheduler
variable {F : Type}

def waitsWithin (s : Scheduler F) : Prop := s.state.queue.waiting.length ≤ s.config.val.maxWaiting

instance (s : Scheduler F) : Decidable s.waitsWithin :=
  inferInstanceAs (Decidable (s.state.queue.waiting.length ≤ s.config.val.maxWaiting))

/-- An operation that keeps the configuration and does not add a waiting call. -/
structure NoLonger (s s' : Scheduler F) : Prop where
  config_eq : s'.config = s.config
  waiting_le : s'.state.queue.waiting.length ≤ s.state.queue.waiting.length

theorem NoLonger.waitsWithin {s s' : Scheduler F} (h : NoLonger s s') (hs : s.waitsWithin) : s'.waitsWithin := by
  unfold Scheduler.waitsWithin at hs ⊢
  rw [h.config_eq]
  exact h.waiting_le.trans hs

theorem NoLonger.refl (s : Scheduler F) : NoLonger s s := ⟨rfl, Nat.le_refl _⟩

theorem abandon_noLonger (s : Scheduler F) (id : Nat) : NoLonger s (s.abandon id).2 := by
  unfold abandon
  cases hw : s.state.queue.withdraw id with
  | mk taken queue =>
    cases taken with
    | true =>
      have hqueue : queue = (s.state.queue.withdraw id).2 := by rw [hw]
      exact ⟨rfl, by rw [hqueue]; exact List.length_filter_le _ _⟩
    | false => exact .refl s

variable [Meter F]

theorem step_waiting_le (s : Scheduler F) (state : State F) (now : Nat) (gate : Gate) :
    (s.step state now gate).queue.waiting.length ≤ state.queue.waiting.length :=
  (Queue.dispatch_waiting_sublist ..).length_le

theorem noLonger_step {s : Scheduler F} {state : State F}
    (h : state.queue.waiting.length ≤ s.state.queue.waiting.length) (now : Nat) (gate : Gate) :
    NoLonger s { s with state := s.step state now gate } :=
  ⟨rfl, (step_waiting_le s state now gate).trans h⟩

theorem place_noLonger (s : Scheduler F) (id now : Nat) (gate : Gate) : NoLonger s (s.place id now gate).2 := by
  unfold place
  split
  · exact .refl s
  · split_ifs
    · exact .refl s
    · exact ⟨rfl, List.length_filter_le _ _⟩
    · exact noLonger_step (Nat.le_refl _) now gate

theorem finish_noLonger (s : Scheduler F) (id : Nat) (report : CallReport) (now : Nat) (gate : Gate) :
    NoLonger s (s.finish id report now gate) := by
  unfold finish
  cases hc : s.state.queue.complete id with
  | none => exact .refl s
  | some result =>
    obtain ⟨runner, queue⟩ := result
    obtain ⟨-, hwaiting, -⟩ := Queue.complete_some hc
    exact noLonger_step (by simp [hwaiting]) now gate

theorem clearReservedHold_noLonger (s : Scheduler F) (now : Nat) (gate : Gate) :
    NoLonger s (s.clearReservedHold now gate) := by
  unfold clearReservedHold
  split
  · exact .refl s
  · refine noLonger_step ?_ now gate
    exact Nat.le_refl _

theorem enqueue_waitsWithin {s s' : Scheduler F} {callMeta : CallMeta} {id now : Nat} {gate : Gate}
    (h : s.enqueue callMeta id now gate = .ok s') : s'.waitsWithin := by
  have hroom := (enqueue_spec h).1
  unfold enqueue at h
  split_ifs at h
  obtain rfl := Except.ok.inj h
  have hlength : (s.state.queue.push id callMeta now).waiting.length = s.state.queue.waiting.length + 1 := by
    simp [Queue.push]
  refine (step_waiting_le ..).trans ?_
  change (s.state.queue.push id callMeta now).waiting.length ≤ s.config.val.maxWaiting
  omega

/-! ## A call that joins -/

/-- Whether the dispatch rules start a call here once `waiter` has joined. -/
def startsWith (s : Scheduler F) (waiter : Waiter) (now : Nat) (gate : Gate) : Bool :=
  let queue := s.joined waiter
  let level := (s.state.tuner.poll now (queue.waiting.length + queue.running.length) gate.paused).level
  queue.startsOne level s.config.val.reservedLaneFromLevel
    (eligible gate (s.state.reservedHoldUntil.any fun deadline => now < deadline))

theorem join_starts {s : Scheduler F} {waiter : Waiter} {now : Nat} {gate : Gate}
    (h : s.startsWith waiter now gate = true) :
    (s.join waiter now gate).state.queue.waiting.length ≤ s.state.queue.waiting.length := by
  have hlt : (s.join waiter now gate).state.queue.waiting.length < (s.joined waiter).waiting.length :=
    Queue.dispatch_starts h now
  have hlength : (s.joined waiter).waiting.length = s.state.queue.waiting.length + 1 := by simp [joined]
  omega

theorem join_stuck {s : Scheduler F} {waiter : Waiter} {now : Nat} {gate : Gate}
    (h : s.startsWith waiter now gate = false) : (s.join waiter now gate).state.queue = s.joined waiter :=
  congrArg Prod.fst (Queue.dispatch_stuck h now)

/-- **Room**: a place in the queue, or a start that makes one. -/
theorem join_waitsWithin_iff {s : Scheduler F} (hs : s.waitsWithin) (waiter : Waiter) (now : Nat) (gate : Gate) :
    (s.join waiter now gate).waitsWithin ↔
      s.state.queue.waiting.length < s.config.val.maxWaiting ∨ s.startsWith waiter now gate = true := by
  have hlength : (s.joined waiter).waiting.length = s.state.queue.waiting.length + 1 := by simp [joined]
  change (s.join waiter now gate).state.queue.waiting.length ≤ s.config.val.maxWaiting ↔ _
  cases hstarts : s.startsWith waiter now gate with
  | true =>
    have hle := join_starts hstarts
    exact ⟨fun _ => .inr rfl, fun _ => hle.trans hs⟩
  | false =>
    rw [join_stuck hstarts, hlength]
    simp [Nat.succ_le_iff]

end Scheduler

/-! ## The pool -/

namespace Pool
variable {F : Type} [Meter F]

omit [Meter F] in
/-- At most `maxWaiting` calls wait at each member. -/
def WithinCap (p : Pool F) : Prop := ∀ s ∈ p.members, s.waitsWithin

instance (p : Pool F) : Decidable p.WithinCap := inferInstanceAs (Decidable (∀ s ∈ p.members, s.waitsWithin))

/-- A move finds a place free at its target, or a start makes one. -/
def FindsRoom (p : Pool F) : PoolOp → Prop
  | .move source target targetBit now gate =>
    ∀ a b position waiter, p.Moves source target targetBit gate a b position waiter →
      b.state.queue.waiting.length < b.config.val.maxWaiting ∨ b.startsWith waiter now gate = true
  | _ => True

omit [Meter F] in
theorem WithinCap.set {p : Pool F} (h : p.WithinCap) {i : Nat} {s : Scheduler F} (hs : s.waitsWithin) :
    (p.set i s).WithinCap := by
  intro t ht
  rcases List.mem_or_eq_of_mem_set ht with hin | rfl
  · exact h t hin
  · exact hs

omit [Meter F] in
theorem WithinCap.onMember {p : Pool F} (h : p.WithinCap) (i : Nat)
    {op : Scheduler F → Scheduler F × Option PoolEvent} (hop : ∀ s, s.waitsWithin → (op s).1.waitsWithin) :
    (p.onMember i op).1.WithinCap := by
  unfold Pool.onMember
  cases hs : p.members[i]? with
  | none => exact h
  | some s => exact h.set (hop s (h s (List.mem_of_getElem? hs)))

theorem WithinCap.move_iff {p : Pool F} (h : p.WithinCap) (source target : Nat) (targetBit : UInt64) (now : Nat)
    (gate : Gate) : (p.next (.move source target targetBit now gate)).WithinCap ↔
      p.FindsRoom (.move source target targetBit now gate) := by
  rw [next, step]
  cases hmove : p.move source target targetBit now gate with
  | none =>
    -- nothing moves: there is no such pair, or no call of the source may move
    refine iff_of_true h fun a b position waiter hmoves => ?_
    cases (move_of_moves hmoves now).symm.trans hmove
  | some p' =>
    obtain ⟨a, b, position, waiter, hmoves, rfl⟩ := move_some hmove
    have hb : b.waitsWithin := h b (List.mem_of_getElem? hmoves.target_at)
    have hleave : (a.leave position).waitsWithin :=
      (List.length_eraseIdx_le _ _).trans (h a (List.mem_of_getElem? hmoves.source_at))
    have hroom := Scheduler.join_waitsWithin_iff hb waiter now gate
    simp only [Option.getD_some]
    constructor
    · intro hwithin a' b' position' waiter' hmoves'
      obtain ⟨rfl, rfl, rfl, rfl⟩ := hmoves.unique hmoves'
      refine hroom.mp (hwithin _ (List.mem_of_getElem? (i := target) ?_))
      have hlt := (List.getElem?_eq_some_iff.mp hmoves.target_at).1
      simp [Pool.set, hlt]
    · intro hfinds
      exact (h.set hleave).set (hroom.mpr (hfinds a b position waiter hmoves))

/-- **One operation**: all but moves keep the cap, and a move keeps it exactly when it finds room. -/
theorem WithinCap.next_iff {p : Pool F} (h : p.WithinCap) (op : PoolOp) :
    (p.next op).WithinCap ↔ p.FindsRoom op := by
  cases op with
  | move source target targetBit now gate => exact h.move_iff source target targetBit now gate
  | insert backend config now =>
    refine iff_of_true (fun s hs => ?_) trivial
    rcases List.mem_append.mp hs with hin | hin
    · exact h s hin
    · obtain rfl := List.mem_singleton.mp hin
      exact Nat.zero_le _
  | enqueue member callMeta now gate =>
    refine iff_of_true ?_ trivial
    simp only [Pool.next, Pool.step]
    split
    · exact h
    · rename_i s hs
      split
      · exact h
      · rename_i s' hs'
        exact h.set (Scheduler.enqueue_waitsWithin hs')
  | place member id now gate =>
    exact iff_of_true (h.onMember member fun s hs => (s.place_noLonger id now gate).waitsWithin hs) trivial
  | abandon member id =>
    exact iff_of_true (h.onMember member fun s hs => (s.abandon_noLonger id).waitsWithin hs) trivial
  | finish member id report now gate =>
    exact iff_of_true (h.onMember member fun s hs => (s.finish_noLonger id report now gate).waitsWithin hs) trivial
  | hold member duration now => exact iff_of_true (h.onMember member fun s hs => hs) trivial
  | clear member now gate =>
    exact iff_of_true (h.onMember member fun s hs => (s.clearReservedHold_noLonger now gate).waitsWithin hs) trivial
  | elsewhere taken => exact iff_of_true h trivial

end Pool

/-- **The cap over every run**: no scheduler ever holds more waiting calls than its cap if and only if every move of the
run finds room at its target. -/
theorem cap_iff_room {F : Type} [Meter F] (ops : List PoolOp) :
    Throughout Pool.next Pool.WithinCap (Pool.empty : Pool F) ops ↔
      Along Pool.next Pool.FindsRoom (Pool.empty : Pool F) ops :=
  throughout_iff_along (fun (p : Pool F) op (h : p.WithinCap) => h.next_iff op) (by simp [Pool.WithinCap, Pool.empty])
    ops

/-! ## A pass over the cap -/

def smallBackend (name : String) (maxWaiting : Nat) (h : (⟨1, maxWaiting, 4⟩ : SchedulerConfig).validate = .ok ()) :
    PoolOp :=
  .insert ⟨name⟩ ⟨⟨1, maxWaiting, 4⟩, h⟩ 0

def mediumCall : CallMeta := CallMeta.new "call" .medium ""

/-- Two backends of one call at a time. The second may have one waiting call and has it; three calls wait at the
first. -/
def crowded : List PoolOp :=
  [smallBackend "a" 256 SchedulerConfig.validate_oneCall, smallBackend "b" 1 rfl,
   .enqueue 1 mediumCall 0 .open, .enqueue 1 mediumCall 0 .open,
   .enqueue 0 mediumCall 0 .open, .enqueue 0 mediumCall 0 .open, .enqueue 0 mediumCall 0 .open,
   .enqueue 0 mediumCall 0 .open]

/-- **A rebalance pass goes over the cap**: it hands the second backend a second waiting call. -/
theorem rebalance_over_cap :
    Pool.WithinCap (run Pool.next (Pool.empty : Pool Fraction) crowded) ∧
      ¬ Pool.WithinCap
        ((run Pool.next (Pool.empty : Pool Fraction) crowded).rebalance [0, 1] (fun _ => 0) .open).1 := by
  constructor <;> decide

end Cuca.Services
