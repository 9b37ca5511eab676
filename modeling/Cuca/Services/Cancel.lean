import Cuca.Services.Holders

/-!
# A cancelled call's way out of the pool

`PendingCall::drop` abandons its call on its own scheduler and then, if that one does not hold it, on each member of the
pool in turn. Each of these takes one lock, and other tasks take theirs in between.

* `Dropping.step` : the next lock of the drop, or any operation of another task;
* `Dropping.InReach` : no move hands the call to a member that the scan has passed or that it did not list;
* `dropped_call_gone` : then no member holds the call once the drop is done;
* `dropped_call_runs` : a run with such a move, at whose end the call occupies a bucket.
-/

namespace Cuca.Services
open Transition

/-! ## The drop -/

/-- What a drop does next. -/
inductive DropPhase where
  /-- It abandons on its own scheduler. -/
  | own
  /-- It reads the list of members. -/
  | listing
  /-- It abandons on the first of these. -/
  | scanning (rest : List Nat)
  /-- It finishes the call it found running on a member. -/
  | finishing (member : Nat)
  | done
deriving DecidableEq, Repr

/-- A pool with a drop under way. -/
structure Dropping (F : Type) where
  run : PoolRun F
  phase : DropPhase

inductive DropOp where
  | other (op : PoolOp)
  | drop (now : Nat) (gate : Gate)

/-- What `abandon` answers at a member. -/
def Pool.abandonAt {F : Type} (p : Pool F) (member id : Nat) : Option Bool :=
  match p.members[member]? with
  | none => none
  | some s => (s.abandon id).1

/-- The phase after an `abandon`. -/
def DropPhase.after (member : Nat) (next : DropPhase) : Option Bool → DropPhase
  | some false => .done
  | some true => .finishing member
  | none => next

namespace Dropping
variable {F : Type} [Meter F]

/-- The drop's `abandon` at a member. -/
def abandon (d : Dropping F) (member id : Nat) (next : DropPhase) : Dropping F :=
  ⟨d.run.step (.abandon member id), .after member next (d.run.pool.abandonAt member id)⟩

/-- `own` is the call's own scheduler. -/
def step (own id : Nat) (d : Dropping F) : DropOp → Dropping F
  | .other op => { d with run := d.run.step op }
  | .drop now gate =>
    match d.phase with
    | .own => d.abandon own id .listing
    | .listing => { d with phase := .scanning (List.range d.run.pool.members.length) }
    | .scanning [] => { d with phase := .done }
    | .scanning (member :: rest) => d.abandon member id (.scanning rest)
    | .finishing member => ⟨d.run.step (.finish member id (.empty .cancelled) now gate), .done⟩
    | .done => d

omit [Meter F] in
/-- While the drop scans, a move of the call goes to a member still to be scanned. -/
def InReach (id : Nat) (d : Dropping F) : DropOp → Prop
  | .other op => ∀ rest, d.phase = .scanning rest → ∀ target, d.run.pool.TakesTo id target op → target ∈ rest
  | .drop _ _ => True

end Dropping

/-! ## A call has one holder -/

namespace PoolRun
variable {F : Type} {r : PoolRun F} {id : Nat}

theorem Sound.held_nodup (h : Sound r) : r.pool.held.Nodup := by
  refine Multiset.nodup_of_le ?_ h.nodup
  rw [← h.partition, add_assoc]
  exact Multiset.le_add_right _ _

theorem Sound.heldAt_unique (h : Sound r) {i j : Nat} (hi : r.pool.HeldAt id i) (hj : r.pool.HeldAt id j) : i = j := by
  obtain ⟨a, ha, hida⟩ := hi
  obtain ⟨b, hb, hidb⟩ := hj
  by_contra hne
  obtain ⟨rest, hsum, -⟩ := Accounts.two_accounts Scheduler.ids ha hb hne
  have hheld : r.pool.held = a.ids + b.ids + rest := hsum
  have hone := Multiset.nodup_iff_count_le_one.mp h.held_nodup id
  have hcounta := Multiset.count_pos.mpr hida
  have hcountb := Multiset.count_pos.mpr hidb
  rw [hheld, Multiset.count_add, Multiset.count_add] at hone
  omega

theorem Sound.not_waitsAt (h : Sound r) {i j : Nat} (hruns : r.pool.RunsAt id i) : ¬ r.pool.WaitsAt id j := by
  rintro ⟨b, hb, hwaits⟩
  obtain ⟨a, ha, hruns⟩ := hruns
  obtain rfl : i = j := h.heldAt_unique ⟨a, ha, Queue.mem_ids.mpr (.inr hruns)⟩ ⟨b, hb, Queue.mem_ids.mpr (.inl hwaits)⟩
  obtain rfl := Option.some.inj (ha.symm.trans hb)
  have hone := Multiset.nodup_iff_count_le_one.mp (h.ids_nodup ha) id
  have hcountw := Multiset.count_pos.mpr hwaits
  have hcountr := Multiset.count_pos.mpr hruns
  rw [Scheduler.ids, Queue.ids, Multiset.count_add] at hone
  omega

theorem Sound.not_heldAt (h : Sound r) (hout : id ∈ r.completed ∨ id ∈ r.withdrawn) (member : Nat) :
    ¬ r.pool.HeldAt id member := by
  intro hheld
  have hone := Multiset.nodup_iff_count_le_one.mp h.nodup id
  have hcount := Multiset.count_pos.mpr (Pool.mem_held.mpr ⟨member, hheld⟩)
  rw [← h.partition, Multiset.count_add, Multiset.count_add] at hone
  rcases hout with hout | hout
  · have := Multiset.count_pos.mpr hout
    omega
  · have := Multiset.count_pos.mpr hout
    omega

end PoolRun

/-! ## Where the call is -/

namespace Scheduler
variable {F : Type}

theorem abandon_eq (s : Scheduler F) (id : Nat) :
    (s.abandon id).1 =
      if s.state.queue.isWaiting id then some false else if s.state.queue.isRunning id then some true else none := by
  have hfst := s.state.queue.withdraw_fst id
  unfold abandon
  cases hw : s.state.queue.withdraw id with
  | mk taken queue =>
    rw [hw] at hfst
    simp only at hfst
    cases taken with
    | true => simp [← hfst]
    | false => simp [← hfst]

theorem abandon_absent {s : Scheduler F} {id : Nat} (h : (s.abandon id).1 ≠ some false) : (s.abandon id).2 = s := by
  unfold abandon at h ⊢
  cases hw : s.state.queue.withdraw id with
  | mk taken queue =>
    rw [hw] at h
    cases taken with
    | true => exact absurd rfl h
    | false => rfl

end Scheduler

namespace Dropping
variable {F : Type} [Meter F]

omit [Meter F] in
/-- Where the call still can be. -/
def Located (id : Nat) (p : Pool F) : DropPhase → Prop
  | .own => True
  | .listing => True
  | .scanning rest => ∀ member, p.HeldAt id member → member ∈ rest
  | .finishing found => ∀ member, p.HeldAt id member → member = found ∧ ¬ p.WaitsAt id member
  | .done => ∀ member, ¬ p.HeldAt id member

omit [Meter F] in
structure Inv (id : Nat) (d : Dropping F) : Prop where
  sound : d.run.Sound
  accepted : id ∈ d.run.accepted
  located : Located id d.run.pool d.phase

omit [Meter F] in
theorem Inv.fresh {id : Nat} {d : Dropping F} (h : Inv id d) : id < d.run.pool.nextWaiter :=
  h.sound.fresh id h.accepted

theorem accepted_step {r : PoolRun F} {id : Nat} (h : id ∈ r.accepted) (op : PoolOp) : id ∈ (r.step op).accepted := by
  rw [PoolRun.accepted, PoolRun.step, List.map_append, List.sum_append]
  exact Multiset.mem_add.mpr (.inl h)

theorem heldAt_step {p : Pool F} {id member : Nat} (hid : id < p.nextWaiter) {op : PoolOp}
    (h : (p.step op).1.HeldAt id member) :
    (p.HeldAt id member ∧ ((p.step op).1.WaitsAt id member → p.WaitsAt id member)) ∨ p.TakesTo id member op := by
  obtain ⟨t, ht, hidt⟩ := h
  rcases p.step_less hid op ht with ⟨s, hs, hless⟩ | hnot | htakes
  · refine .inl ⟨⟨s, hs, hless.held hidt⟩, ?_⟩
    rintro ⟨t', ht', hwaits⟩
    obtain rfl := Option.some.inj (ht.symm.trans ht')
    exact ⟨s, hs, hless.waits hwaits⟩
  · exact absurd hidt hnot
  · exact .inr htakes

omit [Meter F] in
theorem waitsAt_of_takesTo {p : Pool F} {id target : Nat} {op : PoolOp} (h : p.TakesTo id target op) :
    ∃ source, p.WaitsAt id source := by
  obtain ⟨source, _, _, _, a, _, _, waiter, _, hmoves, rfl⟩ := h
  exact ⟨source, a, hmoves.source_at, Queue.mem_waitingIds.mpr
    ⟨waiter, List.mem_of_getElem? hmoves.taken.at_index, rfl⟩⟩

omit [Meter F] in
theorem heldAt_of_waitsAt {p : Pool F} {id member : Nat} (h : p.WaitsAt id member) : p.HeldAt id member := by
  obtain ⟨s, hs, hwaits⟩ := h
  exact ⟨s, hs, Queue.mem_ids.mpr (.inl hwaits)⟩

theorem Inv.other {id : Nat} {d : Dropping F} (h : Inv id d) {op : PoolOp} (hreach : InReach id d (.other op)) :
    Inv id { d with run := d.run.step op } := by
  refine ⟨h.sound.next op, accepted_step h.accepted op, ?_⟩
  have hlocated := h.located
  change Located id (d.run.pool.step op).1 d.phase
  cases hphase : d.phase with
  | own => trivial
  | listing => trivial
  | scanning rest =>
    intro member hheld
    rw [hphase] at hlocated
    rcases heldAt_step h.fresh hheld with ⟨hbefore, -⟩ | htakes
    · exact hlocated member hbefore
    · exact hreach rest hphase member htakes
  | finishing found =>
    intro member hheld
    rw [hphase] at hlocated
    rcases heldAt_step h.fresh hheld with ⟨hbefore, hwaits⟩ | htakes
    · obtain ⟨hfound, hnot⟩ := hlocated member hbefore
      exact ⟨hfound, fun hafter => hnot (hwaits hafter)⟩
    · -- the call does not wait anywhere, so nothing moves it
      obtain ⟨source, hsource⟩ := waitsAt_of_takesTo htakes
      exact absurd hsource (hlocated source (heldAt_of_waitsAt hsource)).2
  | done =>
    intro member hheld
    rw [hphase] at hlocated
    rcases heldAt_step h.fresh hheld with ⟨hbefore, -⟩ | htakes
    · exact hlocated member hbefore
    · obtain ⟨source, hsource⟩ := waitsAt_of_takesTo htakes
      exact hlocated source (heldAt_of_waitsAt hsource)

/-- **The drop's own `abandon`**: where it does not find the call, the call is not. -/
theorem Inv.abandon {id : Nat} {d : Dropping F} (h : Inv id d) (member : Nat) {next : DropPhase}
    (hnext : ¬ d.run.pool.HeldAt id member → Located id d.run.pool next) : Inv id (d.abandon member id next) := by
  refine ⟨h.sound.next _, accepted_step h.accepted _, ?_⟩
  change Located id (d.run.step (.abandon member id)).pool (.after member next (d.run.pool.abandonAt member id))
  have hsound := h.sound.next (.abandon member id)
  unfold Pool.abandonAt
  cases hs : d.run.pool.members[member]? with
  | none =>
    have hsame : (d.run.step (.abandon member id)).pool = d.run.pool := by
      simp only [PoolRun.step, Pool.step, Pool.onMember, hs]
    rw [hsame]
    refine hnext ?_
    rintro ⟨s, hs', -⟩
    rw [hs] at hs'
    cases hs'
  | some s =>
    have hpool : (d.run.step (.abandon member id)).pool = d.run.pool.set member (s.abandon id).2 := by
      simp only [PoolRun.step, Pool.step, Pool.onMember, hs]
    have hkept : (s.abandon id).1 ≠ some false → (d.run.step (.abandon member id)).pool = d.run.pool := by
      intro hne
      rw [hpool, Scheduler.abandon_absent hne, Pool.set_self hs]
    simp only
    rw [s.abandon_eq id] at hkept ⊢
    split_ifs at hkept ⊢ with hwaiting hrunning
    · -- it waited here, and has been withdrawn
      have hout : id ∈ (d.run.step (.abandon member id)).withdrawn := by
        have hanswer : (s.abandon id).1 = some false := by rw [s.abandon_eq id, if_pos hwaiting]
        have hlog : (d.run.step (.abandon member id)).log = d.run.log ++ [.withdrawn id] := by
          simp only [PoolRun.step, Pool.step, Pool.onMember, hs, hanswer, if_true, Option.toList_some]
        rw [PoolRun.withdrawn, hlog, List.map_append, List.sum_append]
        exact Multiset.mem_add.mpr (.inr (by simp [PoolEvent.withdrawnIds]))
      exact fun m => hsound.not_heldAt (.inr hout) m
    · rw [hkept (by simp)]
      have hruns : d.run.pool.RunsAt id member := ⟨s, hs, Queue.isRunning_iff.mp hrunning⟩
      intro m hheld
      have hhere : d.run.pool.HeldAt id member := ⟨s, hs, Queue.mem_ids.mpr (.inr (Queue.isRunning_iff.mp hrunning))⟩
      exact ⟨h.sound.heldAt_unique hheld hhere, h.sound.not_waitsAt hruns⟩
    · rw [hkept (by simp)]
      refine hnext ?_
      rintro ⟨s', hs', hid⟩
      obtain rfl := Option.some.inj (hs.symm.trans hs')
      rcases Queue.mem_ids.mp hid with hid | hid
      · exact hwaiting (Queue.isWaiting_iff.mpr hid)
      · exact hrunning (Queue.isRunning_iff.mpr hid)

theorem Inv.finish {id : Nat} {d : Dropping F} (h : Inv id d) {found : Nat} (hphase : d.phase = .finishing found)
    (report : CallReport) (now : Nat) (gate : Gate) :
    Inv id ⟨d.run.step (.finish found id report now gate), .done⟩ := by
  refine ⟨h.sound.next _, accepted_step h.accepted _, ?_⟩
  have hsound := h.sound.next (.finish found id report now gate)
  have hlocated := h.located
  rw [hphase] at hlocated
  intro m hheld
  rcases heldAt_step h.fresh hheld with ⟨hbefore, -⟩ | ⟨_, _, _, _, _, _, _, _, heq, -⟩
  · obtain ⟨rfl, hnot⟩ := hlocated m hbefore
    obtain ⟨s, hs, hid⟩ := hbefore
    have hruns : id ∈ s.state.queue.runningIds :=
      (Queue.mem_ids.mp hid).resolve_left fun hwaits => hnot ⟨s, hs, hwaits⟩
    obtain ⟨result, hcomplete⟩ : ∃ result, s.state.queue.complete id = some result := by
      refine Option.isSome_iff_exists.mp (Option.isSome_iff_ne_none.mpr fun hnone => ?_)
      obtain ⟨runner, hrunner, hrid⟩ := Queue.mem_runningIds.mp hruns
      exact Queue.complete_none.mp hnone runner hrunner hrid
    have hout : id ∈ (d.run.step (.finish m id report now gate)).completed := by
      have hlog : (d.run.step (.finish m id report now gate)).log = d.run.log ++ [.completed m id] := by
        simp only [PoolRun.step, Pool.step, Pool.onMember, hs, hcomplete, Option.isSome_some, if_true,
          Option.toList_some]
      rw [PoolRun.completed, hlog, List.map_append, List.sum_append]
      exact Multiset.mem_add.mpr (.inr (by simp [PoolEvent.completedIds]))
    exact hsound.not_heldAt (.inl hout) m hheld
  · cases heq

theorem Inv.next {own id : Nat} {d : Dropping F} (h : Inv id d) (op : DropOp) (hreach : InReach id d op) :
    Inv id (step own id d op) := by
  cases op with
  | other op => exact h.other hreach
  | drop now gate =>
    have hlocated := h.located
    unfold step
    cases hphase : d.phase with
    | own => exact h.abandon own fun _ => trivial
    | listing =>
      refine ⟨h.sound, h.accepted, fun member hheld => ?_⟩
      obtain ⟨s, hs, -⟩ := hheld
      exact List.mem_range.mpr (List.getElem?_eq_some_iff.mp hs).1
    | scanning rest =>
      rw [hphase] at hlocated
      cases rest with
      | nil => exact ⟨h.sound, h.accepted, fun member hheld => List.not_mem_nil (hlocated member hheld)⟩
      | cons first rest =>
        refine h.abandon first fun hnot member hheld => ?_
        rcases List.mem_cons.mp (hlocated member hheld) with rfl | hin
        · exact absurd hheld hnot
        · exact hin
    | finishing found => exact h.finish hphase _ now gate
    | done => exact h

end Dropping

open Dropping in
/-- **A dropped call is gone.** From any reachable pool, along any interleaving in which no move hands the call to a
member the scan has passed, the call is held by no member at any moment after the drop is done. -/
theorem dropped_call_gone {F : Type} [Meter F] (ops : List PoolOp) (own id : Nat)
    (hid : id ∈ (run PoolRun.step (PoolRun.empty : PoolRun F) ops).accepted) (events : List DropOp)
    (hreach : Along (step own id) (InReach id) ⟨run PoolRun.step (PoolRun.empty : PoolRun F) ops, .own⟩ events) :
    Throughout (step own id) (fun d => d.phase = .done → id ∉ d.run.pool.held)
      ⟨run PoolRun.step (PoolRun.empty : PoolRun F) ops, .own⟩ events := by
  have hinv : Inv id ⟨run PoolRun.step (PoolRun.empty : PoolRun F) ops, .own⟩ := ⟨PoolRun.sound_run ops, hid, trivial⟩
  refine (throughout_induction (I := Inv id) (fun d op hop hd => hd.next op hop) hinv hreach).imp fun d hd hdone hheld => ?_
  obtain ⟨member, hmember⟩ := Pool.mem_held.mp hheld
  have hlocated := hd.located
  rw [hdone] at hlocated
  exact hlocated member hmember

/-! ## A drop that a move crosses -/

/-- Two backends of one call at a time, each running a call. Two more wait at the first, call 2 before call 3. -/
def busyPair : List PoolOp :=
  [.insert ⟨"a"⟩ ⟨⟨1, 256, 4⟩, SchedulerConfig.validate_oneCall⟩ 0,
   .insert ⟨"b"⟩ ⟨⟨1, 256, 4⟩, SchedulerConfig.validate_oneCall⟩ 0,
   .enqueue 0 (.new "call" .medium "") 0 .open, .enqueue 1 (.new "call" .medium "") 0 .open,
   .enqueue 0 (.new "call" .medium "") 0 .open, .enqueue 0 (.new "call" .medium "") 0 .open]

def movedThenDropped : List DropOp :=
  [.other (.move 0 1 (bitOf 1) 0 .open), .drop 0 .open, .drop 0 .open, .drop 0 .open, .drop 0 .open]

theorem dropped_call_gone_moved :
    (2 ∈ (run PoolRun.step (PoolRun.empty : PoolRun Fraction) busyPair).accepted) ∧
      Throughout (Dropping.step 0 2) (fun d => d.phase = .done → 2 ∉ d.run.pool.held)
        ⟨run PoolRun.step (PoolRun.empty : PoolRun Fraction) busyPair, .own⟩ movedThenDropped := by
  have haccepted : 2 ∈ (run PoolRun.step (PoolRun.empty : PoolRun Fraction) busyPair).accepted := by decide
  refine ⟨haccepted, dropped_call_gone busyPair 0 2 haccepted movedThenDropped ?_⟩
  exact ⟨fun _ h => (nomatch h), trivial, trivial, trivial, trivial, trivial⟩

/-- The drop has scanned the first backend when that one runs dry and takes the call back from the second. -/
def crossing : List DropOp :=
  [.other (.move 0 1 (bitOf 1) 0 .open), .drop 0 .open, .drop 0 .open, .drop 0 .open,
   .other (.finish 0 0 (.empty .ok) 0 .open), .other (.finish 0 3 (.empty .ok) 0 .open),
   .other (.move 1 0 (bitOf 0) 0 .open), .drop 0 .open, .drop 0 .open]

/-- **A dropped call runs on**: the drop is done, and its call has the only bucket of the first backend. -/
theorem dropped_call_runs :
    let d := run (Dropping.step 0 2) ⟨run PoolRun.step (PoolRun.empty : PoolRun Fraction) busyPair, .own⟩ crossing
    d.phase = .done ∧ 2 ∈ d.run.pool.runningIds ∧ 2 ∈ d.run.pool.held := by
  decide

end Cuca.Services
