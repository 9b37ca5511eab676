import Cuca.Services.Rebalance

/-!
# Which member holds a call

* `Pool.HeldAt`, `Pool.WaitsAt`, `Pool.RunsAt` : the places of one call, read off the pool;
* `Pool.step_less` : an operation gives a call to a member only by a move of that call, and lets none wait that did not
  wait before;
* `Pool.runsAt_step` : a running call runs on until it is finished where it runs.
-/

namespace Cuca.Services
open Transition

namespace Queue

theorem mem_waitingIds {q : Queue} {id : Nat} : id ∈ q.waitingIds ↔ ∃ waiter ∈ q.waiting, waiter.id = id := by
  rw [waitingIds, Multiset.mem_coe, List.mem_map]

theorem mem_runningIds {q : Queue} {id : Nat} : id ∈ q.runningIds ↔ ∃ runner ∈ q.running, runner.id = id := by
  rw [runningIds, Multiset.mem_coe, List.mem_map]

theorem mem_ids {q : Queue} {id : Nat} : id ∈ q.ids ↔ id ∈ q.waitingIds ∨ id ∈ q.runningIds := Multiset.mem_add

theorem isWaiting_iff {q : Queue} {id : Nat} : q.isWaiting id = true ↔ id ∈ q.waitingIds := by
  simp [isWaiting, mem_waitingIds]

theorem isRunning_iff {q : Queue} {id : Nat} : q.isRunning id = true ↔ id ∈ q.runningIds := by
  simp [isRunning, mem_runningIds]

theorem runningLevel_some {q : Queue} {id level : Nat} (h : q.runningLevel id = some level) : id ∈ q.runningIds := by
  obtain ⟨runner, hfind, -⟩ := Option.map_eq_some_iff.mp h
  exact mem_runningIds.mpr ⟨runner, List.mem_of_find?_eq_some hfind, by simpa using List.find?_some hfind⟩

theorem dispatch_waitingIds (q : Queue) (level reservedFrom now : Nat) (eligible : Waiter → Bool) :
    (q.dispatch level reservedFrom now eligible).1.waitingIds ⊆ q.waitingIds := by
  intro id hid
  obtain ⟨waiter, hwaiter, rfl⟩ := mem_waitingIds.mp hid
  exact mem_waitingIds.mpr ⟨waiter, (dispatch_waiting_sublist ..).subset hwaiter, rfl⟩

theorem dispatch_runningIds (q : Queue) (level reservedFrom now : Nat) (eligible : Waiter → Bool) :
    q.runningIds ⊆ (q.dispatch level reservedFrom now eligible).1.runningIds := by
  refine dispatch_induction (I := fun q' _ => q.runningIds ⊆ q'.runningIds) (Multiset.Subset.refl _) ?_
  intro q' _ index bucket waiter h _ _ id hid
  obtain ⟨runner, hrunner, rfl⟩ := mem_runningIds.mp (h hid)
  exact mem_runningIds.mpr ⟨runner, List.mem_append_left _ hrunner, rfl⟩

theorem ids_subset {q q' : Queue} (hwaiting : q'.waiting ⊆ q.waiting) (hrunning : q'.running = q.running) :
    q'.ids ⊆ q.ids ∧ q'.waitingIds ⊆ q.waitingIds := by
  have hsub : q'.waitingIds ⊆ q.waitingIds := by
    intro id hid
    obtain ⟨waiter, hwaiter, rfl⟩ := mem_waitingIds.mp hid
    exact mem_waitingIds.mpr ⟨waiter, hwaiting hwaiter, rfl⟩
  have hsame : q'.runningIds = q.runningIds := by rw [runningIds, hrunning, runningIds]
  refine ⟨fun id hid => ?_, hsub⟩
  rcases mem_ids.mp hid with hid | hid
  · exact mem_ids.mpr (.inl (hsub hid))
  · exact mem_ids.mpr (.inr (hsame ▸ hid))

theorem withdraw_subset (q : Queue) (id : Nat) : (q.withdraw id).2.waiting ⊆ q.waiting := List.filter_subset' _

end Queue

/-! ## One scheduler -/

namespace Scheduler
variable {F : Type}

/-- `s'` holds `id` only if `s` did, and waiting only if it waited there. -/
structure Less (id : Nat) (s s' : Scheduler F) : Prop where
  held : id ∈ s'.ids → id ∈ s.ids
  waits : id ∈ s'.state.queue.waitingIds → id ∈ s.state.queue.waitingIds

theorem Less.refl (id : Nat) (s : Scheduler F) : Less id s s := ⟨fun h => h, fun h => h⟩

theorem less_queue {s : Scheduler F} {queue : Queue} (hwaiting : queue.waiting ⊆ s.state.queue.waiting)
    (hrunning : queue.running = s.state.queue.running) (id : Nat) :
    Less id s { s with state := { s.state with queue := queue } } := by
  obtain ⟨hids, hwaits⟩ := Queue.ids_subset hwaiting hrunning
  exact ⟨fun h => hids h, fun h => hwaits h⟩

theorem leave_less (s : Scheduler F) (position id : Nat) : Less id s (s.leave position) :=
  less_queue (by exact List.eraseIdx_subset) (by rfl) id

theorem abandon_less (s : Scheduler F) (id' id : Nat) : Less id s (s.abandon id').2 := by
  unfold abandon
  cases hw : s.state.queue.withdraw id' with
  | mk taken queue =>
    cases taken with
    | true =>
      have hqueue : queue = (s.state.queue.withdraw id').2 := by rw [hw]
      exact less_queue (hqueue ▸ s.state.queue.withdraw_subset id') (by rw [hqueue]; rfl) id
    | false => exact .refl id s

theorem abandon_running (s : Scheduler F) (id : Nat) : (s.abandon id).2.state.queue.running = s.state.queue.running := by
  unfold abandon
  cases hw : s.state.queue.withdraw id with
  | mk taken queue =>
    cases taken with
    | true =>
      have hqueue : queue = (s.state.queue.withdraw id).2 := by rw [hw]
      rw [hqueue]
      rfl
    | false => rfl

variable [Meter F]

theorem less_step {s : Scheduler F} {state : State F} {id : Nat} (hheld : id ∈ state.queue.ids → id ∈ s.ids)
    (hwaits : id ∈ state.queue.waitingIds → id ∈ s.state.queue.waitingIds) (now : Nat) (gate : Gate) :
    Less id s { s with state := s.step state now gate } :=
  ⟨fun h => hheld (step_ids s state now gate ▸ h), fun h => hwaits (Queue.dispatch_waitingIds _ _ _ _ _ h)⟩

theorem step_runs {s : Scheduler F} {state : State F} {id : Nat} (h : id ∈ state.queue.runningIds) (now : Nat)
    (gate : Gate) : id ∈ (s.step state now gate).queue.runningIds :=
  Queue.dispatch_runningIds _ _ _ _ _ h

theorem enqueue_less {s s' : Scheduler F} {callMeta : CallMeta} {id' now id : Nat} {gate : Gate}
    (h : s.enqueue callMeta id' now gate = .ok s') (hne : id ≠ id') : Less id s s' := by
  unfold enqueue at h
  split_ifs at h
  obtain rfl := Except.ok.inj h
  refine less_step (fun hid => ?_) (fun hid => ?_) now gate
  · rw [Queue.push_ids] at hid
    exact (Multiset.mem_cons.mp hid).resolve_left hne
  · obtain ⟨waiter, hwaiter, rfl⟩ := Queue.mem_waitingIds.mp hid
    rcases List.mem_append.mp hwaiter with hin | hnew
    · exact Queue.mem_waitingIds.mpr ⟨waiter, hin, rfl⟩
    · obtain rfl := List.mem_singleton.mp hnew
      exact absurd rfl hne

theorem place_less (s : Scheduler F) (id' now : Nat) (gate : Gate) (id : Nat) : Less id s (s.place id' now gate).2 := by
  unfold place
  cases s.state.queue.runningLevel id' with
  | some level => exact .refl id s
  | none =>
    simp only
    split_ifs
    · exact .refl id s
    · exact less_queue (s.state.queue.withdraw_subset id') rfl id
    · exact less_step (fun h => h) (fun h => h) now gate

theorem finish_less (s : Scheduler F) (id' : Nat) (report : CallReport) (now : Nat) (gate : Gate) (id : Nat) :
    Less id s (s.finish id' report now gate) := by
  unfold finish
  cases hc : s.state.queue.complete id' with
  | none => exact .refl id s
  | some result =>
    obtain ⟨runner, queue⟩ := result
    obtain ⟨-, hwaiting, -⟩ := Queue.complete_some hc
    refine less_step (fun hid => ?_) (fun hid => ?_) now gate
    · have hids : s.ids = id' ::ₘ queue.ids := Queue.complete_ids hc
      rw [hids]
      exact Multiset.mem_cons_of_mem hid
    · have hsame : queue.waitingIds = s.state.queue.waitingIds := by
        rw [Queue.waitingIds, hwaiting, List.map_map]
        rfl
      exact hsame ▸ hid

theorem clearReservedHold_less (s : Scheduler F) (now : Nat) (gate : Gate) (id : Nat) :
    Less id s (s.clearReservedHold now gate) := by
  unfold clearReservedHold
  cases s.state.reservedHoldUntil with
  | none => exact .refl id s
  | some deadline =>
    refine less_step ?_ ?_ now gate
    · exact fun h => h
    · exact fun h => h

theorem join_less (s : Scheduler F) {waiter : Waiter} {id : Nat} (hne : waiter.id ≠ id) (now : Nat) (gate : Gate) :
    Less id s (s.join waiter now gate) := by
  refine ⟨fun hid => ?_, fun hid => ?_⟩
  · rw [(s.join_spec waiter now gate).2] at hid
    exact (Multiset.mem_cons.mp hid).resolve_left (Ne.symm hne)
  · have hjoined : id ∈ (s.joined waiter).waitingIds := Queue.dispatch_waitingIds _ _ _ _ _ hid
    obtain ⟨w, hw, rfl⟩ := Queue.mem_waitingIds.mp hjoined
    rcases List.mem_append.mp hw with hin | hnew
    · exact Queue.mem_waitingIds.mpr ⟨w, hin, rfl⟩
    · exact absurd (congrArg Waiter.id (List.mem_singleton.mp hnew)).symm hne

/-! ### Running calls run on -/

theorem enqueue_runs {s s' : Scheduler F} {callMeta : CallMeta} {id' now id : Nat} {gate : Gate}
    (h : s.enqueue callMeta id' now gate = .ok s') (hruns : id ∈ s.state.queue.runningIds) :
    id ∈ s'.state.queue.runningIds := by
  unfold enqueue at h
  split_ifs at h
  obtain rfl := Except.ok.inj h
  refine step_runs ?_ now gate
  exact hruns

theorem place_runs {s : Scheduler F} {id : Nat} (hruns : id ∈ s.state.queue.runningIds) (id' now : Nat)
    (gate : Gate) : id ∈ (s.place id' now gate).2.state.queue.runningIds := by
  unfold place
  cases s.state.queue.runningLevel id' with
  | some level => exact hruns
  | none =>
    simp only
    split_ifs
    · exact hruns
    · exact hruns
    · exact step_runs hruns now gate

theorem finish_runs {s : Scheduler F} {id id' : Nat} (hruns : id ∈ s.state.queue.runningIds) (hne : id ≠ id')
    (report : CallReport) (now : Nat) (gate : Gate) :
    id ∈ (s.finish id' report now gate).state.queue.runningIds := by
  unfold finish
  cases hc : s.state.queue.complete id' with
  | none => exact hruns
  | some result =>
    obtain ⟨runner, queue⟩ := result
    obtain ⟨hid, -, hrunning⟩ := Queue.complete_some hc
    refine step_runs (s := s) ?_ now gate
    obtain ⟨other, hother, rfl⟩ := Queue.mem_runningIds.mp hruns
    rcases List.mem_cons.mp (hrunning.mem_iff.mp hother) with rfl | hin
    · exact absurd hid hne
    · exact Queue.mem_runningIds.mpr ⟨other, hin, rfl⟩

theorem clearReservedHold_runs {s : Scheduler F} {id : Nat} (hruns : id ∈ s.state.queue.runningIds) (now : Nat)
    (gate : Gate) : id ∈ (s.clearReservedHold now gate).state.queue.runningIds := by
  unfold clearReservedHold
  cases s.state.reservedHoldUntil with
  | none => exact hruns
  | some deadline =>
    refine step_runs ?_ now gate
    exact hruns

end Scheduler

/-! ## The pool -/

namespace Pool
variable {F : Type}

def HeldAt (p : Pool F) (id member : Nat) : Prop := ∃ s, p.members[member]? = some s ∧ id ∈ s.ids

def WaitsAt (p : Pool F) (id member : Nat) : Prop :=
  ∃ s, p.members[member]? = some s ∧ id ∈ s.state.queue.waitingIds

def RunsAt (p : Pool F) (id member : Nat) : Prop :=
  ∃ s, p.members[member]? = some s ∧ id ∈ s.state.queue.runningIds

theorem mem_held {p : Pool F} {id : Nat} : id ∈ p.held ↔ ∃ member, p.HeldAt id member := by
  have hsum : ∀ members : List (Scheduler F), id ∈ (members.map Scheduler.ids).sum ↔ ∃ s ∈ members, id ∈ s.ids := by
    intro members
    induction members with
    | nil => simp
    | cons s members ih => simp [ih]
  rw [held, hsum]
  constructor
  · rintro ⟨s, hs, hid⟩
    obtain ⟨member, hmember⟩ := List.mem_iff_getElem?.mp hs
    exact ⟨member, s, hmember, hid⟩
  · rintro ⟨member, s, hmember, hid⟩
    exact ⟨s, List.mem_of_getElem? hmember, hid⟩

/-- The operation moves `id` to `target`. -/
def TakesTo (p : Pool F) (id target : Nat) (op : PoolOp) : Prop :=
  ∃ source targetBit now gate a b position waiter, op = .move source target targetBit now gate ∧
    p.Moves source target targetBit gate a b position waiter ∧ waiter.id = id

theorem set_at {p : Pool F} {member i : Nat} {s' t : Scheduler F} (h : (p.set member s').members[i]? = some t) :
    i = member ∧ t = s' ∨ i ≠ member ∧ p.members[i]? = some t := by
  rw [set] at h
  by_cases hi : i = member
  · subst hi
    have hlt := (List.getElem?_eq_some_iff.mp h).1
    rw [List.length_set] at hlt
    rw [List.getElem?_set_self hlt] at h
    exact .inl ⟨rfl, (Option.some.inj h).symm⟩
  · rw [List.getElem?_set_ne (Ne.symm hi)] at h
    exact .inr ⟨hi, h⟩

theorem set_self {p : Pool F} {member : Nat} {s : Scheduler F} (h : p.members[member]? = some s) :
    p.set member s = p := by
  obtain ⟨hlt, rfl⟩ := List.getElem?_eq_some_iff.mp h
  rw [set, List.set_getElem_self]

theorem less_set {p : Pool F} {member i id : Nat} {s s' t : Scheduler F} (hs : p.members[member]? = some s)
    (hless : Scheduler.Less id s s') (h : (p.set member s').members[i]? = some t) :
    ∃ s, p.members[i]? = some s ∧ Scheduler.Less id s t := by
  rcases set_at h with ⟨rfl, rfl⟩ | ⟨-, ht⟩
  · exact ⟨s, hs, hless⟩
  · exact ⟨t, ht, .refl id t⟩

theorem less_onMember {p : Pool F} {member i id : Nat} {op : Scheduler F → Scheduler F × Option PoolEvent}
    {t : Scheduler F} (hop : ∀ s, Scheduler.Less id s (op s).1) (h : (p.onMember member op).1.members[i]? = some t) :
    ∃ s, p.members[i]? = some s ∧ Scheduler.Less id s t := by
  unfold onMember at h
  cases hs : p.members[member]? with
  | none =>
    rw [hs] at h
    exact ⟨t, h, .refl id t⟩
  | some s =>
    rw [hs] at h
    exact less_set hs (hop s) h

variable [Meter F]

/-- **What an operation can give a member**: nothing it did not hold, or a new scheduler, or the call that it moves. -/
theorem step_less {p : Pool F} {id : Nat} (hid : id < p.nextWaiter) (op : PoolOp) {i : Nat} {t : Scheduler F}
    (h : (p.step op).1.members[i]? = some t) :
    (∃ s, p.members[i]? = some s ∧ Scheduler.Less id s t) ∨ id ∉ t.ids ∨ p.TakesTo id i op := by
  cases op with
  | insert backend config now =>
    rcases List.mem_append.mp (List.mem_of_getElem? h) with hin | hin
    · by_cases hi : i < p.members.length
      · refine .inl ⟨t, ?_, .refl id t⟩
        rw [step, List.getElem?_append_left hi] at h
        exact h
      · have hnew : (p.members ++ [Scheduler.new backend config now])[i]? = some t := h
        rw [List.getElem?_append_right (by omega), List.getElem?_singleton] at hnew
        split_ifs at hnew
        obtain rfl := Option.some.inj hnew
        exact .inr (.inl (Multiset.notMem_zero id))
    · obtain rfl := List.mem_singleton.mp hin
      exact .inr (.inl (Multiset.notMem_zero id))
  | elsewhere taken => exact .inl ⟨t, h, .refl id t⟩
  | enqueue member callMeta now gate =>
    left
    simp only [step] at h
    split at h
    · exact ⟨t, h, .refl id t⟩
    · rename_i s hs
      split at h
      · exact ⟨t, h, .refl id t⟩
      · rename_i s' hs'
        exact less_set hs (Scheduler.enqueue_less hs' (by omega)) h
  | place member id' now gate => exact .inl (less_onMember (fun s => s.place_less id' now gate id) h)
  | abandon member id' => exact .inl (less_onMember (fun s => s.abandon_less id' id) h)
  | finish member id' report now gate => exact .inl (less_onMember (fun s => s.finish_less id' report now gate id) h)
  | hold member duration now => exact .inl (less_onMember (fun s => ⟨fun hin => hin, fun hin => hin⟩) h)
  | clear member now gate => exact .inl (less_onMember (fun s => s.clearReservedHold_less now gate id) h)
  | move source target targetBit now gate =>
    simp only [step] at h
    cases hmove : p.move source target targetBit now gate with
    | none =>
      rw [hmove] at h
      exact .inl ⟨t, h, .refl id t⟩
    | some p' =>
      rw [hmove] at h
      obtain ⟨a, b, position, waiter, hmoves, rfl⟩ := move_some hmove
      rcases set_at h with ⟨rfl, rfl⟩ | ⟨-, ht⟩
      · by_cases hwaiter : waiter.id = id
        · exact .inr (.inr ⟨source, targetBit, now, gate, a, b, position, waiter, rfl, hmoves, hwaiter⟩)
        · exact .inl ⟨b, hmoves.target_at, b.join_less hwaiter now gate⟩
      · exact .inl (less_set hmoves.source_at (a.leave_less position id) ht)

/-- The operation may end `id` where it runs. -/
def Finishes (id member : Nat) : PoolOp → Prop
  | .finish m id' _ _ _ => m = member ∧ id' = id
  | _ => False

omit [Meter F] in
theorem runsAt_set {p : Pool F} {member i id : Nat} {s s' : Scheduler F} (hs : p.members[member]? = some s)
    (hruns : id ∈ s.state.queue.runningIds → id ∈ s'.state.queue.runningIds) (h : p.RunsAt id i) :
    (p.set member s').RunsAt id i := by
  obtain ⟨t, ht, hid⟩ := h
  by_cases hi : member = i
  · subst hi
    obtain rfl := Option.some.inj (hs.symm.trans ht)
    have hlt := (List.getElem?_eq_some_iff.mp ht).1
    exact ⟨s', List.getElem?_set_self hlt, hruns hid⟩
  · exact ⟨t, (List.getElem?_set_ne hi).trans ht, hid⟩

omit [Meter F] in
theorem runsAt_onMember {p : Pool F} {member i id : Nat} {op : Scheduler F → Scheduler F × Option PoolEvent}
    (hop : ∀ s, p.members[member]? = some s → id ∈ s.state.queue.runningIds → (i = member →
      id ∈ (op s).1.state.queue.runningIds)) (h : p.RunsAt id i) : (p.onMember member op).1.RunsAt id i := by
  unfold onMember
  cases hs : p.members[member]? with
  | none => exact h
  | some s =>
    by_cases hi : i = member
    · exact runsAt_set hs (fun hruns => hop s hs hruns hi) h
    · obtain ⟨t, ht, hid⟩ := h
      exact ⟨t, (List.getElem?_set_ne (Ne.symm hi)).trans ht, hid⟩

theorem runsAt_step {p : Pool F} {id i : Nat} (h : p.RunsAt id i) {op : PoolOp} (hop : ¬ Finishes id i op) :
    (p.step op).1.RunsAt id i := by
  cases op with
  | insert backend config now =>
    obtain ⟨t, ht, hid⟩ := h
    have hlt := (List.getElem?_eq_some_iff.mp ht).1
    exact ⟨t, (List.getElem?_append_left hlt).trans ht, hid⟩
  | elsewhere taken => exact h
  | enqueue member callMeta now gate =>
    simp only [step]
    split
    · exact h
    · rename_i s hs
      split
      · exact h
      · rename_i s' hs'
        exact runsAt_set hs (Scheduler.enqueue_runs hs') h
  | place member id' now gate =>
    exact runsAt_onMember (fun s _ hruns _ => Scheduler.place_runs hruns id' now gate) h
  | abandon member id' =>
    refine runsAt_onMember (fun s _ hruns _ => ?_) h
    rw [Queue.runningIds, Scheduler.abandon_running]
    exact hruns
  | finish member id' report now gate =>
    refine runsAt_onMember (fun s _ hruns hi => ?_) h
    exact Scheduler.finish_runs hruns (fun hid => hop ⟨hi.symm, hid.symm⟩) report now gate
  | hold member duration now => exact runsAt_onMember (fun s _ hruns _ => hruns) h
  | clear member now gate =>
    exact runsAt_onMember (fun s _ hruns _ => Scheduler.clearReservedHold_runs hruns now gate) h
  | move source target targetBit now gate =>
    simp only [step]
    cases hmove : p.move source target targetBit now gate with
    | none => exact h
    | some p' =>
      obtain ⟨a, b, position, waiter, hmoves, rfl⟩ := move_some hmove
      have hleave : (p.set source (a.leave position)).RunsAt id i :=
        runsAt_set hmoves.source_at (fun hruns => hruns) h
      have htarget : (p.set source (a.leave position)).members[target]? = some b :=
        (List.getElem?_set_ne hmoves.ne).trans hmoves.target_at
      refine runsAt_set htarget (fun hruns => ?_) hleave
      refine Scheduler.step_runs ?_ now gate
      exact hruns

end Pool
end Cuca.Services
