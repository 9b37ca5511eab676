import Cuca.Lib.Accounts
import Cuca.Services.Scheduler
import Cuca.Services.TunerRuns
import Mathlib.Data.Multiset.AddSub

/-!
# What the operations of one scheduler keep

* `Queue.Sound`, `Scheduler.Sound` : buckets are distinct and below the level of their call, levels and the number of
  running calls stay within the ceiling, and the tuner is sound;
* `Queue.ids` : the calls a queue holds, waiting or running, as a multiset of ids;
* one lemma for each operation that says which calls it takes in or lets out (`Scheduler.enqueue_spec`,
  `Scheduler.place_spec`, `Scheduler.abandon_spec`, `Scheduler.finish_spec`, `Scheduler.leave_spec`,
  `Scheduler.join_spec`).
-/

namespace Cuca.Services
open Transition

/-! ## The calls of a queue -/

namespace Queue

def waitingIds (q : Queue) : Multiset Nat := (q.waiting.map Waiter.id : List Nat)

def runningIds (q : Queue) : Multiset Nat := (q.running.map Runner.id : List Nat)

def ids (q : Queue) : Multiset Nat := q.waitingIds + q.runningIds

/-- The running calls fit the ceiling, each in a bucket of its own below the level it started under. -/
structure Sound (ceiling : Nat) (q : Queue) : Prop where
  buckets_nodup : (q.running.map Runner.bucket).Nodup
  bucket_lt : ∀ runner ∈ q.running, runner.bucket < runner.level
  level_range : ∀ runner ∈ q.running, 1 ≤ runner.level ∧ runner.level ≤ ceiling
  running_le : q.running.length ≤ ceiling

theorem sound_empty (ceiling : Nat) : Sound ceiling empty :=
  ⟨List.nodup_nil, by simp [empty], by simp [empty], Nat.zero_le _⟩

theorem Sound.of_running {ceiling : Nat} {q q' : Queue} (h : Sound ceiling q) (hrunning : q'.running = q.running) :
    Sound ceiling q' := by
  obtain ⟨hnodup, hbucket, hlevel, hle⟩ := h
  exact ⟨hrunning ▸ hnodup, hrunning ▸ hbucket, hrunning ▸ hlevel, hrunning ▸ hle⟩

theorem push_ids (q : Queue) (id : Nat) (callMeta : CallMeta) (now : Nat) :
    (q.push id callMeta now).ids = id ::ₘ q.ids := by
  have hwaiting : (q.push id callMeta now).waitingIds = id ::ₘ q.waitingIds := by
    rw [waitingIds, push, List.map_append]
    exact Multiset.coe_eq_coe.mpr List.perm_append_comm
  rw [ids, hwaiting, Multiset.cons_add]
  rfl

theorem waitingIds_of_perm {q : Queue} {waiter : Waiter} {rest : List Waiter} (h : q.waiting.Perm (waiter :: rest)) :
    q.waitingIds = waiter.id ::ₘ (rest.map Waiter.id : List Nat) :=
  Multiset.coe_eq_coe.mpr (h.map Waiter.id)

theorem start_ids {q : Queue} {waiter : Waiter} {index : Nat} (h : q.waiting[index]? = some waiter)
    (bucket level now : Nat) : (q.start waiter index bucket level now).ids = q.ids := by
  have hrunning : (q.start waiter index bucket level now).runningIds = waiter.id ::ₘ q.runningIds := by
    rw [runningIds, start, List.map_append]
    exact Multiset.coe_eq_coe.mpr List.perm_append_comm
  rw [ids, hrunning, ids, waitingIds_of_perm (start_perm h bucket level now), Multiset.add_cons, Multiset.cons_add]
  rfl

theorem dispatch_ids (q : Queue) (level reservedFrom now : Nat) (eligible : Waiter → Bool) :
    (q.dispatch level reservedFrom now eligible).1.ids = q.ids :=
  dispatch_induction (I := fun q' _ => q'.ids = q.ids) rfl
    fun _ _ _ _ _ h _ hplaced => (start_ids hplaced.at_index _ _ _).trans h

theorem Sound.start {ceiling : Nat} {q : Queue} (h : Sound ceiling q) {level bucket : Nat} (waiter : Waiter)
    (index now : Nat) (hlevel : 1 ≤ level ∧ level ≤ ceiling) (hroom : q.running.length < level)
    (hbucket : bucket < level) (hfree : ∀ runner ∈ q.running, runner.bucket ≠ bucket) :
    Sound ceiling (q.start waiter index bucket level now) := by
  refine ⟨?_, ?_, ?_, ?_⟩
  · rw [Queue.start, List.map_append]
    refine List.nodup_append.mpr ⟨h.buckets_nodup, by simp, fun b hb c hc => ?_⟩
    obtain ⟨runner, hrunner, rfl⟩ := List.mem_map.mp hb
    obtain rfl : c = bucket := by simpa using hc
    exact hfree runner hrunner
  · intro runner hrunner
    rcases List.mem_append.mp hrunner with hold | hnew
    · exact h.bucket_lt runner hold
    · obtain rfl := List.mem_singleton.mp hnew
      exact hbucket
  · intro runner hrunner
    rcases List.mem_append.mp hrunner with hold | hnew
    · exact h.level_range runner hold
    · obtain rfl := List.mem_singleton.mp hnew
      exact hlevel
  · simp only [Queue.start, List.length_append, List.length_cons, List.length_nil]
    omega

theorem Sound.dispatch {ceiling level : Nat} {q : Queue} (h : Sound ceiling q) (hlevel : 1 ≤ level ∧ level ≤ ceiling)
    (reservedFrom now : Nat) (eligible : Waiter → Bool) :
    Sound ceiling (q.dispatch level reservedFrom now eligible).1 :=
  dispatch_induction (I := fun q' _ => Sound ceiling q') h fun _ _ index _ waiter hq hroom hplaced =>
    hq.start waiter index now hlevel hroom hplaced.bucket_lt hplaced.bucket_free

theorem complete_ids {q q' : Queue} {id : Nat} {runner : Runner} (h : q.complete id = some (runner, q')) :
    q.ids = id ::ₘ q'.ids := by
  obtain ⟨hid, hwaiting, hrunning⟩ := complete_some h
  have hw : q'.waitingIds = q.waitingIds := by
    rw [waitingIds, waitingIds, hwaiting, List.map_map]
    rfl
  have hr : q.runningIds = id ::ₘ q'.runningIds := by
    rw [← hid]
    exact Multiset.coe_eq_coe.mpr (hrunning.map Runner.id)
  rw [ids, ids, hw, hr, Multiset.add_cons]

theorem Sound.complete {ceiling : Nat} {q q' : Queue} {id : Nat} {runner : Runner} (h : Sound ceiling q)
    (hc : q.complete id = some (runner, q')) : Sound ceiling q' := by
  obtain ⟨-, -, hrunning⟩ := complete_some hc
  have hsub : ∀ r ∈ q'.running, r ∈ q.running := fun r hr => hrunning.mem_iff.mpr (List.mem_cons_of_mem _ hr)
  refine ⟨?_, fun r hr => h.bucket_lt r (hsub r hr), fun r hr => h.level_range r (hsub r hr), ?_⟩
  · exact (List.nodup_cons.mp ((hrunning.map Runner.bucket).nodup_iff.mp h.buckets_nodup)).2
  · have hlength := hrunning.length_eq
    have hle := h.running_le
    simp only [List.length_cons] at hlength
    omega

theorem withdraw_ids {q : Queue} (hnodup : q.ids.Nodup) {id : Nat} (hwaiting : q.isWaiting id = true) :
    q.ids = id ::ₘ (q.withdraw id).2.ids := by
  have hids : (q.waiting.map Waiter.id).Nodup :=
    Multiset.coe_nodup.mp (Multiset.nodup_of_le (Multiset.le_add_right _ _) hnodup)
  have hmem : id ∈ q.waiting.map Waiter.id := by simpa [isWaiting] using hwaiting
  have hleft : (q.withdraw id).2.waiting.map Waiter.id = (q.waiting.map Waiter.id).erase id := by
    rw [withdraw, hids.erase_eq_filter, List.filter_map]
    rfl
  rw [ids, ids, ← Multiset.cons_add]
  congr 1
  rw [waitingIds, waitingIds, hleft]
  exact Multiset.coe_eq_coe.mpr (List.perm_cons_erase hmem)

theorem withdraw_fst (q : Queue) (id : Nat) : (q.withdraw id).1 = q.isWaiting id := by
  have hlt := List.length_filter_lt_length_iff_exists (p := fun waiter : Waiter => waiter.id != id) (l := q.waiting)
  have hle := List.length_filter_le (fun waiter : Waiter => waiter.id != id) q.waiting
  rw [withdraw, isWaiting, Bool.eq_iff_iff, List.any_eq_true, bne_iff_ne]
  constructor
  · intro hne
    obtain ⟨waiter, hmem, hid⟩ := hlt.mp (by omega)
    exact ⟨waiter, hmem, by simpa using hid⟩
  · rintro ⟨waiter, hmem, hid⟩
    have := hlt.mpr ⟨waiter, hmem, by simpa using hid⟩
    omega

end Queue

/-! ## Totals -/

def totalCalls (totals : Totals) : Nat := (totals.map fun entry => entry.2.calls).sum

theorem totalCalls_append_new (totals : Totals) (kind : String) :
    totalCalls (totals ++ [(kind, ({} : KindTotals))]) = totalCalls totals := by
  simp [totalCalls]

theorem totalsFor_spec (totals : Totals) (kind : String) :
    (totalsFor totals kind).2 < (totalsFor totals kind).1.length ∧
      totalCalls (totalsFor totals kind).1 = totalCalls totals := by
  unfold totalsFor
  split
  · rename_i index hfind
    exact ⟨(List.findIdx?_eq_some_iff_getElem.mp hfind).1, rfl⟩
  · split_ifs
    · exact ⟨by simp, totalCalls_append_new totals kind⟩
    · split
      · rename_i index hfind
        exact ⟨(List.findIdx?_eq_some_iff_getElem.mp hfind).1, rfl⟩
      · exact ⟨by simp, totalCalls_append_new totals OTHER_KIND⟩

theorem totalCalls_addTotals (totals : Totals) (kind : String) (report : CallReport) (runMs waitedMs : Nat) :
    totalCalls (addTotals totals kind report runMs waitedMs) = totalCalls totals + 1 := by
  obtain ⟨hlt, hcalls⟩ := totalsFor_spec totals kind
  have hat := List.getElem?_eq_getElem hlt
  obtain ⟨rest, hsum, hset⟩ := Accounts.one_account (fun entry : String × KindTotals => entry.2.calls) hat
  have hmodify : addTotals totals kind report runMs waitedMs =
      (totalsFor totals kind).1.set (totalsFor totals kind).2
        ((totalsFor totals kind).1[(totalsFor totals kind).2].1,
          (totalsFor totals kind).1[(totalsFor totals kind).2].2.add report runMs waitedMs) := by
    simp only [addTotals]
    rw [List.modify_eq_set_getElem?, hat]
    rfl
  rw [hmodify, ← hcalls, totalCalls, totalCalls, hset, hsum]
  simp only [KindTotals.add]
  omega

/-! ## One scheduler -/

namespace Scheduler
variable {F : Type} [Meter F]

def ids (s : Scheduler F) : Multiset Nat := s.state.queue.ids

/-- **The invariant of one scheduler.** -/
structure Sound (s : Scheduler F) : Prop where
  tuner : Tuner.Sound s.config.val.ceiling s.state.tuner
  queue : Queue.Sound s.config.val.ceiling s.state.queue

omit [Meter F] in
theorem new_sound (backend : BackendId) (config : ValidConfig) (now : Nat) :
    Sound (new backend config now : Scheduler F) :=
  ⟨Tuner.new_sound _ _, Queue.sound_empty _⟩

omit [Meter F] in
theorem Sound.level_range {s : Scheduler F} (h : Sound s) :
    1 ≤ s.state.tuner.level ∧ s.state.tuner.level ≤ s.config.val.ceiling := by
  have hconfig := SchedulerConfig.validate_ok s.config.property
  have hone := h.tuner.one_le
  have hle := h.tuner.level_le
  omega

theorem step_ids (s : Scheduler F) (state : State F) (now : Nat) (gate : Gate) :
    ({ s with state := s.step state now gate } : Scheduler F).ids = state.queue.ids :=
  Queue.dispatch_ids ..

theorem step_sound {s : Scheduler F} {state : State F} (htuner : Tuner.Sound s.config.val.ceiling state.tuner)
    (hqueue : Queue.Sound s.config.val.ceiling state.queue) (now : Nat) (gate : Gate) :
    Sound { s with state := s.step state now gate } := by
  have hpoll := (Tuner.poll_step htuner now (state.queue.waiting.length + state.queue.running.length) gate.paused).1
  have hconfig := SchedulerConfig.validate_ok s.config.property
  have hone := hpoll.one_le
  have hle := hpoll.level_le
  refine ⟨?_, hqueue.dispatch ⟨hone, by omega⟩ _ _ _⟩
  exact run_invariant Tuner.onDispatch (fun (t : Tuner F) id (h : Tuner.Sound s.config.val.ceiling t) =>
    (Tuner.onDispatch_step h id).1) hpoll _

/-- What every operation keeps, with the completions it counts. -/
structure Changes (s s' : Scheduler F) (completions : Nat) : Prop where
  backend_eq : s'.backend = s.backend
  config_eq : s'.config = s.config
  sound : s.Sound → s'.Sound
  calls_eq : totalCalls s'.state.totals = totalCalls s.state.totals + completions

omit [Meter F] in
theorem Changes.refl (s : Scheduler F) : Changes s s 0 := ⟨rfl, rfl, id, rfl⟩

theorem changes_step {s : Scheduler F} {state : State F} (htuner : state.tuner = s.state.tuner)
    (hrunning : state.queue.running = s.state.queue.running) (htotals : state.totals = s.state.totals) (now : Nat)
    (gate : Gate) : Changes s { s with state := s.step state now gate } 0 where
  backend_eq := rfl
  config_eq := rfl
  sound h := step_sound (htuner ▸ h.tuner) (h.queue.of_running hrunning) now gate
  calls_eq := by
    change totalCalls state.totals = _
    rw [htotals, Nat.add_zero]

omit [Meter F] in
theorem changes_queue {s : Scheduler F} {queue : Queue} (hrunning : queue.running = s.state.queue.running) :
    Changes s { s with state := { s.state with queue := queue } } 0 :=
  ⟨rfl, rfl, fun h => ⟨h.tuner, h.queue.of_running hrunning⟩, rfl⟩

theorem enqueue_spec {s s' : Scheduler F} {callMeta : CallMeta} {id now : Nat} {gate : Gate}
    (h : s.enqueue callMeta id now gate = .ok s') :
    s.state.queue.waiting.length < s.config.val.maxWaiting ∧ Changes s s' 0 ∧ s'.ids = id ::ₘ s.ids := by
  unfold enqueue at h
  split_ifs at h with hfull
  obtain rfl := Except.ok.inj h
  refine ⟨not_le.mp hfull, changes_step (by rfl) (by rfl) (by rfl) now gate, ?_⟩
  exact (step_ids ..).trans (Queue.push_ids ..)

theorem place_spec (s : Scheduler F) (hnodup : s.ids.Nodup) (id now : Nat) (gate : Gate) :
    Changes s (s.place id now gate).2 0 ∧
      ((s.place id now gate).1 = some .stale ∧ s.ids = id ::ₘ (s.place id now gate).2.ids ∨
        (s.place id now gate).1 ≠ some .stale ∧ (s.place id now gate).2.ids = s.ids) := by
  unfold place
  cases s.state.queue.runningLevel id with
  | some level => exact ⟨Changes.refl s, .inr ⟨by simp, rfl⟩⟩
  | none =>
    simp only
    split_ifs with hwaiting hstale
    · exact ⟨Changes.refl s, .inr ⟨by simp, rfl⟩⟩
    · exact ⟨changes_queue rfl, .inl ⟨rfl, Queue.withdraw_ids hnodup (by simpa using hwaiting)⟩⟩
    · refine ⟨changes_step (by rfl) (by rfl) (by rfl) now gate, .inr ⟨?_, step_ids ..⟩⟩
      split <;> simp

omit [Meter F] in
theorem abandon_spec (s : Scheduler F) (hnodup : s.ids.Nodup) (id : Nat) :
    Changes s (s.abandon id).2 0 ∧
      ((s.abandon id).1 = some false ∧ s.ids = id ::ₘ (s.abandon id).2.ids ∨
        (s.abandon id).1 ≠ some false ∧ (s.abandon id).2 = s) := by
  unfold abandon
  have hfst := s.state.queue.withdraw_fst id
  cases hw : s.state.queue.withdraw id with
  | mk taken queue =>
    cases taken with
    | true =>
      rw [hw] at hfst
      have hids := Queue.withdraw_ids hnodup hfst.symm
      rw [hw] at hids
      have hrunning : queue.running = s.state.queue.running := by
        have h := congrArg (fun result => result.2.running) hw
        exact h.symm
      exact ⟨changes_queue hrunning, .inl ⟨rfl, hids⟩⟩
    | false =>
      refine ⟨Changes.refl s, .inr ⟨?_, rfl⟩⟩
      simp only
      split_ifs <;> simp

theorem finish_spec (s : Scheduler F) (id : Nat) (report : CallReport) (now : Nat) (gate : Gate) :
    (s.state.queue.complete id = none ∧ s.finish id report now gate = s) ∨
      ((s.state.queue.complete id).isSome ∧ Changes s (s.finish id report now gate) 1 ∧
        s.ids = id ::ₘ (s.finish id report now gate).ids) := by
  unfold finish
  cases hc : s.state.queue.complete id with
  | none => exact .inl ⟨rfl, rfl⟩
  | some result =>
    obtain ⟨runner, queue⟩ := result
    simp only
    refine .inr ⟨rfl, ⟨rfl, rfl, fun h => ?_, ?_⟩, ?_⟩
    · exact step_sound (Tuner.onComplete_step h.tuner _).1 (h.queue.complete hc) now gate
    · exact totalCalls_addTotals ..
    · rw [step_ids]
      exact Queue.complete_ids hc

omit [Meter F] in
theorem holdReservedFor_spec (s : Scheduler F) (duration now : Nat) :
    Changes s (s.holdReservedFor duration now) 0 ∧ (s.holdReservedFor duration now).ids = s.ids :=
  ⟨⟨rfl, rfl, fun h => ⟨h.tuner, h.queue⟩, rfl⟩, rfl⟩

theorem clearReservedHold_spec (s : Scheduler F) (now : Nat) (gate : Gate) :
    Changes s (s.clearReservedHold now gate) 0 ∧ (s.clearReservedHold now gate).ids = s.ids := by
  unfold clearReservedHold
  cases s.state.reservedHoldUntil with
  | none => exact ⟨Changes.refl s, rfl⟩
  | some deadline => exact ⟨changes_step (by rfl) (by rfl) (by rfl) now gate, step_ids ..⟩

omit [Meter F] in
theorem leave_spec {s : Scheduler F} {position : Nat} {waiter : Waiter}
    (h : s.state.queue.waiting[position]? = some waiter) :
    Changes s (s.leave position) 0 ∧ s.ids = waiter.id ::ₘ (s.leave position).ids := by
  refine ⟨changes_queue rfl, ?_⟩
  rw [ids, Queue.ids, Queue.waitingIds_of_perm (Queue.perm_eraseIdx h), Multiset.cons_add]
  rfl

theorem join_spec (s : Scheduler F) (waiter : Waiter) (now : Nat) (gate : Gate) :
    Changes s (s.join waiter now gate) 0 ∧ (s.join waiter now gate).ids = waiter.id ::ₘ s.ids := by
  refine ⟨changes_step (by rfl) (by rfl) (by rfl) now gate, ?_⟩
  rw [join, step_ids, Queue.ids, Queue.waitingIds_of_perm List.perm_append_comm, Multiset.cons_add]
  rfl

end Scheduler

end Cuca.Services
