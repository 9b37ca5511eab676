import Cuca.Lib.Transition
import Cuca.Services.Queue

/-!
# Aging: the value of a waiting call

One queue under any sequence of pushes, dispatches, withdrawals and completions, with the arrivals and the completions
counted beside it. A value is the initial value of the call's priority plus the completions since it arrived, so the
order of two waiting calls is fixed by their arrivals.

* `Aged` : the invariant, with every arrival recorded;
* `order_stable` : the order of two calls that stay is the order they have had;
* `overtakes_only` : a later arrival is chosen first only if its priority beats the other's plus the completions between;
* `aging_run` : all of it over every run.
-/

namespace Cuca.Services
open Transition

inductive QueueOp where
  /-- `skipped` ids went to other queues since this queue's last arrival. -/
  | push (skipped : Nat) (callMeta : CallMeta) (now : Nat)
  | dispatch (level reservedFrom now : Nat) (eligible : Waiter → Bool)
  | withdraw (id : Nat)
  | complete (id : Nat)

/-- One arrival: the call, and the completions counted before it. -/
structure Arrival where
  id : Nat
  callMeta : CallMeta
  completions : Nat
deriving DecidableEq, Repr

/-- A queue with its history: the process-wide id counter, the completions and the arrivals so far. -/
structure QueueRun where
  queue : Queue
  nextWaiter : Nat
  completions : Nat
  arrivals : List Arrival
deriving DecidableEq, Repr

namespace QueueRun

def empty : QueueRun := ⟨.empty, 0, 0, []⟩

def step (s : QueueRun) : QueueOp → QueueRun
  | .push skipped callMeta now =>
    let id := s.nextWaiter + skipped
    { s with queue := s.queue.push id callMeta now, nextWaiter := id + 1
             arrivals := s.arrivals ++ [⟨id, callMeta, s.completions⟩] }
  | .dispatch level reservedFrom now eligible =>
    { s with queue := (s.queue.dispatch level reservedFrom now eligible).1 }
  | .withdraw id => { s with queue := (s.queue.withdraw id).2 }
  | .complete id =>
    match s.queue.complete id with
    | none => s
    | some (_, queue) => { s with queue := queue, completions := s.completions + 1 }

/-! ## The invariant -/

/-- The waiter came with this arrival and has aged by one per completion since. -/
structure Matches (completions : Nat) (waiter : Waiter) (a : Arrival) : Prop where
  id_eq : a.id = waiter.id
  meta_eq : a.callMeta = waiter.callMeta
  value_eq : waiter.value + a.completions = a.callMeta.initialValue + completions

structure Aged (s : QueueRun) : Prop where
  sorted : s.arrivals.Pairwise fun a b => a.id < b.id ∧ a.completions ≤ b.completions
  bounded : ∀ a ∈ s.arrivals, a.id < s.nextWaiter ∧ a.completions ≤ s.completions
  matched : ∀ waiter ∈ s.queue.waiting, ∃ a ∈ s.arrivals, Matches s.completions waiter a
  nodup : (s.queue.waiting.map Waiter.id).Nodup

theorem aged_empty : Aged empty := ⟨.nil, by simp [empty], by simp [empty, Queue.empty], List.nodup_nil⟩

theorem Aged.shrink {s : QueueRun} (h : Aged s) {queue : Queue} (hsub : queue.waiting.Sublist s.queue.waiting) :
    Aged { s with queue := queue } :=
  ⟨h.sorted, h.bounded, fun w hw => h.matched w (hsub.subset hw), h.nodup.sublist (hsub.map _)⟩

theorem Aged.push {s : QueueRun} (h : Aged s) (skipped : Nat) (callMeta : CallMeta) (now : Nat) :
    Aged (s.step (.push skipped callMeta now)) := by
  refine ⟨?_, ?_, ?_, ?_⟩
  · refine List.pairwise_append.mpr ⟨h.sorted, List.pairwise_singleton _ _, fun a ha b hb => ?_⟩
    obtain rfl := List.mem_singleton.mp hb
    have hbound := h.bounded a ha
    exact ⟨by simp only; omega, hbound.2⟩
  · intro a ha
    rcases List.mem_append.mp ha with ha | ha
    · have hbound := h.bounded a ha
      exact ⟨by simp only [step]; omega, hbound.2⟩
    · obtain rfl := List.mem_singleton.mp ha
      exact ⟨by simp [step], Nat.le_refl _⟩
  · intro w hw
    rcases List.mem_append.mp hw with hw | hw
    · obtain ⟨a, ha, hmatch⟩ := h.matched w hw
      exact ⟨a, List.mem_append_left _ ha, hmatch⟩
    · obtain rfl := List.mem_singleton.mp hw
      exact ⟨_, List.mem_append_right _ List.mem_cons_self, rfl, rfl, rfl⟩
  · have hnew : s.nextWaiter + skipped ∉ s.queue.waiting.map Waiter.id := by
      intro hmem
      obtain ⟨w, hw, hid⟩ := List.mem_map.mp hmem
      obtain ⟨a, ha, hmatch⟩ := h.matched w hw
      have hbound := (h.bounded a ha).1
      rw [hmatch.id_eq, hid] at hbound
      omega
    simp only [step, Queue.push, List.map_append, List.map_cons, List.map_nil]
    exact List.nodup_append.mpr ⟨h.nodup, by simp, by simpa using hnew⟩

theorem Aged.complete {s : QueueRun} (h : Aged s) (id : Nat) : Aged (s.step (.complete id)) := by
  cases hc : s.queue.complete id with
  | none => simpa only [QueueRun.step, hc] using h
  | some result =>
    obtain ⟨runner, queue⟩ := result
    obtain ⟨-, hwaiting, -⟩ := Queue.complete_some hc
    simp only [QueueRun.step, hc]
    refine ⟨h.sorted, fun a ha => ?_, ?_, ?_⟩
    · have hbound := h.bounded a ha
      exact ⟨hbound.1, by simp only; omega⟩
    · intro w hw
      rw [hwaiting] at hw
      obtain ⟨old, hold, rfl⟩ := List.mem_map.mp hw
      obtain ⟨a, ha, hmatch⟩ := h.matched old hold
      have hvalue := hmatch.value_eq
      exact ⟨a, ha, hmatch.id_eq, hmatch.meta_eq, by simp only [Waiter.aged]; omega⟩
    · have hids : Waiter.id ∘ Waiter.aged = Waiter.id := rfl
      rw [hwaiting, List.map_map, hids]
      exact h.nodup

theorem Aged.next {s : QueueRun} (h : Aged s) (op : QueueOp) : Aged (s.step op) := by
  cases op with
  | push skipped callMeta now => exact h.push skipped callMeta now
  | dispatch level reservedFrom now eligible => exact h.shrink (Queue.dispatch_waiting_sublist ..)
  | withdraw id => exact h.shrink List.filter_sublist
  | complete id => exact h.complete id

theorem aged_run (ops : List QueueOp) : Aged (run step empty ops) :=
  run_invariant step (fun _ op h => h.next op) aged_empty ops

/-! ## What follows for two calls -/

/-- The waiting call `w` came with the arrival `a`. -/
structure Waits (s : QueueRun) (w : Waiter) (a : Arrival) : Prop where
  waiting : w ∈ s.queue.waiting
  arrival : a ∈ s.arrivals
  id_eq : a.id = w.id

theorem Aged.arrivals_trichotomy {s : QueueRun} (h : Aged s) {a b : Arrival} (ha : a ∈ s.arrivals)
    (hb : b ∈ s.arrivals) : a = b ∨ (a.id < b.id ∧ a.completions ≤ b.completions) ∨
      (b.id < a.id ∧ b.completions ≤ a.completions) := by
  have hsorted := List.pairwise_iff_getElem.mp h.sorted
  obtain ⟨i, hi, rfl⟩ := List.mem_iff_getElem.mp ha
  obtain ⟨j, hj, rfl⟩ := List.mem_iff_getElem.mp hb
  rcases Nat.lt_trichotomy i j with hlt | rfl | hlt
  · exact .inr (.inl (hsorted i j hi hj hlt))
  · exact .inl rfl
  · exact .inr (.inr (hsorted j i hj hi hlt))

theorem Aged.waits_matches {s : QueueRun} (h : Aged s) {w : Waiter} {a : Arrival} (hw : Waits s w a) :
    Matches s.completions w a := by
  obtain ⟨a', ha', hmatch⟩ := h.matched w hw.waiting
  have hid : a.id = a'.id := hw.id_eq.trans hmatch.id_eq.symm
  rcases h.arrivals_trichotomy hw.arrival ha' with rfl | hlt | hlt
  · exact hmatch
  · omega
  · omega

/-- **The value law.** -/
theorem Aged.value_eq {s : QueueRun} (h : Aged s) {w : Waiter} {a : Arrival} (hw : Waits s w a) :
    a.completions ≤ s.completions ∧ w.value = w.callMeta.initialValue + (s.completions - a.completions) := by
  have hmatch := h.waits_matches hw
  have hle := (h.bounded a hw.arrival).2
  have hvalue := hmatch.value_eq
  rw [hmatch.meta_eq] at hvalue
  exact ⟨hle, by omega⟩

theorem arrivals_grow (s : QueueRun) (more : List QueueOp) : s.arrivals ⊆ (run step s more).arrivals := by
  refine run_mono (R := fun s s' => s.arrivals ⊆ s'.arrivals) step (fun _ => List.Subset.refl _)
    (fun _ _ _ => List.Subset.trans) (fun s op => ?_) s more
  cases op with
  | push skipped callMeta now => exact List.subset_append_left _ _
  | dispatch level reservedFrom now eligible => exact List.Subset.refl _
  | withdraw id => exact List.Subset.refl _
  | complete id =>
    simp only [step]
    split <;> exact List.Subset.refl _

theorem compare_congr {a b a' b' : Nat} (h : a + b' = a' + b) : compare a b = compare a' b' := by
  rw [Nat.compare_eq_ite_lt, Nat.compare_eq_ite_lt]
  have hlt : a < b ↔ a' < b' := by omega
  have hgt : b < a ↔ b' < a' := by omega
  simp only [hlt, hgt]

/-- **The order of two calls never changes** while both wait. -/
theorem Aged.order_stable {s : QueueRun} (h : Aged s) (more : List QueueOp) {x y x' y' : Waiter}
    (hx : x ∈ s.queue.waiting) (hy : y ∈ s.queue.waiting) (hx' : x' ∈ (run step s more).queue.waiting)
    (hy' : y' ∈ (run step s more).queue.waiting) (hidx : x'.id = x.id) (hidy : y'.id = y.id) :
    x'.order y' = x.order y := by
  have hlater : Aged (run step s more) := run_invariant step (fun _ op h => h.next op) h more
  have hgrow := arrivals_grow s more
  obtain ⟨a, ha, hxa⟩ := h.matched x hx
  obtain ⟨b, hb, hyb⟩ := h.matched y hy
  have hxa' := hlater.waits_matches ⟨hx', hgrow ha, hxa.id_eq.trans hidx.symm⟩
  have hyb' := hlater.waits_matches ⟨hy', hgrow hb, hyb.id_eq.trans hidy.symm⟩
  have hvalues : x'.value + y.value = x.value + y'.value := by
    have := hxa.value_eq
    have := hyb.value_eq
    have := hxa'.value_eq
    have := hyb'.value_eq
    omega
  rw [Waiter.order, Waiter.order, compare_congr hvalues, hidx, hidy]

/-- **Overtaking**: a later arrival that is not after an earlier one has the priority for it. -/
theorem Aged.overtakes_only {s : QueueRun} (h : Aged s) {a b : Waiter} {aa ab : Arrival} (ha : Waits s a aa)
    (hb : Waits s b ab) (hlater : aa.id < ab.id) (hle : (a.order b).isLE = true) :
    a.callMeta.initialValue + (ab.completions - aa.completions) < b.callMeta.initialValue := by
  obtain ⟨hac, hav⟩ := h.value_eq ha
  obtain ⟨hbc, hbv⟩ := h.value_eq hb
  have hida := ha.id_eq
  have hidb := hb.id_eq
  have hvalue : a.value < b.value := by
    rcases Waiter.order_isLE.mp hle with hlt | ⟨-, hid⟩
    · exact hlt
    · omega
  rcases h.arrivals_trichotomy ha.arrival hb.arrival with rfl | hab | hab
  · omega
  · omega
  · omega

theorem Aged.dispatch_overtakes_only {s : QueueRun} (h : Aged s) {level reservedFrom now : Nat}
    {eligible : Waiter → Bool} {a b : Waiter} {aa ab : Arrival} (ha : Waits s a aa) (hb : Waits s b ab)
    (hel : eligible a = true) (hlane : level < reservedFrom ∨ a.callMeta.lane = b.callMeta.lane)
    (hlater : aa.id < ab.id) {before after : List Nat}
    (hstarted : (s.queue.dispatch level reservedFrom now eligible).2 = before ++ b.id :: after)
    (hfirst : a.id ∉ before) :
    a.callMeta.initialValue + (ab.completions - aa.completions) < b.callMeta.initialValue := by
  refine h.overtakes_only ha hb hlater (Ordering.ne_gt_iff_isLE.mp fun hgt => hfirst ?_)
  exact Queue.dispatch_order h.nodup ha.waiting hb.waiting hel hlane hgt before after hstarted

/-! ## Every run -/

/-- **Aging over every run.** The value law, the stable order, who overtakes whom, and no starvation: a call that
arrives after an eligible waiting one has waited through 10000 completions does not start before it in its lane. -/
theorem aging_run (ops : List QueueOp) :
    let s := run step empty ops
    (∀ w ∈ s.queue.waiting, ∃ a, Waits s w a) ∧
    (∀ w a, Waits s w a →
      a.completions ≤ s.completions ∧ w.value = w.callMeta.initialValue + (s.completions - a.completions)) ∧
    (∀ more, ∀ x ∈ s.queue.waiting, ∀ y ∈ s.queue.waiting, ∀ x' ∈ (run step s more).queue.waiting,
      ∀ y' ∈ (run step s more).queue.waiting, x'.id = x.id → y'.id = y.id → x'.order y' = x.order y) ∧
    (∀ eligible index a b aa ab, s.queue.best eligible = some index → s.queue.waiting[index]? = some b →
      Waits s a aa → Waits s b ab → eligible a = true → aa.id < ab.id →
      a.callMeta.initialValue + (ab.completions - aa.completions) < b.callMeta.initialValue) ∧
    (∀ level reservedFrom now eligible a b aa ab, Waits s a aa → Waits s b ab → eligible a = true →
      (level < reservedFrom ∨ a.callMeta.lane = b.callMeta.lane) → aa.id < ab.id →
      ∀ before after, (s.queue.dispatch level reservedFrom now eligible).2 = before ++ b.id :: after →
        (aa.completions + 10000 ≤ ab.completions → a.id ∈ before) ∧
        (a.id ∉ before →
          a.callMeta.initialValue + (ab.completions - aa.completions) < b.callMeta.initialValue)) := by
  intro s
  have h : Aged s := aged_run ops
  refine ⟨?_, fun w a hw => h.value_eq hw, ?_, ?_, ?_⟩
  · intro w hw
    obtain ⟨a, ha, hmatch⟩ := h.matched w hw
    exact ⟨a, hw, ha, hmatch.id_eq⟩
  · exact fun more x hx y hy x' hx' y' hy' hidx hidy => h.order_stable more hx hy hx' hy' hidx hidy
  · intro eligible index a b aa ab hbest hat ha hb hel hlater
    obtain ⟨chosen, hchosen⟩ := Queue.best_some hbest
    obtain rfl : chosen = b := Option.some.inj (hchosen.at_index.symm.trans hat)
    exact h.overtakes_only ha hb hlater (hchosen.first a ha.waiting hel)
  · intro level reservedFrom now eligible a b aa ab ha hb hel hlane hlater before after hstarted
    have honly := fun hfirst => h.dispatch_overtakes_only ha hb hel hlane hlater hstarted hfirst
    refine ⟨fun hgap => ?_, honly⟩
    by_contra hfirst
    have hlt := honly hfirst
    have hone := a.callMeta.initialValue_bounds
    have hcap := b.callMeta.initialValue_bounds
    omega

/-! ## A later arrival from before the completions -/

def plain (priority : Priority) : CallMeta := CallMeta.new "call" priority ""

def urgentOnly (w : Waiter) : Bool := w.callMeta.effectivePriority = .urgent

def urgentRound (id : Nat) : List QueueOp :=
  [.push 0 (plain .urgent) 0, .dispatch 1 4 0 urgentOnly, .complete id]

/-- A low call, then a high one, then `n` urgent calls that run past both. -/
def pausedRun (n : Nat) : List QueueOp :=
  [.push 0 (plain .low) 0, .push 0 (plain .high) 0] ++ (List.range n).flatMap fun i => urgentRound (2 + i)

theorem urgentRound_state (n low high : Nat) (arrivals : List Arrival) :
    run step ⟨⟨[⟨0, plain .low, low, 0⟩, ⟨1, plain .high, high, 0⟩], []⟩, 2 + n, n, arrivals⟩
        (urgentRound (2 + n)) =
      ⟨⟨[⟨0, plain .low, low + 1, 0⟩, ⟨1, plain .high, high + 1, 0⟩], []⟩, 2 + (n + 1), n + 1,
        arrivals ++ [⟨2 + n, plain .urgent, n⟩]⟩ := by
  have hdispatch : (Queue.dispatch ⟨[⟨0, plain .low, low, 0⟩, ⟨1, plain .high, high, 0⟩,
      ⟨2 + n, plain .urgent, 10000, 0⟩], []⟩ 1 4 0 urgentOnly).1 =
      ⟨[⟨0, plain .low, low, 0⟩, ⟨1, plain .high, high, 0⟩], [⟨2 + n, plain .urgent, 10000, 0, 0, 0, 1⟩]⟩ := rfl
  have hcomplete : Queue.complete ⟨[⟨0, plain .low, low, 0⟩, ⟨1, plain .high, high, 0⟩],
      [⟨2 + n, plain .urgent, 10000, 0, 0, 0, 1⟩]⟩ (2 + n) = some (⟨2 + n, plain .urgent, 10000, 0, 0, 0, 1⟩,
      ⟨[⟨0, plain .low, low + 1, 0⟩, ⟨1, plain .high, high + 1, 0⟩], []⟩) := by
    simp [Queue.complete, Waiter.aged]
  have hpush : Queue.push ⟨[⟨0, plain .low, low, 0⟩, ⟨1, plain .high, high, 0⟩], []⟩ (2 + n + 0) (plain .urgent) 0 =
      ⟨[⟨0, plain .low, low, 0⟩, ⟨1, plain .high, high, 0⟩, ⟨2 + n, plain .urgent, 10000, 0⟩], []⟩ := rfl
  simp only [urgentRound, run_cons, run_nil, step, hpush, hdispatch, hcomplete]
  rfl

theorem pausedRun_state (n : Nat) : ∃ arrivals,
    run step empty (pausedRun n) =
      ⟨⟨[⟨0, plain .low, 1 + n, 0⟩, ⟨1, plain .high, 100 + n, 0⟩], []⟩, 2 + n, n,
        ⟨0, plain .low, 0⟩ :: ⟨1, plain .high, 0⟩ :: arrivals⟩ := by
  induction n with
  | zero => exact ⟨[], rfl⟩
  | succ n ih =>
    obtain ⟨arrivals, hrun⟩ := ih
    refine ⟨arrivals ++ [⟨2 + n, plain .urgent, n⟩], ?_⟩
    have hsplit : pausedRun (n + 1) = pausedRun n ++ urgentRound (2 + n) := by
      rw [pausedRun, pausedRun, List.range_succ, List.flatMap_append, List.append_assoc, List.flatMap_singleton]
    rw [hsplit, run_append, hrun, urgentRound_state]
    rfl

/-- The high call came later, with no completion between them: after 10000 completions it still goes first. -/
theorem high_starts_before_aged_low :
    ∃ a b aa ab, Waits (run step empty (pausedRun 10000)) a aa ∧ Waits (run step empty (pausedRun 10000)) b ab ∧
      aa.id < ab.id ∧ aa.completions + 10000 ≤ (run step empty (pausedRun 10000)).completions ∧
      a.callMeta.lane = b.callMeta.lane ∧
      ((run step empty (pausedRun 10000)).queue.dispatch 1 4 0 fun _ => true).2 = [b.id] := by
  obtain ⟨arrivals, hrun⟩ := pausedRun_state 10000
  rw [hrun]
  exact ⟨_, _, _, _, ⟨List.mem_cons_self, List.mem_cons_self, rfl⟩,
    ⟨List.mem_cons_of_mem _ List.mem_cons_self, List.mem_cons_of_mem _ List.mem_cons_self, rfl⟩, by decide,
    Nat.le_refl _, rfl, rfl⟩

end QueueRun
end Cuca.Services
