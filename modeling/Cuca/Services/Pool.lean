import Cuca.Services.SchedulerInv
import Mathlib.Algebra.Order.BigOperators.Group.List
import Mathlib.Data.Multiset.OrderedMonoid

/-!
# A pool of schedulers

The schedulers of one pool and the process-wide id counter, under any sequence of their lock-protected operations. Every
operation has a clock reading and a gate of its own. What an operation did to a call is an event of the log.

* `Pool.step` : one operation, and its event;
* `PoolRun.Sound` : every accepted id is held by a member, completed or withdrawn, exactly once;
* `pool_run` : the places of every call and the buckets of every member, over every run.
-/

namespace Cuca.Services
open Transition

/-! ## The pool -/

structure Pool (F : Type) where
  members : List (Scheduler F)
  nextWaiter : Nat

/-- What one operation did to a call. -/
inductive PoolEvent where
  | accepted (id : Nat)
  | completed (member id : Nat)
  | withdrawn (id : Nat)
deriving DecidableEq, Repr

inductive PoolOp where
  | insert (backend : BackendId) (config : ValidConfig) (now : Nat)
  | enqueue (member : Nat) (callMeta : CallMeta) (now : Nat) (gate : Gate)
  | place (member id now : Nat) (gate : Gate)
  | abandon (member id : Nat)
  | finish (member id : Nat) (report : CallReport) (now : Nat) (gate : Gate)
  | move (source target : Nat) (targetBit : UInt64) (now : Nat) (gate : Gate)
  | hold (member duration now : Nat)
  | clear (member now : Nat) (gate : Gate)
  /-- Another pool of the process takes ids. -/
  | elsewhere (taken : Nat)

namespace Pool
variable {F : Type}

def empty : Pool F := ⟨[], 0⟩

def set (p : Pool F) (member : Nat) (s : Scheduler F) : Pool F := { p with members := p.members.set member s }

/-- An operation on one member, if there is such a member. -/
def onMember (p : Pool F) (member : Nat) (op : Scheduler F → Scheduler F × Option PoolEvent) :
    Pool F × Option PoolEvent :=
  match p.members[member]? with
  | none => (p, none)
  | some s => (p.set member (op s).1, (op s).2)

/-- `move_waiting` between two members; `none` when nothing moved. -/
def move [Meter F] (p : Pool F) (source target : Nat) (targetBit : UInt64) (now : Nat) (gate : Gate) :
    Option (Pool F) :=
  match p.members[source]?, p.members[target]? with
  | some a, some b =>
    if source = target then none
    else (moveWaiting a b targetBit now gate).map fun (a', b') => (p.set source a').set target b'
  | _, _ => none

def step [Meter F] (p : Pool F) : PoolOp → Pool F × Option PoolEvent
  | .insert backend config now => ({ p with members := p.members ++ [.new backend config now] }, none)
  | .enqueue member callMeta now gate =>
    match p.members[member]? with
    | none => (p, none)
    | some s =>
      match s.enqueue callMeta p.nextWaiter now gate with
      | .error _ => (p, none)
      | .ok s' => ({ p.set member s' with nextWaiter := p.nextWaiter + 1 }, some (.accepted p.nextWaiter))
  | .place member id now gate =>
    p.onMember member fun s =>
      ((s.place id now gate).2, if (s.place id now gate).1 = some .stale then some (.withdrawn id) else none)
  | .abandon member id =>
    p.onMember member fun s =>
      ((s.abandon id).2, if (s.abandon id).1 = some false then some (.withdrawn id) else none)
  | .finish member id report now gate =>
    p.onMember member fun s =>
      (s.finish id report now gate,
        if (s.state.queue.complete id).isSome then some (.completed member id) else none)
  | .move source target targetBit now gate => ((p.move source target targetBit now gate).getD p, none)
  | .hold member duration now => p.onMember member fun s => (s.holdReservedFor duration now, none)
  | .clear member now gate => p.onMember member fun s => (s.clearReservedHold now gate, none)
  | .elsewhere taken => ({ p with nextWaiter := p.nextWaiter + taken }, none)

/-- The members of a move, and the call it takes. -/
structure Moves (p : Pool F) (source target : Nat) (targetBit : UInt64) (gate : Gate) (a b : Scheduler F)
    (position : Nat) (waiter : Waiter) : Prop where
  source_at : p.members[source]? = some a
  target_at : p.members[target]? = some b
  ne : source ≠ target
  taken : Taken a targetBit gate position waiter

theorem Moves.unique {p : Pool F} {source target : Nat} {targetBit : UInt64} {gate : Gate} {a b a' b' : Scheduler F}
    {position position' : Nat} {waiter waiter' : Waiter}
    (h : p.Moves source target targetBit gate a b position waiter)
    (h' : p.Moves source target targetBit gate a' b' position' waiter') :
    a = a' ∧ b = b' ∧ position = position' ∧ waiter = waiter' := by
  obtain rfl : a = a' := Option.some.inj (h.source_at.symm.trans h'.source_at)
  obtain rfl : b = b' := Option.some.inj (h.target_at.symm.trans h'.target_at)
  obtain rfl : position = position' := Option.some.inj (h.taken.best_eq.symm.trans h'.taken.best_eq)
  exact ⟨rfl, rfl, rfl, Option.some.inj (h.taken.at_index.symm.trans h'.taken.at_index)⟩

theorem move_of_moves [Meter F] {p : Pool F} {source target : Nat} {targetBit : UInt64} {gate : Gate}
    {a b : Scheduler F} {position : Nat} {waiter : Waiter}
    (h : p.Moves source target targetBit gate a b position waiter) (now : Nat) :
    p.move source target targetBit now gate =
      some ((p.set source (a.leave position)).set target (b.join waiter now gate)) := by
  rw [move, h.source_at, h.target_at]
  simp only [if_neg h.ne, moveWaiting_of_taken h.taken, Option.map_some]

theorem move_some [Meter F] {p p' : Pool F} {source target : Nat} {targetBit : UInt64} {now : Nat} {gate : Gate}
    (h : p.move source target targetBit now gate = some p') :
    ∃ a b position waiter, p.Moves source target targetBit gate a b position waiter ∧
      p' = (p.set source (a.leave position)).set target (b.join waiter now gate) := by
  unfold move at h
  split at h
  · rename_i a b ha hb
    split_ifs at h with hne
    obtain ⟨⟨a', b'⟩, hmove, rfl⟩ := Option.map_eq_some_iff.mp h
    obtain ⟨position, waiter, htaken, rfl, rfl⟩ := moveWaiting_some hmove
    exact ⟨a, b, position, waiter, ⟨ha, hb, hne, htaken⟩, rfl⟩
  · cases h

def held (p : Pool F) : Multiset Nat := (p.members.map Scheduler.ids).sum

def waitingIds (p : Pool F) : Multiset Nat := (p.members.map fun s => s.state.queue.waitingIds).sum

def runningIds (p : Pool F) : Multiset Nat := (p.members.map fun s => s.state.queue.runningIds).sum

/-- The completed calls counted in the totals of member `i`. -/
def callsAt (p : Pool F) (i : Nat) : Nat :=
  match p.members[i]? with
  | none => 0
  | some s => totalCalls s.state.totals

theorem callsAt_of_mem {p : Pool F} {i : Nat} {s : Scheduler F} (h : p.members[i]? = some s) :
    p.callsAt i = totalCalls s.state.totals := by
  rw [callsAt, h]

theorem callsAt_set {p : Pool F} {i : Nat} {s : Scheduler F} (h : p.members[i]? = some s) (s' : Scheduler F) (j : Nat) :
    (p.set i s').callsAt j = if i = j then totalCalls s'.state.totals else p.callsAt j := by
  have hlt : i < p.members.length := (List.getElem?_eq_some_iff.mp h).1
  unfold callsAt
  split_ifs with hij
  · subst hij
    simp [set, hlt]
  · rw [set, List.getElem?_set_ne hij]

theorem callsAt_insert (p : Pool F) (backend : BackendId) (config : ValidConfig) (now i : Nat) :
    ({ p with members := p.members ++ [.new backend config now] } : Pool F).callsAt i = p.callsAt i := by
  unfold callsAt
  rcases Nat.lt_trichotomy i p.members.length with hlt | rfl | hgt
  · simp only [List.getElem?_append_left hlt]
  · simp [totalCalls, Scheduler.new]
  · have hlength : (p.members ++ [Scheduler.new backend config now]).length ≤ i := by
      rw [List.length_append, List.length_singleton]
      omega
    simp only [List.getElem?_eq_none hlength, List.getElem?_eq_none (Nat.le_of_lt hgt)]

theorem held_eq (p : Pool F) : p.held = p.waitingIds + p.runningIds := by
  change (p.members.map fun s => s.state.queue.waitingIds + s.state.queue.runningIds).sum = _
  exact List.sum_map_add

theorem ids_le_held {p : Pool F} {i : Nat} {s : Scheduler F} (h : p.members[i]? = some s) : s.ids ≤ p.held :=
  List.le_sum_of_mem (List.mem_map_of_mem (List.mem_of_getElem? h))

end Pool

/-! ## The log -/

namespace PoolEvent

def acceptedIds : PoolEvent → Multiset Nat
  | accepted id => {id}
  | _ => 0

def completedIds : PoolEvent → Multiset Nat
  | completed _ id => {id}
  | _ => 0

def withdrawnIds : PoolEvent → Multiset Nat
  | withdrawn id => {id}
  | _ => 0

def completionsAt (member : Nat) : PoolEvent → Nat
  | completed m _ => if m = member then 1 else 0
  | _ => 0

end PoolEvent

/-- A pool and everything that has happened to its calls. -/
structure PoolRun (F : Type) where
  pool : Pool F
  log : List PoolEvent

namespace PoolRun
variable {F : Type}

def empty : PoolRun F := ⟨.empty, []⟩

def step [Meter F] (r : PoolRun F) (op : PoolOp) : PoolRun F := ⟨(r.pool.step op).1, r.log ++ (r.pool.step op).2.toList⟩

def accepted (r : PoolRun F) : Multiset Nat := (r.log.map PoolEvent.acceptedIds).sum

def completed (r : PoolRun F) : Multiset Nat := (r.log.map PoolEvent.completedIds).sum

def withdrawn (r : PoolRun F) : Multiset Nat := (r.log.map PoolEvent.withdrawnIds).sum

def completionsAt (r : PoolRun F) (member : Nat) : Nat := (r.log.map (PoolEvent.completionsAt member)).sum

/-- **The invariant of a pool.** -/
structure Sound (r : PoolRun F) : Prop where
  members : ∀ s ∈ r.pool.members, s.Sound
  fresh : ∀ id ∈ r.accepted, id < r.pool.nextWaiter
  nodup : r.accepted.Nodup
  /-- Every accepted call is held, completed or withdrawn. -/
  partition : r.pool.held + r.completed + r.withdrawn = r.accepted
  counted : ∀ i, r.pool.callsAt i = r.completionsAt i

theorem sound_empty : Sound (empty : PoolRun F) :=
  ⟨by simp [empty, Pool.empty], by simp [empty, accepted], by simp [empty, accepted],
    by simp [empty, accepted, completed, withdrawn, Pool.held, Pool.empty],
    by simp [empty, Pool.empty, Pool.callsAt, completionsAt]⟩

theorem Sound.ids_nodup {r : PoolRun F} (h : Sound r) {i : Nat} {s : Scheduler F} (hs : r.pool.members[i]? = some s) :
    s.ids.Nodup := by
  refine Multiset.nodup_of_le ?_ h.nodup
  rw [← h.partition, add_assoc]
  exact (Pool.ids_le_held hs).trans (Multiset.le_add_right _ _)

/-! ## One operation keeps it -/

section Step
variable {r : PoolRun F} {i : Nat} {s s' : Scheduler F}

theorem Sound.update (h : Sound r) (hs : r.pool.members[i]? = some s) (events : List PoolEvent) {nextWaiter : Nat}
    (hchanges : Scheduler.Changes s s' ((events.map (PoolEvent.completionsAt i)).sum))
    (hother : ∀ j, j ≠ i → (events.map (PoolEvent.completionsAt j)).sum = 0)
    (hids : s'.ids + (events.map PoolEvent.completedIds).sum + (events.map PoolEvent.withdrawnIds).sum =
      s.ids + (events.map PoolEvent.acceptedIds).sum)
    (hnext : r.pool.nextWaiter ≤ nextWaiter)
    (hnew : (events.map PoolEvent.acceptedIds).sum = 0 ∨
      (events.map PoolEvent.acceptedIds).sum = {r.pool.nextWaiter} ∧ r.pool.nextWaiter < nextWaiter) :
    Sound (⟨{ r.pool.set i s' with nextWaiter := nextWaiter }, r.log ++ events⟩ : PoolRun F) := by
  have haccepted : (⟨{ r.pool.set i s' with nextWaiter := nextWaiter }, r.log ++ events⟩ : PoolRun F).accepted =
      r.accepted + (events.map PoolEvent.acceptedIds).sum := by
    rw [accepted, List.map_append, List.sum_append, accepted]
  have hold : ∀ id ∈ r.accepted, id < nextWaiter := fun id hid => (h.fresh id hid).trans_le hnext
  refine ⟨?_, ?_, ?_, ?_, ?_⟩
  · intro t ht
    rcases List.mem_or_eq_of_mem_set ht with hin | rfl
    · exact h.members t hin
    · exact hchanges.sound (h.members s (List.mem_of_getElem? hs))
  · rw [haccepted]
    intro id hid
    rcases Multiset.mem_add.mp hid with hin | hin
    · exact hold id hin
    · rcases hnew with hzero | ⟨hone, hlt⟩
      · simp [hzero] at hin
      · rw [hone, Multiset.mem_singleton] at hin
        exact hin ▸ hlt
  · rw [haccepted]
    rcases hnew with hzero | ⟨hone, -⟩
    · rw [hzero, add_zero]
      exact h.nodup
    · rw [hone, add_comm, Multiset.singleton_add]
      exact Multiset.nodup_cons.mpr ⟨fun hmem => absurd (h.fresh _ hmem) (Nat.lt_irrefl _), h.nodup⟩
  · obtain ⟨rest, hsum, hset⟩ := Accounts.one_account Scheduler.ids hs
    have hbefore : r.pool.held = s.ids + rest := hsum
    have hafter : (r.pool.set i s').held = s'.ids + rest := hset s'
    rw [haccepted, ← h.partition, hbefore]
    simp only [completed, withdrawn, List.map_append, List.sum_append]
    exact (congrArg (· + _ + _) hafter).trans (Accounts.conserve hids _ _)
  · intro j
    change (r.pool.set i s').callsAt j = _
    rw [Pool.callsAt_set hs, completionsAt, List.map_append, List.sum_append, ← completionsAt, ← h.counted j]
    split_ifs with hij
    · subst hij
      rw [hchanges.calls_eq, Pool.callsAt_of_mem hs]
    · rw [hother j (Ne.symm hij), Nat.add_zero]

theorem Sound.update_quiet (h : Sound r) (hs : r.pool.members[i]? = some s) (hchanges : Scheduler.Changes s s' 0)
    (hids : s'.ids = s.ids) : Sound (⟨r.pool.set i s', r.log ++ []⟩ : PoolRun F) :=
  h.update hs [] hchanges (fun _ _ => rfl) (by simpa using hids) (Nat.le_refl _) (.inl rfl)

theorem Sound.update_withdrawn (h : Sound r) (hs : r.pool.members[i]? = some s) (hchanges : Scheduler.Changes s s' 0)
    {id : Nat} (hids : s.ids = id ::ₘ s'.ids) :
    Sound (⟨r.pool.set i s', r.log ++ [.withdrawn id]⟩ : PoolRun F) := by
  refine h.update hs [.withdrawn id] hchanges (fun _ _ => rfl) ?_ (Nat.le_refl _) (.inl rfl)
  simp only [List.map_cons, List.map_nil, List.sum_cons, List.sum_nil, PoolEvent.completedIds,
    PoolEvent.withdrawnIds, PoolEvent.acceptedIds, hids, ← Multiset.singleton_add]
  abel

theorem Sound.update_accepted (h : Sound r) (hs : r.pool.members[i]? = some s) (hchanges : Scheduler.Changes s s' 0)
    (hids : s'.ids = r.pool.nextWaiter ::ₘ s.ids) :
    Sound (⟨{ r.pool.set i s' with nextWaiter := r.pool.nextWaiter + 1 },
      r.log ++ [.accepted r.pool.nextWaiter]⟩ : PoolRun F) := by
  refine h.update hs [.accepted r.pool.nextWaiter] hchanges (fun _ _ => rfl) ?_ (Nat.le_succ _)
    (.inr ⟨by simp [PoolEvent.acceptedIds], Nat.lt_succ_self _⟩)
  simp only [List.map_cons, List.map_nil, List.sum_cons, List.sum_nil, PoolEvent.completedIds,
    PoolEvent.withdrawnIds, PoolEvent.acceptedIds, hids, ← Multiset.singleton_add]
  abel

theorem Sound.update_completed (h : Sound r) (hs : r.pool.members[i]? = some s)
    (hchanges : Scheduler.Changes s s' 1) {id : Nat} (hids : s.ids = id ::ₘ s'.ids) :
    Sound (⟨r.pool.set i s', r.log ++ [.completed i id]⟩ : PoolRun F) := by
  refine h.update hs [.completed i id] ?_ ?_ ?_ (Nat.le_refl _) (.inl rfl)
  · simpa [PoolEvent.completionsAt] using hchanges
  · intro j hj
    simp [PoolEvent.completionsAt, Ne.symm hj]
  · simp only [List.map_cons, List.map_nil, List.sum_cons, List.sum_nil, PoolEvent.completedIds,
      PoolEvent.withdrawnIds, PoolEvent.acceptedIds, hids, ← Multiset.singleton_add]
    abel

theorem Sound.move (h : Sound r) {j : Nat} {t t' : Scheduler F} (hs : r.pool.members[i]? = some s)
    (ht : r.pool.members[j]? = some t) (hne : i ≠ j) (hsource : Scheduler.Changes s s' 0)
    (htarget : Scheduler.Changes t t' 0) {id : Nat} (hout : s.ids = id ::ₘ s'.ids) (hin : t'.ids = id ::ₘ t.ids) :
    Sound (⟨(r.pool.set i s').set j t', r.log ++ []⟩ : PoolRun F) := by
  rw [List.append_nil]
  have hheld : ((r.pool.set i s').set j t').held = r.pool.held := by
    obtain ⟨rest, hsum, hset⟩ := Accounts.two_accounts Scheduler.ids hs ht hne
    have hbefore : r.pool.held = s.ids + t.ids + rest := hsum
    have hafter : ((r.pool.set i s').set j t').held = s'.ids + t'.ids + rest := hset s' t'
    rw [hbefore, hafter, hout, hin]
    simp only [← Multiset.singleton_add]
    abel
  refine ⟨?_, h.fresh, h.nodup, ?_, ?_⟩
  · intro u hu
    rcases List.mem_or_eq_of_mem_set hu with hu | rfl
    · rcases List.mem_or_eq_of_mem_set hu with hu | rfl
      · exact h.members u hu
      · exact hsource.sound (h.members s (List.mem_of_getElem? hs))
    · exact htarget.sound (h.members t (List.mem_of_getElem? ht))
  · change _ + r.completed + r.withdrawn = r.accepted
    rw [hheld, h.partition]
  · intro k
    have ht' : (r.pool.set i s').members[j]? = some t := by rw [Pool.set, List.getElem?_set_ne hne, ht]
    change ((r.pool.set i s').set j t').callsAt k = r.completionsAt k
    rw [Pool.callsAt_set ht', Pool.callsAt_set hs, ← h.counted k]
    split_ifs with hjk hik
    · rw [htarget.calls_eq, ← hjk, Pool.callsAt_of_mem ht, Nat.add_zero]
    · rw [hsource.calls_eq, ← hik, Pool.callsAt_of_mem hs, Nat.add_zero]
    · rfl

theorem Sound.insert (h : Sound r) (backend : BackendId) (config : ValidConfig) (now : Nat) :
    Sound (⟨{ r.pool with members := r.pool.members ++ [.new backend config now] }, r.log ++ []⟩ : PoolRun F) := by
  rw [List.append_nil]
  refine ⟨?_, h.fresh, h.nodup, ?_, ?_⟩
  · intro u hu
    rcases List.mem_append.mp hu with hu | hu
    · exact h.members u hu
    · exact List.mem_singleton.mp hu ▸ Scheduler.new_sound backend config now
  · have hheld : ({ r.pool with members := r.pool.members ++ [.new backend config now] } : Pool F).held =
        r.pool.held := by
      rw [Pool.held, List.map_append, List.sum_append, Pool.held]
      exact add_zero _
    change _ + r.completed + r.withdrawn = r.accepted
    rw [hheld, h.partition]
  · intro k
    exact (Pool.callsAt_insert r.pool backend config now k).trans (h.counted k)

theorem Sound.idle (h : Sound r) : Sound (⟨r.pool, r.log ++ (none : Option PoolEvent).toList⟩ : PoolRun F) := by
  rw [Option.toList_none, List.append_nil]
  exact h

theorem Sound.onMember (h : Sound r) {op : Scheduler F → Scheduler F × Option PoolEvent}
    (hop : ∀ s, r.pool.members[i]? = some s →
      Sound (⟨r.pool.set i (op s).1, r.log ++ (op s).2.toList⟩ : PoolRun F)) :
    Sound (⟨(r.pool.onMember i op).1, r.log ++ (r.pool.onMember i op).2.toList⟩ : PoolRun F) := by
  unfold Pool.onMember
  cases hs : r.pool.members[i]? with
  | none => exact h.idle
  | some s => exact hop s hs

end Step

theorem Sound.next [Meter F] {r : PoolRun F} (h : Sound r) (op : PoolOp) : Sound (r.step op) := by
  unfold PoolRun.step
  cases op with
  | insert backend config now => exact h.insert backend config now
  | elsewhere taken =>
    rw [Pool.step, Option.toList_none, List.append_nil]
    exact ⟨h.members, fun id hid => (h.fresh id hid).trans_le (Nat.le_add_right _ _), h.nodup, h.partition, h.counted⟩
  | enqueue member callMeta now gate =>
    simp only [Pool.step]
    split
    · exact h.idle
    · rename_i s hs
      split
      · exact h.idle
      · rename_i s' hs'
        obtain ⟨-, hchanges, hids⟩ := Scheduler.enqueue_spec hs'
        exact h.update_accepted hs hchanges hids
  | place member id now gate =>
    refine h.onMember fun s hs => ?_
    obtain ⟨hchanges, ⟨hstale, hids⟩ | ⟨hstale, hids⟩⟩ := s.place_spec (h.ids_nodup hs) id now gate
    · rw [if_pos hstale]
      exact h.update_withdrawn hs hchanges hids
    · rw [if_neg hstale]
      exact h.update_quiet hs hchanges hids
  | abandon member id =>
    refine h.onMember fun s hs => ?_
    obtain ⟨hchanges, ⟨htaken, hids⟩ | ⟨htaken, hids⟩⟩ := s.abandon_spec (h.ids_nodup hs) id
    · rw [if_pos htaken]
      exact h.update_withdrawn hs hchanges hids
    · rw [if_neg htaken]
      exact h.update_quiet hs hchanges (congrArg Scheduler.ids hids)
  | finish member id report now gate =>
    refine h.onMember fun s hs => ?_
    obtain ⟨hnone, hsame⟩ | ⟨hsome, hchanges, hids⟩ := s.finish_spec id report now gate
    · rw [hnone, hsame]
      exact h.update_quiet hs (Scheduler.Changes.refl s) rfl
    · rw [if_pos hsome]
      exact h.update_completed hs hchanges hids
  | move source target targetBit now gate =>
    simp only [Pool.step]
    cases hmove : r.pool.move source target targetBit now gate with
    | none => exact h.idle
    | some p' =>
      obtain ⟨a, b, position, waiter, hmoves, rfl⟩ := Pool.move_some hmove
      obtain ⟨hsource, hout⟩ := Scheduler.leave_spec hmoves.taken.at_index
      obtain ⟨htarget, hin⟩ := b.join_spec waiter now gate
      exact h.move hmoves.source_at hmoves.target_at hmoves.ne hsource htarget hout hin
  | hold member duration now =>
    refine h.onMember fun s hs => ?_
    obtain ⟨hchanges, hids⟩ := s.holdReservedFor_spec duration now
    exact h.update_quiet hs hchanges hids
  | clear member now gate =>
    refine h.onMember fun s hs => ?_
    obtain ⟨hchanges, hids⟩ := s.clearReservedHold_spec now gate
    exact h.update_quiet hs hchanges hids

theorem sound_run [Meter F] (ops : List PoolOp) : Sound (run step (empty : PoolRun F) ops) :=
  run_invariant step (fun (r : PoolRun F) op (h : Sound r) => h.next op) sound_empty ops

end PoolRun

open PoolRun in
/-- **Every call has one place, every running call one bucket.** After any sequence of operations each accepted id
waits in one member, runs in one member, has completed once or was withdrawn, and nothing else is held; every completion
is counted in the totals of its member; in each member buckets are distinct, below the level of their call and within the
ceiling. -/
theorem pool_run {F : Type} [Meter F] (ops : List PoolOp) :
    let r := run PoolRun.step (PoolRun.empty : PoolRun F) ops
    (∀ id ∈ r.accepted, r.pool.waitingIds.count id + r.pool.runningIds.count id + r.completed.count id +
      r.withdrawn.count id = 1) ∧
    (∀ id, id ∈ r.pool.waitingIds ∨ id ∈ r.pool.runningIds ∨ id ∈ r.completed ∨ id ∈ r.withdrawn →
      id ∈ r.accepted) ∧
    (∀ i, r.pool.callsAt i = r.completionsAt i) ∧
    ∀ s ∈ r.pool.members,
      (s.state.queue.running.map Runner.bucket).Nodup ∧
      (∀ runner ∈ s.state.queue.running, runner.bucket < runner.level ∧ 1 ≤ runner.level ∧
        runner.level ≤ s.config.val.ceiling) ∧
      s.state.queue.running.length ≤ s.config.val.ceiling := by
  intro r
  have h : Sound r := sound_run ops
  have hpartition : r.pool.waitingIds + r.pool.runningIds + r.completed + r.withdrawn = r.accepted := by
    rw [← Pool.held_eq, h.partition]
  refine ⟨?_, ?_, h.counted, ?_⟩
  · intro id hid
    have hone := Multiset.count_eq_one_of_mem h.nodup hid
    rw [← hpartition, Multiset.count_add, Multiset.count_add, Multiset.count_add] at hone
    exact hone
  · intro id hid
    rw [← hpartition]
    simp only [Multiset.mem_add]
    tauto
  · intro s hs
    have hqueue := (h.members s hs).queue
    exact ⟨hqueue.buckets_nodup, fun runner hrunner => ⟨hqueue.bucket_lt runner hrunner,
      hqueue.level_range runner hrunner⟩, hqueue.running_le⟩

end Cuca.Services
