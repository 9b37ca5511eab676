import Cuca.Lib.Settling
import Cuca.Services.Cap
import Mathlib.Algebra.Group.Prod

/-!
# Repeated rebalance passes settle

No call arrives, completes or is withdrawn; passes follow one another, each with live backends and clock readings of its
own, under one gate.

* `lowersTheWorst_spec` : an accepted move onto a busy backend lowers the start it takes from, and both new starts are
  below it;
* `Pool.weight` : backends without a trial, then waiting calls, then the multiset of estimated starts; a move goes down
  in it unless it leaves its call waiting on an idle backend (`Scheduler.move_lower`);
* `rebalance_settles_iff` : the passes settle exactly when from some pass on every move onto an idle backend is of a
  call that may start there.
-/

namespace Cuca.Services
open Transition Settling

/-! ## What an accepted move does to the estimated starts -/

theorem le_worst {starts : List Nat} {x : Nat} (h : x ∈ starts) : x ≤ worst starts := by
  unfold worst
  cases hmax : starts.max? with
  | none =>
    rw [List.max?_eq_none_iff] at hmax
    simp [hmax] at h
  | some m => exact (List.max?_eq_some_iff.mp hmax).2 x h

theorem worst_mem {starts : List Nat} (h : 0 < worst starts) : worst starts ∈ starts := by
  unfold worst at h ⊢
  cases hmax : starts.max? with
  | none => simp [hmax] at h
  | some m => exact (List.max?_eq_some_iff.mp hmax).1

theorem Load.startWith_mono (l : Load) {calls calls' : Nat} (h : calls ≤ calls') :
    l.startWith calls ≤ l.startWith calls' :=
  Nat.div_le_div_right (Nat.mul_le_mul_right _ h)

theorem lowersTheWorst_spec {loads : List Load} {source target : Nat} {src tgt : Load}
    (hsource : loads[source]? = some src) (htarget : loads[target]? = some tgt) (hne : source ≠ target)
    (hbusy : tgt.calls ≠ 0) (h : lowersTheWorst loads source target = true) :
    src.startWith (src.calls - 1) < src.startMs ∧ tgt.startWith (tgt.calls + 1) < src.startMs := by
  rw [lowersTheWorst, hsource, htarget] at h
  simp only [if_neg hbusy, decide_eq_true_eq] at h
  -- after the move nothing reaches the worst start of before
  have hafter : ∀ (index : Nat) (load : Load), loads[index]? = some load →
      load.startWith (callsAfter source target index load) < worst (loads.map Load.startMs) := by
    intro index load hload
    refine lt_of_le_of_lt (le_worst ?_) h
    exact List.mem_of_getElem? (i := index) (by simp [hload])
  -- so it was at the source, where alone the calls go down
  have hworst : src.startMs = worst (loads.map Load.startMs) := by
    obtain ⟨load, hmem, heq⟩ := List.mem_map.mp (worst_mem (Nat.zero_lt_of_lt h))
    obtain ⟨index, hload⟩ := List.mem_iff_getElem?.mp hmem
    by_cases hindex : index = source
    · subst hindex
      obtain rfl := Option.some.inj (hload.symm.trans hsource)
      exact heq
    · have hlt := hafter index load hload
      have hle : load.startMs ≤ load.startWith (callsAfter source target index load) := by
        refine load.startWith_mono ?_
        unfold callsAfter
        rw [if_neg hindex]
        split_ifs <;> omega
      omega
  have hsrc := hafter source src hsource
  have htgt := hafter target tgt htarget
  rw [callsAfter, if_pos rfl] at hsrc
  rw [callsAfter, if_neg (Ne.symm hne), if_pos rfl] at htgt
  exact ⟨hworst ▸ hsrc, hworst ▸ htgt⟩

/-! ## What a move does to the weight of a pool -/

namespace Scheduler
variable {F : Type}

def weight (s : Scheduler F) : Weight :=
  (if s.state.tuner.trial.isSome then 0 else 1, s.state.queue.waiting.length, {s.load.startMs})

theorem leave_load {s : Scheduler F} {position : Nat} {waiter : Waiter}
    (h : s.state.queue.waiting[position]? = some waiter) :
    (s.leave position).state.queue.waiting.length + 1 = s.state.queue.waiting.length ∧
      (s.leave position).load.startMs = s.load.startWith (s.load.calls - 1) := by
  have hlt := (List.getElem?_eq_some_iff.mp h).1
  have hlength : (s.leave position).state.queue.waiting.length = s.state.queue.waiting.length - 1 :=
    List.length_eraseIdx_of_lt hlt
  refine ⟨by omega, ?_⟩
  have hcalls : (s.leave position).load.calls = s.load.calls - 1 := by
    change (s.leave position).state.queue.waiting.length + s.state.queue.running.length =
      s.state.queue.waiting.length + s.state.queue.running.length - 1
    omega
  rw [Load.startMs, hcalls]
  rfl

variable [Meter F]

def joinPoll (s : Scheduler F) (waiter : Waiter) (now : Nat) (gate : Gate) : Tuner F :=
  s.state.tuner.poll now ((s.joined waiter).waiting.length + (s.joined waiter).running.length) gate.paused

theorem joinPoll_cases {s : Scheduler F} (h : s.Sound) (waiter : Waiter) (now : Nat) (gate : Gate) :
    ((s.joinPoll waiter now gate).level = s.state.tuner.level ∧
      (s.joinPoll waiter now gate).trial = s.state.tuner.trial) ∨
    s.state.tuner.trial = none ∧ (s.joinPoll waiter now gate).trial.isSome = true := by
  have hle : s.state.tuner.level ≤ s.state.tuner.ceiling := h.tuner.ceiling_eq ▸ h.tuner.level_le
  unfold joinPoll
  rcases Tuner.poll_cases h.tuner.one_le hle now ((s.joined waiter).waiting.length + (s.joined waiter).running.length)
    gate.paused with heq | ⟨htrial, d, heq | ⟨next, baseline, -, -, -, -, heq⟩⟩
  · exact .inl (by rw [heq]; exact ⟨rfl, rfl⟩)
  · exact .inl (by rw [heq]; exact ⟨rfl, rfl⟩)
  · exact .inr ⟨htrial, by rw [heq]; rfl⟩

theorem join_trial (s : Scheduler F) (waiter : Waiter) (now : Nat) (gate : Gate) :
    (s.join waiter now gate).state.tuner.trial.isSome = (s.joinPoll waiter now gate).trial.isSome := by
  refine run_invariant Tuner.onDispatch (I := fun t : Tuner F => t.trial.isSome = _) (fun t id ht => ?_) rfl _
  rw [← ht]
  unfold Tuner.onDispatch
  cases htrial : t.trial with
  | none => simp [htrial]
  | some trial =>
    simp only
    split_ifs <;> simp [htrial]

theorem join_stuck_load {s : Scheduler F} {waiter : Waiter} {now : Nat} {gate : Gate}
    (hlevel : (s.joinPoll waiter now gate).level = s.state.tuner.level) (h : s.startsWith waiter now gate = false) :
    (s.join waiter now gate).state.queue.waiting.length = s.state.queue.waiting.length + 1 ∧
      (s.join waiter now gate).load.startMs = s.load.startWith (s.load.calls + 1) := by
  have hqueue := join_stuck h
  have hlength : (s.join waiter now gate).state.queue.waiting.length = s.state.queue.waiting.length + 1 := by
    rw [hqueue]
    simp [joined]
  refine ⟨hlength, ?_⟩
  have hcalls : (s.join waiter now gate).load.calls = s.load.calls + 1 := by
    rw [load, load, hlength, hqueue]
    simp only [joined]
    omega
  have htuner : (s.join waiter now gate).load.level = s.load.level := by
    have hdispatch := Queue.dispatch_stuck h now
    change ((Prod.snd (Queue.dispatch _ _ _ _ _)).foldl Tuner.onDispatch (s.joinPoll waiter now gate)).level = _
    rw [show Queue.dispatch _ _ _ _ _ = _ from hdispatch]
    exact hlevel
  rw [Load.startMs, hcalls, Load.startWith, htuner]
  rfl

/-- Whether the gate and the reserved hold let `waiter` start here. -/
def allows (s : Scheduler F) (waiter : Waiter) (now : Nat) (gate : Gate) : Bool :=
  eligible gate (s.state.reservedHoldUntil.any fun deadline => now < deadline) waiter

theorem startsWith_idle {s : Scheduler F} {waiter : Waiter} {now : Nat} {gate : Gate} (hidle : s.load.calls = 0)
    (hlevel : 1 ≤ (s.joinPoll waiter now gate).level) (hallows : s.allows waiter now gate = true) :
    s.startsWith waiter now gate = true := by
  have hempty : s.state.queue.waiting = [] ∧ s.state.queue.running = [] := by
    have hsum : s.state.queue.waiting.length + s.state.queue.running.length = 0 := hidle
    exact ⟨List.eq_nil_of_length_eq_zero (by omega), List.eq_nil_of_length_eq_zero (by omega)⟩
  have hjoined : s.joined waiter = ⟨[waiter], []⟩ := by
    rw [joined, hempty.1, hempty.2]
    rfl
  have h : Queue.startsOne ⟨[waiter], []⟩ _ s.config.val.reservedLaneFromLevel _ = true :=
    Queue.startsOne_idle hlevel hallows
  rw [← hjoined] at h
  exact h

/-- **A move lowers the weight of its two schedulers**, unless it leaves its call waiting on an idle one. -/
theorem move_lower {a b : Scheduler F} (hb : b.Sound) {position : Nat} {waiter : Waiter} {now : Nat} {gate : Gate}
    (hat : a.state.queue.waiting[position]? = some waiter)
    (hidle : b.load.calls = 0 → b.allows waiter now gate = true)
    (hstarts : b.load.calls ≠ 0 → a.load.startWith (a.load.calls - 1) < a.load.startMs ∧
      b.load.startWith (b.load.calls + 1) < a.load.startMs) :
    Lower ((a.leave position).weight + (b.join waiter now gate).weight) (a.weight + b.weight) := by
  obtain ⟨hleave, hleaveStart⟩ := leave_load hat
  have hsource : (a.leave position).weight.1 = a.weight.1 := rfl
  rcases joinPoll_cases hb waiter now gate with ⟨hlevel, htrial⟩ | ⟨hnone, hsome⟩
  · have htarget : (b.join waiter now gate).weight.1 = b.weight.1 := by
      simp only [weight, join_trial, htrial]
    have hfirst : ((a.leave position).weight + (b.join waiter now gate).weight).1 = (a.weight + b.weight).1 :=
      congrArg₂ (· + ·) hsource htarget
    cases hstart : b.startsWith waiter now gate with
    | true =>
      have hjoin := join_starts hstart
      refine lower_second hfirst ?_
      change (a.leave position).state.queue.waiting.length + (b.join waiter now gate).state.queue.waiting.length <
        a.state.queue.waiting.length + b.state.queue.waiting.length
      omega
    | false =>
      have hbusy : b.load.calls ≠ 0 := by
        intro hzero
        have hone : 1 ≤ (b.joinPoll waiter now gate).level := hlevel ▸ hb.level_range.1
        rw [startsWith_idle hzero hone (hidle hzero)] at hstart
        cases hstart
      obtain ⟨hjoin, hjoinStart⟩ := join_stuck_load hlevel hstart
      obtain ⟨hdown, hbelow⟩ := hstarts hbusy
      refine lower_multiset hfirst ?_ (multiset_lower a.load.startMs ?_ ?_)
      · change (a.leave position).state.queue.waiting.length + (b.join waiter now gate).state.queue.waiting.length =
          a.state.queue.waiting.length + b.state.queue.waiting.length
        omega
      · exact Multiset.mem_add.mpr (.inl (Multiset.mem_singleton_self _))
      · intro start hmem
        rcases Multiset.mem_add.mp hmem with hmem | hmem
        · rw [Multiset.mem_singleton.mp hmem, hleaveStart]
          exact hdown
        · rw [Multiset.mem_singleton.mp hmem, hjoinStart]
          exact hbelow
  · -- a trial begins, and there was none
    refine lower_first ?_
    change (a.leave position).weight.1 + (b.join waiter now gate).weight.1 < a.weight.1 + b.weight.1
    rw [hsource]
    simp [weight, join_trial, hnone, hsome]

end Scheduler

/-! ## A pass -/

namespace Pool
variable {F : Type}

def weight (p : Pool F) : Weight := (p.members.map Scheduler.weight).sum

/-- What every pool of a run is (`membersSound_run`). -/
def MembersSound (p : Pool F) : Prop := ∀ s ∈ p.members, s.Sound

/-- A call handed to an idle backend may start there: neither the gate nor the reserved hold keeps it back. -/
def UsesIdle (p : Pool F) : PoolOp → Prop
  | .move source target targetBit now gate =>
    ∀ a b position waiter, p.Moves source target targetBit gate a b position waiter → b.load.calls = 0 →
      b.allows waiter now gate = true
  | _ => True

theorem load_of_mem {p : Pool F} {member : Nat} {s : Scheduler F} (h : p.members[member]? = some s) :
    p.load member = s.load := by
  rw [Pool.load, h]

variable [Meter F]

theorem run_pool (r : PoolRun F) (ops : List PoolOp) : (run PoolRun.step r ops).pool = run next r.pool ops := by
  induction ops generalizing r with
  | nil => rfl
  | cons op ops ih => exact ih (r.step op)

theorem membersSound_run (ops : List PoolOp) : (run next (empty : Pool F) ops).MembersSound := by
  have h := (PoolRun.sound_run ops : (run PoolRun.step (PoolRun.empty : PoolRun F) ops).Sound).members
  rw [run_pool] at h
  exact h

theorem turned_sound {p p' : Pool F} (hp : p.MembersSound) {live : List Nat} {now : Nat} {gate : Gate} {op : PoolOp}
    (h : p.Turned live now gate op p') : p'.MembersSound := by
  obtain ⟨source, target, i, j, -, -, -, rfl, hmove⟩ := h.found
  obtain ⟨a, b, position, waiter, hmoves, rfl⟩ := move_some hmove
  obtain ⟨hsource, -⟩ := Scheduler.leave_spec hmoves.taken.at_index
  obtain ⟨htarget, -⟩ := b.join_spec waiter now gate
  intro s hs
  rcases List.mem_or_eq_of_mem_set hs with hs | rfl
  · rcases List.mem_or_eq_of_mem_set hs with hs | rfl
    · exact hp s hs
    · exact hsource.sound (hp a (List.mem_of_getElem? hmoves.source_at))
  · exact htarget.sound (hp b (List.mem_of_getElem? hmoves.target_at))

theorem turned_lower {p p' : Pool F} (hp : p.MembersSound) {live : List Nat} {now : Nat} {gate : Gate} {op : PoolOp}
    (h : p.Turned live now gate op p') (hidle : p.UsesIdle op) : Lower p'.weight p.weight := by
  obtain ⟨source, target, i, j, hi, hj, hlowers, rfl, hmove⟩ := h.found
  obtain ⟨a, b, position, waiter, hmoves, rfl⟩ := move_some hmove
  have hb := hp b (List.mem_of_getElem? hmoves.target_at)
  obtain ⟨rest, hsum, hset⟩ := Accounts.two_accounts Scheduler.weight hmoves.source_at hmoves.target_at hmoves.ne
  have hbefore : p.weight = a.weight + b.weight + rest := hsum
  have hafter : ((p.set i (a.leave position)).set j (b.join waiter now gate)).weight =
      (a.leave position).weight + (b.join waiter now gate).weight + rest := hset _ _
  have hloads : ∀ (index member : Nat) (s : Scheduler F), live[index]? = some member → p.members[member]? = some s →
      (live.map p.load)[index]? = some s.load := by
    intro index member s hindex hmember
    rw [List.getElem?_map, hindex, Option.map_some, load_of_mem hmember]
  have hne : source ≠ target := by
    rintro rfl
    exact hmoves.ne (Option.some.inj (hi.symm.trans hj))
  rw [hbefore, hafter]
  refine (Scheduler.move_lower hb hmoves.taken.at_index (hidle a b position waiter hmoves) ?_).add_right rest
  intro hbusy
  exact lowersTheWorst_spec (hloads source i a hi hmoves.source_at) (hloads target j b hj hmoves.target_at) hne hbusy
    hlowers

theorem rebalanceLoop_sound (live : List Nat) (clock : Nat → Nat) (gate : Gate) (budget : Nat) :
    ∀ p : Pool F, p.MembersSound → (rebalanceLoop live clock gate budget p).1.MembersSound := by
  induction budget with
  | zero => exact fun p hp => hp
  | succ budget ih =>
    intro p hp
    unfold rebalanceLoop
    cases hturn : p.rebalanceTurn live (clock budget) gate with
    | none => exact hp
    | some result => exact ih result.2 (turned_sound hp (turn_some hturn))

theorem rebalanceLoop_lower (live : List Nat) (clock : Nat → Nat) (gate : Gate) (budget : Nat) :
    ∀ p : Pool F, p.MembersSound → (rebalanceLoop live clock gate budget p).2 ≠ [] →
      Along next UsesIdle p (rebalanceLoop live clock gate budget p).2 →
      Relation.TransGen Lower (rebalanceLoop live clock gate budget p).1.weight p.weight := by
  induction budget with
  | zero => exact fun p _ hne => absurd rfl hne
  | succ budget ih =>
    intro p hp hne
    unfold rebalanceLoop at hne ⊢
    cases hturn : p.rebalanceTurn live (clock budget) gate with
    | none =>
      rw [hturn] at hne
      exact absurd rfl hne
    | some result =>
      obtain ⟨op, p'⟩ := result
      simp only
      intro halong
      have hlower := turned_lower hp (turn_some hturn) halong.1
      rw [Along, turn_next hturn] at halong
      by_cases hlast : (rebalanceLoop live clock gate budget p').2 = []
      · have hsame := rebalanceLoop_run live clock gate budget p'
        rw [hlast, run_nil] at hsame
        rw [← hsame]
        exact .single hlower
      · exact (ih p' (turned_sound hp (turn_some hturn)) hlast halong.2).tail hlower

/-! ## Passes one after another -/

/-- The pool after `k` passes; `live k` and `clock k` are the backends and the readings of the pass after them. -/
def passes (p : Pool F) (live : Nat → List Nat) (clock : Nat → Nat → Nat) (gate : Gate) : Nat → Pool F
  | 0 => p
  | k + 1 => ((passes p live clock gate k).rebalance (live k) (clock k) gate).1

/-- The moves of the pass after `k` passes. -/
def movesAfter (p : Pool F) (live : Nat → List Nat) (clock : Nat → Nat → Nat) (gate : Gate) (k : Nat) : List PoolOp :=
  ((p.passes live clock gate k).rebalance (live k) (clock k) gate).2

theorem passes_sound {p : Pool F} (hp : p.MembersSound) (live : Nat → List Nat) (clock : Nat → Nat → Nat)
    (gate : Gate) (k : Nat) : (p.passes live clock gate k).MembersSound := by
  induction k with
  | zero => exact hp
  | succ k ih =>
    unfold passes rebalance
    split_ifs
    · exact ih
    · exact rebalanceLoop_sound _ _ _ _ _ ih

theorem passes_stay (p : Pool F) (live : Nat → List Nat) (clock : Nat → Nat → Nat) (gate : Gate) {k : Nat}
    (h : p.movesAfter live clock gate k = []) : p.passes live clock gate (k + 1) = p.passes live clock gate k := by
  have hrun := rebalance_run (p.passes live clock gate k) (live k) (clock k) gate
  rw [movesAfter] at h
  rw [h, run_nil] at hrun
  exact hrun.symm

theorem passes_lower {p : Pool F} (hp : p.MembersSound) (live : Nat → List Nat) (clock : Nat → Nat → Nat)
    (gate : Gate) {k : Nat} (hmoves : p.movesAfter live clock gate k ≠ [])
    (hidle : Along next UsesIdle (p.passes live clock gate k) (p.movesAfter live clock gate k)) :
    Relation.TransGen Lower (p.passes live clock gate (k + 1)).weight (p.passes live clock gate k).weight := by
  have hsound := passes_sound hp live clock gate k
  rw [passes]
  unfold movesAfter rebalance at hmoves hidle
  unfold rebalance
  split_ifs at hmoves hidle ⊢
  · exact absurd rfl hmoves
  · exact rebalanceLoop_lower _ _ _ _ _ hsound hmoves hidle

def Settles (p : Pool F) (live : Nat → List Nat) (clock : Nat → Nat → Nat) (gate : Gate) : Prop :=
  ∃ n, ∀ k, n ≤ k → p.movesAfter live clock gate k = []

theorem settles_of_usesIdle {p : Pool F} (hp : p.MembersSound) (live : Nat → List Nat)
    (clock : Nat → Nat → Nat) (gate : Gate) {first : Nat} (hidle : ∀ k, first ≤ k →
      Along next UsesIdle (p.passes live clock gate k) (p.movesAfter live clock gate k)) :
    p.Settles live clock gate := by
  obtain ⟨n, h⟩ := settles lower_wellFounded.transGen (fun k => (p.passes live clock gate k).weight)
    (fun k => p.movesAfter live clock gate k ≠ [])
    (fun k hk => congrArg weight (passes_stay p live clock gate (not_not.mp hk)))
    (fun k hk hmoves => passes_lower hp live clock gate hmoves (hidle k hk))
  exact ⟨n, fun k hk => not_not.mp (h k hk)⟩

end Pool

open Pool in
/-- **Repeated passes settle if and only if** from some pass on every call handed to an idle backend may start there. -/
theorem rebalance_settles_iff {F : Type} [Meter F] {p : Pool F} (hp : p.MembersSound) (live : Nat → List Nat)
    (clock : Nat → Nat → Nat) (gate : Gate) : p.Settles live clock gate ↔
      ∃ n, ∀ k, n ≤ k → Along next UsesIdle (p.passes live clock gate k) (p.movesAfter live clock gate k) := by
  constructor
  · rintro ⟨n, h⟩
    refine ⟨n, fun k hk => ?_⟩
    rw [h k hk]
    trivial
  · rintro ⟨n, h⟩
    exact settles_of_usesIdle hp live clock gate h

/-! ## An open gate -/

namespace Pool
variable {F : Type}

def Unheld (p : Pool F) : Prop := ∀ s ∈ p.members, s.state.reservedHoldUntil = none

theorem Unheld.usesIdle {p : Pool F} (hp : p.Unheld) {gate : Gate} (hopen : gate.paused = false) (source target : Nat)
    (targetBit : UInt64) (now : Nat) : p.UsesIdle (.move source target targetBit now gate) := by
  intro a b position waiter hmoves _
  have hstale : gate.stale waiter = false := by
    have h := hmoves.taken.movable
    simp only [movable, Bool.and_eq_true, Bool.not_eq_true'] at h
    exact h.2
  simp [Scheduler.allows, eligible, hp b (List.mem_of_getElem? hmoves.target_at), hopen, hstale]

variable [Meter F]

theorem turned_unheld {p p' : Pool F} (hp : p.Unheld) {live : List Nat} {now : Nat} {gate : Gate} {op : PoolOp}
    (hopen : gate.paused = false) (h : p.Turned live now gate op p') : p'.Unheld ∧ p.UsesIdle op := by
  obtain ⟨source, target, i, j, -, -, -, rfl, hmove⟩ := h.found
  obtain ⟨a, b, position, waiter, hmoves, rfl⟩ := move_some hmove
  refine ⟨fun s hs => ?_, hp.usesIdle hopen _ _ _ _⟩
  have hb := hp b (List.mem_of_getElem? hmoves.target_at)
  rcases List.mem_or_eq_of_mem_set hs with hs | rfl
  · rcases List.mem_or_eq_of_mem_set hs with hs | rfl
    · exact hp s hs
    · exact hp a (List.mem_of_getElem? hmoves.source_at)
  · change b.state.reservedHoldUntil.filter _ = none
    rw [hb, Option.filter_none]

theorem rebalanceLoop_unheld (live : List Nat) (clock : Nat → Nat) {gate : Gate} (hopen : gate.paused = false)
    (budget : Nat) : ∀ p : Pool F, p.Unheld → (rebalanceLoop live clock gate budget p).1.Unheld ∧
      Along next UsesIdle p (rebalanceLoop live clock gate budget p).2 := by
  induction budget with
  | zero => exact fun p hp => ⟨hp, trivial⟩
  | succ budget ih =>
    intro p hp
    unfold rebalanceLoop
    cases hturn : p.rebalanceTurn live (clock budget) gate with
    | none => exact ⟨hp, trivial⟩
    | some result =>
      obtain ⟨op, p'⟩ := result
      obtain ⟨hunheld, hidle⟩ := turned_unheld hp hopen (turn_some hturn)
      obtain ⟨hlast, halong⟩ := ih p' hunheld
      refine ⟨hlast, hidle, ?_⟩
      rw [turn_next hturn]
      exact halong

theorem passes_unheld {p : Pool F} (hp : p.Unheld) (live : Nat → List Nat) (clock : Nat → Nat → Nat) {gate : Gate}
    (hopen : gate.paused = false) (k : Nat) : (p.passes live clock gate k).Unheld := by
  induction k with
  | zero => exact hp
  | succ k ih =>
    unfold passes rebalance
    split_ifs
    · exact ih
    · exact (rebalanceLoop_unheld _ _ hopen _ _ ih).1

/-- **With an open gate and no reserved hold the passes settle.** -/
theorem settles_open {p : Pool F} (hp : p.MembersSound) (hunheld : p.Unheld) (live : Nat → List Nat)
    (clock : Nat → Nat → Nat) {gate : Gate} (hopen : gate.paused = false) : p.Settles live clock gate := by
  refine settles_of_usesIdle hp live clock gate fun k (_ : 0 ≤ k) => ?_
  have hpass := passes_unheld hunheld live clock hopen k
  unfold movesAfter rebalance
  split_ifs
  · trivial
  · exact (rebalanceLoop_unheld _ _ hopen _ _ hpass).2

end Pool

/-! ## A call handed back and forth -/

def pausedGate : Gate := ⟨true, fun _ => false⟩

/-- Two idle backends, and a call that waits at the first while dispatch is paused. -/
def pausedPool : Pool Fraction :=
  run Pool.next Pool.empty
    [smallBackend "a" 256 SchedulerConfig.validate_oneCall, smallBackend "b" 256 SchedulerConfig.validate_oneCall,
     .enqueue 0 mediumCall 0 pausedGate]

open Pool in
theorem settles_open_pausedPool : pausedPool.Settles (fun _ => [0, 1]) (fun _ _ => 0) .open :=
  settles_open (membersSound_run _) (show ∀ s ∈ pausedPool.members, s.state.reservedHoldUntil = none by decide) _ _ rfl

open Pool in
theorem rebalance_settles_iff_pausedPool : pausedPool.MembersSound ∧
    (pausedPool.Settles (fun _ => [0, 1]) (fun _ _ => 0) .open ↔
      ∃ n, ∀ k, n ≤ k → Along next UsesIdle (pausedPool.passes (fun _ => [0, 1]) (fun _ _ => 0) .open k)
        (pausedPool.movesAfter (fun _ => [0, 1]) (fun _ _ => 0) .open k)) :=
  ⟨membersSound_run _, rebalance_settles_iff (membersSound_run _) _ _ _⟩

open Pool in
/-- **A paused call never rests**: two passes bring it back to where it was. -/
theorem paused_call_moves_forever : ¬ pausedPool.Settles (fun _ => [0, 1]) (fun _ _ => 0) pausedGate := by
  rintro ⟨n, h⟩
  have hback : ∀ k, pausedPool.passes (fun _ => [0, 1]) (fun _ _ => 0) pausedGate (2 * k) = pausedPool := by
    intro k
    induction k with
    | zero => rfl
    | succ k ih =>
      rw [Nat.mul_succ, passes, passes, ih]
      rfl
  have hmoves := h (2 * n) (by omega)
  rw [movesAfter, hback] at hmoves
  cases hmoves

end Cuca.Services
