import Cuca.Services.Dispatch
import Cuca.Services.Holders

/-!
# Which client streams a call

A slot's bucket belongs to the scheduler the call was started by, which after a move is not the one it was reserved on;
the attempt goes to the reserved backend.

* `Fleet.Sound` : the slots the calls own are running calls, all different, and what is in flight is the request as its
  backend overwrites it;
* `Fleet.OwnClient` : every call with a slot is served by the backend its bucket belongs to;
* `Fleet.PolledAtHome` : no poll finds its call running away from the backend it was reserved on;
* `own_client_iff` : over every run the first comes down to the second, and bounds what is in flight.
-/

namespace Cuca.Services
open Transition

/-! ## What a poll finds -/

theorem Queue.isRunning_eq (q : Queue) (id : Nat) : q.isRunning id = (q.runningLevel id).isSome := by
  rw [isRunning, runningLevel, Option.isSome_map, Bool.eq_iff_iff, List.any_eq_true, List.find?_isSome]

namespace Scheduler
variable {F : Type} [Meter F]

/-- Whether `id` runs here once its future has looked: it runs already, or it waits, is not stale and starts. -/
def runsWhenPolled (s : Scheduler F) (id now : Nat) (gate : Gate) : Bool :=
  s.state.queue.isRunning id ||
    s.state.queue.isWaiting id && !(s.state.queue.waiting.find? fun waiter => waiter.id == id).any gate.stale &&
      (s.step s.state now gate).queue.isRunning id

theorem place_running_iff (s : Scheduler F) (id now : Nat) (gate : Gate) :
    (∃ level, (s.place id now gate).1 = some (.running level)) ↔ s.runsWhenPolled id now gate = true := by
  unfold place runsWhenPolled
  rw [Queue.isRunning_eq, Queue.isRunning_eq]
  cases s.state.queue.runningLevel id with
  | some level => simp
  | none =>
    simp only [Option.isSome_none, Bool.false_or]
    cases hwaiting : s.state.queue.isWaiting id with
    | false => simp
    | true =>
      cases hstale : (s.state.queue.waiting.find? fun waiter => waiter.id == id).any gate.stale with
      | true => simp
      | false =>
        cases (s.step s.state now gate).queue.runningLevel id <;> simp

theorem place_running {s : Scheduler F} {id now level : Nat} {gate : Gate}
    (h : (s.place id now gate).1 = some (.running level)) :
    id ∈ (s.place id now gate).2.state.queue.runningIds := by
  unfold place at h ⊢
  cases hlevel : s.state.queue.runningLevel id with
  | some level => exact Queue.runningLevel_some hlevel
  | none =>
    rw [hlevel] at h
    simp only at h ⊢
    split_ifs at h ⊢
    · cases h
    · cases hafter : (s.step s.state now gate).queue.runningLevel id with
      | none =>
        rw [hafter] at h
        cases h
      | some level => exact Queue.runningLevel_some hafter

end Scheduler

/-! ## What a step keeps of the registry -/

theorem Pool.nextWaiter_le {F : Type} [Meter F] (p : Pool F) (op : PoolOp) :
    p.nextWaiter ≤ (p.step op).1.nextWaiter := by
  have honMember : ∀ member (act : Scheduler F → Scheduler F × Option PoolEvent),
      (p.onMember member act).1.nextWaiter = p.nextWaiter := by
    intro member act
    unfold onMember
    split <;> rfl
  cases op with
  | insert backend config now => exact Nat.le_refl _
  | elsewhere taken => exact Nat.le_add_right _ _
  | enqueue member callMeta now gate =>
    simp only [step]
    split
    · exact Nat.le_refl _
    · split
      · exact Nat.le_refl _
      · exact Nat.le_succ _
  | place member id now gate => exact (honMember _ _).ge
  | abandon member id => exact (honMember _ _).ge
  | finish member id report now gate => exact (honMember _ _).ge
  | hold member duration now => exact (honMember _ _).ge
  | clear member now gate => exact (honMember _ _).ge
  | move source target targetBit now gate =>
    simp only [step]
    cases hmove : p.move source target targetBit now gate with
    | none => exact Nat.le_refl _
    | some p' =>
      obtain ⟨_, _, _, _, _, rfl⟩ := move_some hmove
      exact Nat.le_refl _

namespace Registry
variable {F : Type}

/-- Backends stay what they are, and calls that are not `ended` run on. -/
structure Keeps (r r' : Registry F) (ended : Nat → Nat → Prop) : Prop where
  next_le : r.pool.nextWaiter ≤ r'.pool.nextWaiter
  backend : ∀ (b : Nat) (x : Backend), r.backends[b]? = some x →
    ∃ x', r'.backends[b]? = some x' ∧ x'.member = x.member ∧ x'.spec = x.spec
  runs : ∀ id member, r.pool.RunsAt id member → ¬ ended id member → r'.pool.RunsAt id member

theorem Keeps.refl (r : Registry F) (ended : Nat → Nat → Prop) : Keeps r r ended :=
  ⟨Nat.le_refl _, fun _ x h => ⟨x, h, rfl, rfl⟩, fun _ _ h _ => h⟩

theorem Keeps.trans {r₁ r₂ r₃ : Registry F} {ended : Nat → Nat → Prop} (h : Keeps r₁ r₂ ended)
    (h' : Keeps r₂ r₃ ended) : Keeps r₁ r₃ ended := by
  refine ⟨h.next_le.trans h'.next_le, fun b x hx => ?_, fun id m hruns hnot => h'.runs id m (h.runs id m hruns hnot) hnot⟩
  obtain ⟨x', hx', hmember, hspec⟩ := h.backend b x hx
  obtain ⟨x'', hx'', hmember', hspec'⟩ := h'.backend b x' hx'
  exact ⟨x'', hx'', hmember'.trans hmember, hspec'.trans hspec⟩

theorem keeps_modify (r : Registry F) (backend : Nat) {change : Backend → Backend}
    (hchange : ∀ x, (change x).member = x.member ∧ (change x).spec = x.spec) (ended : Nat → Nat → Prop) :
    Keeps r (r.modify backend change) ended := by
  refine ⟨Nat.le_refl _, fun b x hx => ?_, fun _ _ h _ => h⟩
  rw [modify, List.getElem?_modify, hx]
  by_cases hb : backend = b
  · exact ⟨change x, by simp [hb], hchange x⟩
  · exact ⟨x, by simp [hb], rfl, rfl⟩

theorem keeps_trip (r : Registry F) (backend now cooldown : Nat) (ended : Nat → Nat → Prop) :
    Keeps r (r.trip backend now cooldown) ended :=
  r.keeps_modify backend (fun _ => by exact ⟨rfl, rfl⟩) ended

theorem keeps_close (r : Registry F) (backend : Nat) (ended : Nat → Nat → Prop) : Keeps r (r.close backend) ended :=
  r.keeps_modify backend (fun _ => by exact ⟨rfl, rfl⟩) ended

theorem keeps_build (r : Registry F) (backend : Nat) (ended : Nat → Nat → Prop) : Keeps r (r.build backend) ended :=
  r.keeps_modify backend (fun _ => by exact ⟨rfl, rfl⟩) ended

variable [Meter F]

theorem keeps_poolStep (r : Registry F) (op : PoolOp) :
    Keeps r (r.poolStep op) fun id member => Pool.Finishes id member op :=
  ⟨r.pool.nextWaiter_le op, fun _ x h => ⟨x, h, rfl, rfl⟩, fun _ _ h hnot => Pool.runsAt_step h hnot⟩

theorem keeps_joinSpecs (config : ValidConfig) (now : Nat) (specs : List BackendSpec) (ended : Nat → Nat → Prop) :
    ∀ (r : Registry F) (joined : Joined), Keeps r (joinSpecs config now specs r joined).1 ended := by
  induction specs with
  | nil => exact fun r joined => .refl r ended
  | cons spec specs ih =>
    intro r joined
    unfold joinSpecs
    have hinsert : Keeps r (r.poolStep (.insert spec.id config now)) ended := by
      have h := r.keeps_poolStep (.insert spec.id config now)
      exact ⟨h.next_le, h.backend, fun id member hruns _ => h.runs id member hruns (fun hfinishes => hfinishes)⟩
    split
    · exact ih _ _
    · simp only
      split_ifs
      · exact hinsert
      · refine hinsert.trans (.trans ?_ (ih _ _))
        refine ⟨Nat.le_refl _, fun b x hx => ⟨x, ?_, rfl, rfl⟩, fun _ _ h _ => h⟩
        exact (List.getElem?_append_left (List.getElem?_eq_some_iff.mp hx).1).trans hx

theorem keeps_join (r : Registry F) (specs : List BackendSpec) (config : ValidConfig) (now : Nat)
    (ended : Nat → Nat → Prop) : Keeps r (r.join specs config now).1 ended := by
  unfold join
  split
  · exact .refl r ended
  · exact keeps_joinSpecs config now specs ended r _

end Registry

/-! ## One call -/

namespace Task
variable {F B : Type}

/-- The id it waits or runs under. -/
def id (t : Task B) : Option Nat :=
  match t.phase with
  | .waiting reserved _ => some reserved.id
  | .holding _ slot _ => some slot.id
  | .streaming _ slot _ _ _ => some slot.id
  | _ => none

/-- The backend a call with a slot is served by: the one whose breaker, client, tag and thinking it gets. -/
def servedBy (t : Task B) : Option (Nat × CallSlot) :=
  match t.phase with
  | .holding reserved slot _ => some (reserved.backend, slot)
  | .streaming _ slot _ sent _ => some (sent.backend, slot)
  | _ => none

/-- The call in flight through the client of `backend`. -/
def inFlight (backend : Nat) (t : Task B) : Option Nat :=
  match t.phase with
  | .streaming _ slot _ sent _ => if sent.backend = backend then some slot.id else none
  | _ => none

/-- A call with a slot is served by the backend the slot's bucket belongs to, and sent as that backend overwrites it. -/
def Own (backends : List Backend) (t : Task B) : Prop :=
  match t.phase with
  | .holding reserved slot _ => ∃ x, backends[reserved.backend]? = some x ∧ x.member = slot.home
  | .streaming _ slot _ sent _ =>
    ∃ x, backends[sent.backend]? = some x ∧ x.member = slot.home ∧ sent.request = x.overwrite t.request
  | _ => True

/-- What holds of every call: its slot is a running call's, and it is sent as its backend overwrites it. -/
structure Valid (r : Registry F) (t : Task B) : Prop where
  slot_runs : ∀ slot, t.slot = some slot → r.pool.RunsAt slot.id slot.home
  fresh : ∀ id, t.id = some id → id < r.pool.nextWaiter
  sent_overwritten : ∀ reserved slot waitMs sent started, t.phase = .streaming reserved slot waitMs sent started →
    ∃ x, r.backends[sent.backend]? = some x ∧ sent.request = x.overwrite t.request

theorem id_of_slot {t : Task B} {slot : CallSlot} (h : t.slot = some slot) : t.id = some slot.id := by
  unfold Task.slot at h
  unfold Task.id
  split at h <;> simp_all

theorem own_iff {r : Registry F} {t : Task B} (h : t.Valid r) : t.Own r.backends ↔
    ∀ b slot, t.servedBy = some (b, slot) → ∃ x, r.backends[b]? = some x ∧ x.member = slot.home := by
  unfold Own servedBy
  cases hphase : t.phase with
  | holding reserved slot waitMs => simp
  | streaming reserved slot waitMs sent started =>
    obtain ⟨x, hx, hrequest⟩ := h.sent_overwritten _ _ _ _ _ hphase
    constructor
    · rintro ⟨y, hy, hmember, -⟩ b slot' heq
      obtain ⟨rfl, rfl⟩ := Prod.mk.inj (Option.some.inj heq)
      exact ⟨y, hy, hmember⟩
    · intro hserved
      obtain ⟨y, hy, hmember⟩ := hserved _ _ rfl
      obtain rfl := Option.some.inj (hx.symm.trans hy)
      exact ⟨x, hx, hmember, hrequest⟩
  | _ => simp

theorem Valid.keep {r r' : Registry F} {t : Task B} (h : t.Valid r) {ended : Nat → Nat → Prop}
    (hkeeps : r.Keeps r' ended) (hslot : ∀ slot, t.slot = some slot → ¬ ended slot.id slot.home) : t.Valid r' := by
  refine ⟨fun slot hs => hkeeps.runs _ _ (h.slot_runs slot hs) (hslot slot hs),
    fun id hid => (h.fresh id hid).trans_le hkeeps.next_le, fun reserved slot waitMs sent started hphase => ?_⟩
  obtain ⟨x, hx, hrequest⟩ := h.sent_overwritten _ _ _ _ _ hphase
  obtain ⟨x', hx', -, hspec⟩ := hkeeps.backend _ x hx
  exact ⟨x', hx', by rw [hrequest, Backend.overwrite, Backend.overwrite, hspec]⟩

theorem served_keep {r r' : Registry F} {ended : Nat → Nat → Prop} (hkeeps : r.Keeps r' ended) {b home : Nat}
    (h : ∃ x, r.backends[b]? = some x ∧ x.member = home) : ∃ x, r'.backends[b]? = some x ∧ x.member = home := by
  obtain ⟨x, hx, hmember⟩ := h
  obtain ⟨x', hx', hmember', -⟩ := hkeeps.backend b x hx
  exact ⟨x', hx', hmember'.trans hmember⟩

theorem valid_idle {r : Registry F} {t : Task B} (hslot : t.slot = none) (hid : t.id = none) : t.Valid r := by
  refine ⟨fun slot h => ?_, fun id h => ?_, fun reserved slot waitMs sent started hphase => ?_⟩
  · rw [hslot] at h
    cases h
  · rw [hid] at h
    cases h
  · rw [Task.slot, hphase] at hslot
    cases hslot

/-- The member a poll asks, if it asks one. -/
def asks (r : Registry F) (t : Task B) : Option (Reserved × Nat) :=
  match t.phase with
  | .waiting reserved .own => r.backends[reserved.backend]?.map fun x => (reserved, x.member)
  | .waiting reserved (.scanning (member :: _)) => some (reserved, member)
  | _ => none

/-- The slots a step of `t` can end. -/
def Ends (t : Task B) (id _member : Nat) : Prop := ∃ slot, t.slot = some slot ∧ slot.id = id

/-- **What a step of one call does**: others run on, and the call stays valid; it takes the next id or keeps its own. -/
structure Steps (r : Registry F) (t : Task B) (r' : Registry F) (t' : Task B) : Prop where
  keeps : r.Keeps r' t.Ends
  valid : t'.Valid r'
  id_from : ∀ id, t'.id = some id → t.id = some id ∨ id = r.pool.nextWaiter

theorem failed_idle (t : Task B) (reserved : Reserved) (error : DispatchError) :
    (t.failed reserved error).slot = none ∧ (t.failed reserved error).id = none ∧
      (t.failed reserved error).servedBy = none := by
  unfold failed
  split <;> exact ⟨rfl, rfl, rfl⟩

theorem steps_idle {r r' : Registry F} {t t' : Task B} (hkeeps : r.Keeps r' t.Ends) (hslot : t'.slot = none)
    (hid : t'.id = none) : Steps r t r' t' :=
  ⟨hkeeps, valid_idle hslot hid, fun id h => by rw [hid] at h; cases h⟩

variable [Meter F]

theorem keeps_finishSlot {r r' : Registry F} {t : Task B} (h : r.Keeps r' t.Ends) {slot : CallSlot}
    (hslot : t.slot = some slot) (report : CallReport) (now : Nat) (gate : Gate) :
    r.Keeps (finishSlot r' slot report now gate) t.Ends := by
  refine h.trans ?_
  have hstep := r'.keeps_poolStep (.finish slot.home slot.id report now gate)
  exact ⟨hstep.next_le, hstep.backend, fun id member hruns hnot =>
    hstep.runs id member hruns fun hfinishes => hnot ⟨slot, hslot, hfinishes.2⟩⟩

theorem reserve_spec (r : Registry F) (t : Task B) (loads : Nat → Load) (now : Nat)
    (gate : Gate) :
    Steps r t (t.reserve r loads now gate).1 (t.reserve r loads now gate).2 ∧
      (t.reserve r loads now gate).2.servedBy = none := by
  have hfinished : ∀ (error : DispatchError),
      Steps r t r { t with phase := .finished (.error error) } ∧
        ({ t with phase := .finished (.error error) } : Task B).servedBy = none :=
    fun error => ⟨steps_idle (.refl r _) rfl rfl, rfl⟩
  unfold reserve
  simp only
  split_ifs
  · exact hfinished _
  · split
    · exact hfinished _
    · split
      · exact hfinished _
      · split
        · exact hfinished _
        · rename_i member s hat
          obtain ⟨x, -, hmember⟩ := Option.bind_eq_some_iff.mp hat
          obtain ⟨s', hs', heq⟩ := Option.map_eq_some_iff.mp hmember
          obtain ⟨rfl, rfl⟩ := Prod.mk.inj heq
          split
          · exact ⟨steps_idle (.refl r _) rfl rfl, rfl⟩
          · rename_i s'' henqueue
            have hstep := r.keeps_poolStep (.enqueue x.member t.callMeta now gate)
            have hnext : (r.poolStep (.enqueue x.member t.callMeta now gate)).pool.nextWaiter =
                r.pool.nextWaiter + 1 := by
              simp only [Registry.poolStep, Pool.step, hs', henqueue]
            refine ⟨⟨⟨hstep.next_le, hstep.backend, fun id m hruns _ => hstep.runs id m hruns fun h => h⟩,
              ⟨fun slot h => (by cases h), fun id hid => ?_, fun _ _ _ _ _ h => (by cases h)⟩, fun id hid => ?_⟩, rfl⟩
            · obtain rfl := Option.some.inj hid
              rw [hnext]
              exact Nat.lt_succ_self _
            · exact .inr (Option.some.inj hid).symm

theorem poll_eq (r : Registry F) (t : Task B) (now : Nat) (gate : Gate) :
    (∃ reserved member here next, t.asks r = some (reserved, member) ∧ t.phase = .waiting reserved here ∧
      t.poll r now gate = t.look r reserved member next now gate) ∨
    t.asks r = none ∧ (t.poll r now gate = (r, t) ∨ ∃ reserved here next, t.phase = .waiting reserved here ∧
      t.poll r now gate = (r, { t with phase := .waiting reserved next })) := by
  unfold poll asks
  cases hphase : t.phase with
  | waiting reserved here =>
    cases here with
    | own =>
      simp only
      cases hx : r.backends[reserved.backend]? with
      | none => exact .inr ⟨rfl, .inl rfl⟩
      | some x => exact .inl ⟨reserved, x.member, .own, .listing, rfl, rfl, rfl⟩
    | listing => exact .inr ⟨rfl, .inr ⟨reserved, .listing, _, rfl, rfl⟩⟩
    | scanning rest =>
      cases rest with
      | nil => exact .inr ⟨rfl, .inr ⟨reserved, .scanning [], _, rfl, rfl⟩⟩
      | cons member rest => exact .inl ⟨reserved, member, .scanning (member :: rest), .scanning rest, rfl, rfl, rfl⟩
  | _ => exact .inr ⟨rfl, .inl rfl⟩

theorem look_spec {r : Registry F} {t : Task B} {reserved : Reserved} {here : Look} (h : t.Valid r)
    (hphase : t.phase = .waiting reserved here) (member : Nat) (next : Look) (now : Nat) (gate : Gate) :
    Steps r t (t.look r reserved member next now gate).1 (t.look r reserved member next now gate).2 ∧
      ((t.look r reserved member next now gate).2.servedBy = none ∧
        (∀ s, r.pool.members[member]? = some s → s.runsWhenPolled reserved.id now gate = false) ∨
      ∃ s level, r.pool.members[member]? = some s ∧ s.runsWhenPolled reserved.id now gate = true ∧
        (t.look r reserved member next now gate).2.servedBy =
          some (reserved.backend, ⟨member, reserved.id, level⟩)) := by
  have hid : t.id = some reserved.id := by rw [Task.id, hphase]
  unfold look
  cases hs : r.pool.members[member]? with
  | none =>
    refine ⟨⟨.refl r _, ⟨fun slot h => (nomatch h), fun id hid' => ?_, fun _ _ _ _ _ h => (nomatch h)⟩,
      fun id hid' => .inl (hid.trans hid')⟩, .inl ⟨rfl, fun s h => (nomatch h)⟩⟩
    exact h.fresh id (hid.trans hid')
  | some s =>
    have hstep := r.keeps_poolStep (.place member reserved.id now gate)
    have hkeeps : r.Keeps (r.poolStep (.place member reserved.id now gate)) t.Ends :=
      ⟨hstep.next_le, hstep.backend, fun id m hruns _ => hstep.runs id m hruns fun h => h⟩
    have hwaits : ∀ next, Steps r t (r.poolStep (.place member reserved.id now gate))
        { t with phase := .waiting reserved next } := by
      refine fun next => ⟨hkeeps, ⟨fun slot h => (nomatch h), fun id hid' => ?_, fun _ _ _ _ _ h => (nomatch h)⟩,
        fun id hid' => .inl (hid.trans hid')⟩
      exact (h.fresh id (hid.trans hid')).trans_le hkeeps.next_le
    have hnot : (∀ level, (s.place reserved.id now gate).1 ≠ some (.running level)) →
        ∀ s', some s = some s' → s'.runsWhenPolled reserved.id now gate = false := by
      rintro hnever s' heq
      obtain rfl := Option.some.inj heq
      refine Bool.eq_false_iff.mpr fun hruns => ?_
      obtain ⟨level, hlevel⟩ := (s.place_running_iff reserved.id now gate).mpr hruns
      exact hnever level hlevel
    simp only
    cases hplace : (s.place reserved.id now gate).1 with
    | none => exact ⟨hwaits next, .inl ⟨rfl, hnot fun level hlevel => by simp [hplace] at hlevel⟩⟩
    | some placement =>
      cases placement with
      | waiting => exact ⟨hwaits .own, .inl ⟨rfl, hnot fun level hlevel => by simp [hplace] at hlevel⟩⟩
      | stale =>
        exact ⟨steps_idle hkeeps rfl rfl, .inl ⟨rfl, hnot fun level hlevel => by simp [hplace] at hlevel⟩⟩
      | running level =>
        refine ⟨⟨hkeeps, ⟨fun slot hslot => ?_, fun id hid' => ?_, fun _ _ _ _ _ h => (nomatch h)⟩,
          fun id hid' => .inl (hid.trans hid')⟩,
          .inr ⟨s, level, rfl, (s.place_running_iff _ _ _).mp ⟨level, hplace⟩, rfl⟩⟩
        · obtain rfl := Option.some.inj hslot
          refine ⟨(s.place reserved.id now gate).2, ?_, Scheduler.place_running hplace⟩
          have hlt := (List.getElem?_eq_some_iff.mp hs).1
          simp only [Registry.poolStep, Pool.step, Pool.onMember, hs, Pool.set]
          exact List.getElem?_set_self hlt
        · exact (h.fresh id (hid.trans hid')).trans_le hkeeps.next_le

theorem step_spec {r : Registry F} {t : Task B} (h : t.Valid r) (op : TaskOp) :
    Steps r t (t.step r op).1 (t.step r op).2 := by
  have hsame : Steps r t r t := ⟨.refl r _, h, fun id hid => .inl hid⟩
  cases op with
  | reserve loads now gate =>
    simp only [step]
    split
    · exact (reserve_spec r t loads now gate).1
    · exact hsame
  | poll now gate =>
    change Steps r t (t.poll r now gate).1 (t.poll r now gate).2
    rcases poll_eq r t now gate with ⟨reserved, member, here, next, -, hphase, heq⟩ | ⟨-, heq | ⟨reserved, here, next,
      hphase, heq⟩⟩
    · rw [heq]
      exact (look_spec h hphase member next now gate).1
    · rw [heq]
      exact hsame
    · rw [heq]
      have hid : t.id = some reserved.id := by rw [Task.id, hphase]
      exact ⟨.refl r _, ⟨fun slot h => (nomatch h), fun id hid' => h.fresh id (hid.trans hid'),
        fun _ _ _ _ _ h => (nomatch h)⟩, fun id hid' => .inl (hid.trans hid')⟩
  | attempt built now gate =>
    change Steps r t (t.attempt r built now gate).1 (t.attempt r built now gate).2
    unfold attempt
    split
    · rename_i reserved slot waitMs hphase
      have hslot : t.slot = some slot := by rw [Task.slot, hphase]
      split
      · exact hsame
      · rename_i x hx
        split
        · rename_i error _
          obtain ⟨hnone, hid, -⟩ := t.failed_idle reserved error
          exact steps_idle (keeps_finishSlot (.refl r _) hslot _ now gate) hnone hid
        · split
          · rename_i detail _
            obtain ⟨hnone, hid, -⟩ := t.failed_idle reserved (.unreachable detail)
            exact steps_idle (keeps_finishSlot (r.keeps_trip _ now _ _) hslot _ now gate) hnone hid
          · have hkeeps := r.keeps_build reserved.backend t.Ends
            refine ⟨hkeeps, ⟨fun slot' hs => ?_, fun id hid => h.fresh id ?_, ?_⟩, fun id hid => .inl ?_⟩
            · exact h.slot_runs slot' (hslot.trans hs)
            · exact (id_of_slot hslot).trans hid
            · rintro _ _ _ _ _ ⟨⟩
              obtain ⟨x', hx', -, hspec⟩ := hkeeps.backend _ x hx
              exact ⟨x', hx', by rw [Backend.overwrite, Backend.overwrite, hspec]⟩
            · exact (id_of_slot hslot).trans hid
    · exact hsame
  | streamed result now gate =>
    change Steps r t (t.streamed r result now gate).1 (t.streamed r result now gate).2
    unfold streamed
    split
    · rename_i reserved slot waitMs sent started hphase
      have hslot : t.slot = some slot := by rw [Task.slot, hphase]
      split
      · rename_i error
        obtain ⟨hnone, hid, -⟩ := t.failed_idle reserved error
        refine steps_idle (keeps_finishSlot ?_ hslot _ now gate) hnone hid
        split
        · exact r.keeps_trip _ now _ _
        · exact .refl r _
      · exact steps_idle (keeps_finishSlot (r.keeps_close _ _) hslot _ now gate) rfl rfl
    · exact hsame
  | cancel now gate =>
    change Steps r t (t.cancel r now gate).1 (t.cancel r now gate).2
    unfold cancel
    split
    · rename_i reserved slot waitMs hphase
      have hslot : t.slot = some slot := by rw [Task.slot, hphase]
      exact steps_idle (keeps_finishSlot (.refl r _) hslot _ now gate) rfl rfl
    · rename_i reserved slot waitMs sent started hphase
      have hslot : t.slot = some slot := by rw [Task.slot, hphase]
      exact steps_idle (keeps_finishSlot (.refl r _) hslot _ now gate) rfl rfl
    · exact hsame
    · exact steps_idle (.refl r _) rfl rfl

/-- The step finds no call running away from the backend it was reserved on: a poll that asks another member's
scheduler finds its call neither running there nor able to start there. -/
def AtHome (r : Registry F) (t : Task B) : TaskOp → Prop
  | .poll now gate => ∀ reserved member, t.asks r = some (reserved, member) →
    (∃ x, r.backends[reserved.backend]? = some x ∧ x.member = member) ∨
      ∀ s, r.pool.members[member]? = some s → s.runsWhenPolled reserved.id now gate = false
  | _ => True

/-- **A poll** leaves the call with its own backend exactly when it finds it at home. -/
theorem poll_own_iff {r : Registry F} {t : Task B} (h : t.Valid r) (hown : t.Own r.backends) (now : Nat)
    (gate : Gate) : (t.poll r now gate).2.Own (t.poll r now gate).1.backends ↔ t.AtHome r (.poll now gate) := by
  have hsteps : Steps r t (t.poll r now gate).1 (t.poll r now gate).2 := step_spec h (.poll now gate)
  rcases poll_eq r t now gate with ⟨reserved, member, here, next, hasks, hphase, heq⟩ | ⟨hasks, hquiet⟩
  · have hbackends : (t.look r reserved member next now gate).1.backends = r.backends := by
      unfold look
      split <;> rfl
    rw [own_iff hsteps.valid, heq, hbackends]
    obtain ⟨-, ⟨hnone, hnot⟩ | ⟨s, level, hs, hruns, hserved⟩⟩ := look_spec h hphase member next now gate
    · rw [hnone]
      refine iff_of_true (fun b slot hserved => (nomatch hserved)) fun reserved' member' hasks' => ?_
      obtain ⟨rfl, rfl⟩ := Prod.mk.inj (Option.some.inj (hasks.symm.trans hasks'))
      exact .inr hnot
    · rw [hserved]
      constructor
      · intro hhome reserved' member' hasks'
        obtain ⟨rfl, rfl⟩ := Prod.mk.inj (Option.some.inj (hasks.symm.trans hasks'))
        exact .inl (hhome _ _ rfl)
      · intro hhome b slot heq'
        obtain ⟨rfl, rfl⟩ := Prod.mk.inj (Option.some.inj heq')
        refine (hhome reserved member hasks).resolve_right fun hnot => ?_
        rw [hnot s hs] at hruns
        cases hruns
  · refine iff_of_true ?_ fun reserved member h' => by rw [hasks] at h'; cases h'
    rcases hquiet with heq | ⟨reserved, here, next, -, heq⟩
    · rw [heq]
      exact hown
    · rw [heq]
      trivial

theorem step_servedBy (r : Registry F) (t : Task B) {op : TaskOp} (hop : ∀ now gate, op ≠ .poll now gate) :
    (t.step r op).2.servedBy = none ∨ (t.step r op).2.servedBy = t.servedBy := by
  cases op with
  | reserve loads now gate =>
    simp only [step]
    split
    · exact .inl (reserve_spec r t loads now gate).2
    · exact .inr rfl
  | poll now gate => exact absurd rfl (hop now gate)
  | attempt built now gate =>
    simp only [step, attempt]
    split
    · rename_i reserved slot waitMs hphase
      have hserved : t.servedBy = some (reserved.backend, slot) := by rw [servedBy, hphase]
      split
      · exact .inr rfl
      · split
        · rename_i error _
          exact .inl (t.failed_idle reserved error).2.2
        · split
          · rename_i detail _
            exact .inl (t.failed_idle reserved (.unreachable detail)).2.2
          · exact .inr hserved.symm
    · exact .inr rfl
  | streamed result now gate =>
    simp only [step, streamed]
    split
    · rename_i reserved _ _ _ _ _
      split
      · rename_i error
        exact .inl (t.failed_idle reserved error).2.2
      · exact .inl rfl
    · exact .inr rfl
  | cancel now gate =>
    simp only [step, cancel]
    split
    · exact .inl rfl
    · exact .inl rfl
    · exact .inr rfl
    · exact .inl rfl

/-- **A step of one call** leaves it with its own backend exactly when it finds it at home. -/
theorem step_own_iff {r : Registry F} {t : Task B} (h : t.Valid r) (hown : t.Own r.backends) (op : TaskOp) :
    (t.step r op).2.Own (t.step r op).1.backends ↔ t.AtHome r op := by
  by_cases hop : ∃ now gate, op = .poll now gate
  · obtain ⟨now, gate, rfl⟩ := hop
    exact poll_own_iff h hown now gate
  · have hsteps := step_spec h op
    have hserved := step_servedBy r t fun now gate heq => hop ⟨now, gate, heq⟩
    refine iff_of_true ((own_iff hsteps.valid).mpr fun b slot hs => ?_) ?_
    · rcases hserved with hnone | hsame
      · rw [hnone] at hs
        cases hs
      · exact served_keep hsteps.keeps ((own_iff h).mp hown b slot (hsame ▸ hs))
    · cases op with
      | poll now gate => exact absurd ⟨now, gate, rfl⟩ hop
      | _ => trivial

end Task

/-! ## All calls -/

namespace Fleet
variable {F B : Type}

/-- The calls in flight through the client of `backend`. -/
def inFlight (f : Fleet F B) (backend : Nat) : List Nat := f.tasks.filterMap (Task.inFlight backend)

/-- The calls running at `backend`'s own scheduler. -/
def runningAt (f : Fleet F B) (backend : Nat) : List Runner :=
  match f.registry.backends[backend]?.bind fun x => f.registry.pool.members[x.member]? with
  | none => []
  | some s => s.state.queue.running

def OwnClient (f : Fleet F B) : Prop := ∀ t ∈ f.tasks, t.Own f.registry.backends

def Bounded (f : Fleet F B) : Prop := ∀ backend, (f.inFlight backend).length ≤ (f.runningAt backend).length

/-- **The invariant of a fleet.** -/
structure Sound (f : Fleet F B) : Prop where
  valid : ∀ t ∈ f.tasks, t.Valid f.registry
  /-- Calls wait and run under ids of their own. -/
  distinct : ∀ (i j : Nat) (t u : Task B) (id : Nat), f.tasks[i]? = some t → f.tasks[j]? = some u → t.id = some id →
    u.id = some id → i = j

theorem sound_empty : (empty : Fleet F B).Sound :=
  ⟨by simp [empty], fun i j t u id h => by simp [empty] at h⟩

theorem id_of_inFlight {t : Task B} {backend id : Nat} (h : t.inFlight backend = some id) : ∃ slot,
    t.servedBy = some (backend, slot) ∧ t.slot = some slot ∧ slot.id = id := by
  unfold Task.inFlight at h
  unfold Task.servedBy Task.slot
  split at h
  · split_ifs at h with hbackend
    obtain rfl := Option.some.inj h
    simp_all
  · cases h

variable {f : Fleet F B}

theorem inFlight_nodup (h : f.Sound) (backend : Nat) : (f.inFlight backend).Nodup := by
  rw [inFlight, List.Nodup, List.pairwise_filterMap, List.pairwise_iff_getElem]
  intro i j hi hj hlt a ha b hb heq
  obtain ⟨slot, -, hslot, rfl⟩ := id_of_inFlight ha
  obtain ⟨slot', -, hslot', rfl⟩ := id_of_inFlight hb
  have hij := h.distinct i j _ _ slot.id (List.getElem?_eq_getElem hi) (List.getElem?_eq_getElem hj)
    (Task.id_of_slot hslot) (heq ▸ Task.id_of_slot hslot')
  omega

/-- **What is in flight runs**, where every call is served by its own backend. -/
theorem bounded_of_ownClient (h : f.Sound) (hown : f.OwnClient) : f.Bounded := by
  intro backend
  have hsub : f.inFlight backend ⊆ (f.runningAt backend).map Runner.id := by
    intro id hid
    obtain ⟨t, ht, hflight⟩ := List.mem_filterMap.mp hid
    obtain ⟨slot, hserved, hslot, rfl⟩ := id_of_inFlight hflight
    obtain ⟨x, hx, hmember⟩ := (Task.own_iff (h.valid t ht)).mp (hown t ht) _ _ hserved
    obtain ⟨s, hs, hruns⟩ := (h.valid t ht).slot_runs slot hslot
    have hrunning : f.runningAt backend = s.state.queue.running := by
      rw [runningAt, hx, Option.bind_some, hmember, hs]
    obtain ⟨runner, hrunner, hrid⟩ := Queue.mem_runningIds.mp hruns
    rw [hrunning]
    exact List.mem_map.mpr ⟨runner, hrunner, hrid⟩
  have hle := (List.subperm_of_subset (inFlight_nodup h backend) hsub).length_le
  rwa [List.length_map] at hle

theorem Sound.keep (h : f.Sound) {r : Registry F} {ended : Nat → Nat → Prop}
    (hkeeps : f.registry.Keeps r ended)
    (hslots : ∀ t ∈ f.tasks, ∀ slot, t.slot = some slot → ¬ ended slot.id slot.home) :
    ({ f with registry := r } : Fleet F B).Sound ∧
      (f.OwnClient → ({ f with registry := r } : Fleet F B).OwnClient) := by
  have hvalid : ∀ t ∈ f.tasks, t.Valid r := fun t ht => (h.valid t ht).keep hkeeps (hslots t ht)
  refine ⟨⟨hvalid, h.distinct⟩, fun hown t ht => ?_⟩
  refine (Task.own_iff (hvalid t ht)).mpr fun b slot hserved => ?_
  exact Task.served_keep hkeeps ((Task.own_iff (h.valid t ht)).mp (hown t ht) b slot hserved)

theorem not_finishes_of_owns {op : PoolOp} (h : f.owns op = false) {t : Task B} (ht : t ∈ f.tasks)
    {slot : CallSlot} (hslot : t.slot = some slot) : ¬ Pool.Finishes slot.id slot.home op := by
  intro hfinishes
  cases op with
  | finish member id report now gate =>
    obtain ⟨rfl, rfl⟩ := hfinishes
    refine absurd h (Bool.not_eq_false _ ▸ ?_)
    exact List.any_eq_true.mpr ⟨t, ht, by simp [hslot]⟩
  | _ => exact hfinishes

variable [Meter F]

/-- No poll finds its call running away from the backend it was reserved on. -/
def PolledAtHome (f : Fleet F B) : FleetOp B → Prop
  | .task index op => ∀ t, f.tasks[index]? = some t → t.AtHome f.registry op
  | _ => True

theorem Sound.task (h : f.Sound) {index : Nat} {t : Task B} (ht : f.tasks[index]? = some t)
    (op : TaskOp) :
    (⟨(t.step f.registry op).1, f.tasks.set index (t.step f.registry op).2⟩ : Fleet F B).Sound ∧
      (f.OwnClient → ((⟨(t.step f.registry op).1, f.tasks.set index (t.step f.registry op).2⟩ : Fleet F B).OwnClient ↔
        t.AtHome f.registry op)) := by
  have hmem : t ∈ f.tasks := List.mem_of_getElem? ht
  have hsteps := Task.step_spec (h.valid t hmem) op
  have hlt : index < f.tasks.length := (List.getElem?_eq_some_iff.mp ht).1
  -- a task after the step is the one that stepped, or another one that is as it was
  have hat : ∀ (i : Nat) (u : Task B), (f.tasks.set index (t.step f.registry op).2)[i]? = some u →
      i = index ∧ u = (t.step f.registry op).2 ∨ i ≠ index ∧ f.tasks[i]? = some u := by
    intro i u hu
    by_cases hi : i = index
    · subst hi
      rw [List.getElem?_set_self hlt] at hu
      exact .inl ⟨rfl, (Option.some.inj hu).symm⟩
    · rw [List.getElem?_set_ne (Ne.symm hi)] at hu
      exact .inr ⟨hi, hu⟩
  have hother : ∀ (i : Nat) (u : Task B), i ≠ index → f.tasks[i]? = some u →
      ∀ slot, u.slot = some slot → ¬ t.Ends slot.id slot.home := by
    rintro i u hi hu slot hslot ⟨slot', hslot', heq⟩
    exact hi (h.distinct i index u t slot.id hu ht (Task.id_of_slot hslot) (heq ▸ Task.id_of_slot hslot'))
  have hfresh : ∀ (i : Nat) (u : Task B) (id : Nat), f.tasks[i]? = some u → u.id = some id →
      id < f.registry.pool.nextWaiter := fun i u id hu hid => (h.valid u (List.mem_of_getElem? hu)).fresh id hid
  refine ⟨⟨?_, ?_⟩, fun hown => ⟨fun hafter => ?_, fun hhome => ?_⟩⟩
  · intro u hu
    obtain ⟨i, hi⟩ := List.mem_iff_getElem?.mp hu
    rcases hat i u hi with ⟨-, rfl⟩ | ⟨hne, hold⟩
    · exact hsteps.valid
    · exact (h.valid u (List.mem_of_getElem? hold)).keep hsteps.keeps (hother i u hne hold)
  · intro i j u v id hu hv hid hid'
    rcases hat i u hu with ⟨rfl, rfl⟩ | ⟨hi, hu'⟩ <;> rcases hat j v hv with ⟨rfl, rfl⟩ | ⟨hj, hv'⟩
    · rfl
    · rcases hsteps.id_from id hid with hold | rfl
      · exact h.distinct _ _ t v id ht hv' hold hid'
      · exact absurd (hfresh j v _ hv' hid') (Nat.lt_irrefl _)
    · rcases hsteps.id_from id hid' with hold | rfl
      · exact h.distinct _ _ u t id hu' ht hid hold
      · exact absurd (hfresh i u _ hu' hid) (Nat.lt_irrefl _)
    · exact h.distinct i j u v id hu' hv' hid hid'
  · exact (Task.step_own_iff (h.valid t hmem) (hown t hmem) op).mp (hafter _ (List.mem_set hlt _))
  · intro u hu
    obtain ⟨i, hi⟩ := List.mem_iff_getElem?.mp hu
    rcases hat i u hi with ⟨-, rfl⟩ | ⟨hne, hold⟩
    · exact (Task.step_own_iff (h.valid t hmem) (hown t hmem) op).mpr hhome
    · have hu := List.mem_of_getElem? hold
      refine (Task.own_iff ((h.valid u hu).keep hsteps.keeps (hother i u hne hold))).mpr fun b slot hserved => ?_
      exact Task.served_keep hsteps.keeps ((Task.own_iff (h.valid u hu)).mp (hown u hu) b slot hserved)

/-- **One step of a fleet** keeps the invariant, and own clients exactly when it polls at home. -/
theorem Sound.next (h : f.Sound) (op : FleetOp B) :
    (f.step op).Sound ∧ (f.OwnClient → ((f.step op).OwnClient ↔ f.PolledAtHome op)) := by
  have hkeep : ∀ {r : Registry F} {ended : Nat → Nat → Prop}, f.registry.Keeps r ended →
      (∀ t ∈ f.tasks, ∀ slot, t.slot = some slot → ¬ ended slot.id slot.home) →
      ({ f with registry := r } : Fleet F B).Sound ∧
        (f.OwnClient → (({ f with registry := r } : Fleet F B).OwnClient ↔ True)) := by
    intro r ended hkeeps hslots
    obtain ⟨hsound, hown⟩ := h.keep hkeeps hslots
    exact ⟨hsound, fun hbefore => iff_of_true (hown hbefore) trivial⟩
  cases op with
  | other op =>
    simp only [step]
    split_ifs with howns
    · exact ⟨h, fun hown => iff_of_true hown trivial⟩
    · exact hkeep (f.registry.keeps_poolStep op) fun t ht slot hslot =>
        not_finishes_of_owns (Bool.not_eq_true _ ▸ howns) ht hslot
  | join specs config now =>
    exact hkeep (f.registry.keeps_join specs config now fun _ _ => False) fun _ _ _ _ hnot => hnot
  | buildFailed backend now cooldown =>
    exact hkeep (f.registry.keeps_trip backend now cooldown fun _ _ => False) fun _ _ _ _ hnot => hnot
  | built backend => exact hkeep (f.registry.keeps_build backend fun _ _ => False) fun _ _ _ _ hnot => hnot
  | call joined cooldown request callMeta =>
    refine ⟨⟨fun t ht => ?_, fun i j t u id ht hu hid hid' => ?_⟩, fun hown => iff_of_true (fun t ht => ?_) trivial⟩
    · rcases List.mem_append.mp ht with hin | hnew
      · exact h.valid t hin
      · rw [List.mem_singleton.mp hnew]
        exact Task.valid_idle rfl rfl
    · have hold : ∀ (i : Nat) (t : Task B), (f.tasks ++ [.start joined cooldown request callMeta])[i]? = some t →
          t.id = some id → f.tasks[i]? = some t := by
        intro i t ht hid
        rcases Nat.lt_or_ge i f.tasks.length with hlt | hge
        · rwa [List.getElem?_append_left hlt] at ht
        · rw [List.getElem?_append_right hge, List.getElem?_singleton] at ht
          split_ifs at ht
          obtain rfl := Option.some.inj ht
          cases hid
      exact h.distinct i j t u id (hold i t ht hid) (hold j u hu hid') hid hid'
    · rcases List.mem_append.mp ht with hin | hnew
      · exact hown t hin
      · rw [List.mem_singleton.mp hnew]
        trivial
  | task index op =>
    simp only [step, PolledAtHome]
    cases ht : f.tasks[index]? with
    | none => exact ⟨h, fun hown => iff_of_true hown fun t h' => (nomatch h')⟩
    | some t =>
      obtain ⟨hsound, hown⟩ := h.task ht op
      refine ⟨hsound, fun hbefore => (hown hbefore).trans ⟨fun hhome u hu => ?_, fun hall => hall t rfl⟩⟩
      obtain rfl := Option.some.inj hu
      exact hhome

end Fleet

open Fleet in
/-- **Every slot's own client.** Over every run of calls, completions, moves and whatever else shares the pool: each call
with a slot is streamed through the client of the backend its bucket belongs to, with that backend's breaker, tag and
thinking, and no client has more in flight than runs at its backend, if and only if no poll finds its call running away
from the backend it was reserved on. -/
theorem own_client_iff {F B : Type} [Meter F] (ops : List (FleetOp B)) :
    Throughout step (fun f => f.OwnClient ∧ f.Bounded) (empty : Fleet F B) ops ↔
      Along step PolledAtHome (empty : Fleet F B) ops := by
  have hempty : (empty : Fleet F B).Sound ∧ (empty : Fleet F B).OwnClient := ⟨sound_empty, by simp [OwnClient, empty]⟩
  have hiff := throughout_iff_along (I := fun f : Fleet F B => f.Sound ∧ f.OwnClient) (P := PolledAtHome)
    (fun f op hf => ⟨fun h => ((hf.1.next op).2 hf.2).mp h.2,
      fun h => ⟨(hf.1.next op).1, ((hf.1.next op).2 hf.2).mpr h⟩⟩) hempty ops
  rw [← hiff]
  constructor
  · intro h
    exact (throughout_invariant (fun f op (hf : f.Sound) => (hf.next op).1) hempty.1 ops).and
      (h.imp fun f hf => hf.1)
  · intro h
    exact h.imp fun f hf => ⟨hf.2, bounded_of_ownClient hf.1 hf.2⟩

/-! ## A call streamed through another backend's client -/

def idleLoad : Load := ⟨0, 0, 1, 2000⟩

def busyLoad : Load := ⟨1, 0, 1, 2000⟩

def plainCall : FleetOp Unit :=
  .call ⟨[0, 1], bitOf 0 ||| bitOf 1⟩ 20000000000 ⟨"model", none, ()⟩ (.new "call" .medium "")

/-- Two backends of one call at a time, three calls. Calls 0 and 1 stream, one at each backend; call 2 waits at the
first. Call 1 ends, call 2 moves to the idle second backend and starts there, and its future finds it. -/
def movedCall : List (FleetOp Unit) :=
  [.join [⟨⟨"a"⟩, false, none, none⟩, ⟨⟨"b"⟩, false, none, none⟩] ⟨⟨1, 256, 4⟩, SchedulerConfig.validate_oneCall⟩ 0,
   plainCall, plainCall, plainCall,
   .task 0 (.reserve (fun _ => idleLoad) 0 .open), .task 0 (.poll 0 .open), .task 0 (.attempt (.ok ()) 0 .open),
   .task 1 (.reserve (fun position => if position = 0 then busyLoad else idleLoad) 0 .open),
   .task 1 (.poll 0 .open), .task 1 (.attempt (.ok ()) 0 .open),
   .task 2 (.reserve (fun _ => busyLoad) 0 .open), .task 2 (.poll 0 .open),
   .task 1 (.streamed (.ok ⟨"hi", 0, none⟩) 0 .open),
   .other (.move 0 1 (bitOf 1) 0 .open),
   .task 2 (.poll 0 .open), .task 2 (.poll 0 .open), .task 2 (.poll 0 .open), .task 2 (.poll 0 .open),
   .task 2 (.attempt (.ok ()) 0 .open)]

/-- **The moved call streams through the wrong client**: its bucket is the second backend's, and the first one's client
has two calls in flight for one bucket. -/
theorem moved_call_streams_elsewhere :
    let f := run Fleet.step (Fleet.empty : Fleet Fraction Unit) movedCall
    f.tasks.map Task.servedBy = [some (0, ⟨0, 0, 1⟩), none, some (0, ⟨1, 2, 1⟩)] ∧
      f.inFlight 0 = [0, 2] ∧ (f.runningAt 0).length = 1 ∧ ¬ f.Bounded := by
  have hflight : (run Fleet.step (Fleet.empty : Fleet Fraction Unit) movedCall).inFlight 0 = [0, 2] := by decide
  have hrunning : ((run Fleet.step (Fleet.empty : Fleet Fraction Unit) movedCall).runningAt 0).length = 1 := by decide
  refine ⟨by decide, hflight, hrunning, fun hbounded => ?_⟩
  have hle := hbounded 0
  rw [hflight, hrunning] at hle
  exact absurd hle (by decide)

end Cuca.Services
