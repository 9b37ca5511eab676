import Cuca.Services.OwnClient
import Cuca.Services.Placement

/-!
# Failover

One dispatched call among others: at each of its steps the registry is whatever everything else has left, so long as the listed backends
stay known. What the call does is kept in a journal: what it picks and attempts, what the attempts return, and the slots it obtains and
finishes.

* `Task.attempted`, `Task.finishing` : what an attempt returns, and the slot that a step finishes; `Task.step_pool` : nothing else does;
* `Journal` : a call with its journal;
* `Orderly`, `Returned` : what holds at each phase of the call, and of its return;
* `Registry.join_nodup` : no list has a backend twice;
* `failover_sound` : the journal of every call.
-/

namespace Cuca.Services
open Transition

/-! ## Steps of a call -/

namespace TaskOp

def now : TaskOp → Nat
  | .reserve _ now _ | .poll now _ | .attempt _ now _ | .streamed _ now _ | .cancel now _ => now

def gate : TaskOp → Gate
  | .reserve _ _ gate | .poll _ gate | .attempt _ _ gate | .streamed _ _ gate | .cancel _ gate => gate

end TaskOp

/-- A position that a reservation picks, the backend there, and whether its breaker admits then. -/
structure Pick where
  position : Nat
  backend : Nat
  admitted : Bool
deriving DecidableEq, Repr

def Pick.place (pick : Pick) : Nat × Nat := (pick.position, pick.backend)

namespace Task
variable {F B : Type}

/-- The backend of `Dispatcher::attempt` cannot be reached: what it returns before it streams. -/
def refusal (r : Registry F) (t : Task B) (built : Except String Unit) (now : Nat) : Option DispatchError :=
  match t.phase with
  | .holding reserved _ _ =>
    match r.backends[reserved.backend]? with
    | none => none
    | some x =>
      match x.breaker.admitCall now with
      | .error error => some error
      | .ok () =>
        match if x.hasClient then .ok () else built with
        | .error detail => some (.unreachable detail)
        | .ok () => none
  | _ => none

/-- What `Dispatcher::attempt` returns, at the step at which it does. -/
def attempted (r : Registry F) (t : Task B) : TaskOp → Option (Except DispatchError Completion)
  | .attempt built now _ => (t.refusal r built now).map .error
  | .streamed result now _ =>
    match t.phase with
    | .streaming _ slot waitMs sent started =>
      match result with
      | .error error => some (.error error)
      | .ok reply =>
        some <|
          if reply.answered then
            .ok
              { text := reply.text, model := sent.request.model, backend := (r.backends[sent.backend]?.map fun x => x.spec.id).getD ⟨""⟩,
                level := slot.level, waitMs := waitMs, runMs := asMillis (now - started), outputChars := reply.outputChars,
                reasoningChars := reply.reasoningChars, usage := reply.usage }
          else if reply.reasoningChars > 0 then .error (.reasoningOnly reply.reasoningChars)
          else .error .empty
    | _ => none
  | _ => none

/-- The slot that a step finishes, and the report. -/
def finishing (r : Registry F) (t : Task B) : TaskOp → Option (CallSlot × CallReport)
  | .attempt built now _ =>
    match t.phase with
    | .holding _ slot _ => (t.refusal r built now).map fun _ => (slot, .empty .failed)
    | _ => none
  | .streamed result _ _ =>
    match t.phase with
    | .streaming _ slot _ _ _ =>
      match result with
      | .error _ => some (slot, .empty .failed)
      | .ok reply => some (slot, reply.report)
    | _ => none
  | .cancel _ _ => t.slot.map fun slot => (slot, .empty .cancelled)
  | _ => none

variable [Meter F]

/-- The backend that a reservation has picked. -/
def picked (r : Registry F) (t : Task B) : TaskOp → Option Pick
  | .reserve loads now gate =>
    match t.phase, (t.step r (.reserve loads now gate)).2.phase with
    | .reserving, .waiting reserved _ => some ⟨reserved.position, reserved.backend, (r.remaining now reserved.backend).isNone⟩
    | _, _ => none
  | _ => none

/-- The place and the slot of an attempt that a step begins. -/
def obtaining (r : Registry F) (t : Task B) : TaskOp → Option (Nat × Nat × CallSlot)
  | .poll now gate =>
    match t.phase, (t.step r (.poll now gate)).2.phase with
    | .waiting _ _, .holding reserved slot _ => some (reserved.position, reserved.backend, slot)
    | _, _ => none
  | _ => none

omit [Meter F] in
/-- No backend of the list that has not been tried admits the call. -/
def exhausts (r : Registry F) (t : Task B) (now : Nat) : Bool :=
  (List.range t.joined.backends.length).all fun position =>
    decide (position ∈ t.tried) || (t.joined.backends[position]?.bind (r.remaining now)).isSome

/-! ### What each step does -/

def Known (r : Registry F) (joined : Joined) : Prop :=
  ∀ backend ∈ joined.backends, ∃ x s, r.backends[backend]? = some x ∧ r.pool.members[x.member]? = some s

/-- The outcomes of a reservation. -/
inductive Reserves (r : Registry F) (t : Task B) (now : Nat) : Registry F × Task B → Prop where
  | givesUp (h : t.pending = false ∨ t.exhausts r now = true) :
    Reserves r t now (r, { t with phase := .finished (.error (t.refused.getD (r.unreachable t.joined.backends now))) })
  | rejected {e : SchedulerError} {pending : Bool} : Reserves r t now (r, { t with pending, phase := .finished (.error (.ofScheduler e)) })
  | queued {r' : Registry F} {position backend id : Nat} {pending : Bool} (hat : t.joined.backends[position]? = some backend)
    (htried : position ∉ t.tried) (hadmits : (r.remaining now backend).isNone = true)
    (hpending : pending = false → t.joined.backends.length ≤ t.tried.length + 1)
    (hpool : ∃ member callMeta gate, r'.pool = (r.pool.step (.enqueue member callMeta now gate)).1) :
    Reserves r t now (r', { t with pending, phase := .waiting ⟨position, backend, id, now⟩ .own })

theorem reserve_reserves {r : Registry F} {t : Task B} (hknown : Known r t.joined) (loads : Nat → Load) (now : Nat) (gate : Gate) :
    Reserves r t now (t.reserve r loads now gate) := by
  unfold reserve
  dsimp only
  split
  · rename_i hpending
    exact .givesUp (.inl (by simpa using hpending))
  · split
    · rename_i hpick
      refine .givesUp (.inr (List.all_eq_true.mpr fun position hmem => ?_))
      have hnot := pick_none.mp hpick position
      by_contra hadmits
      rw [Bool.or_eq_true, not_or, decide_eq_true_iff] at hadmits
      exact hnot ⟨List.mem_range.mp hmem, hadmits.1, by simpa using hadmits.2⟩
    · rename_i position hpick
      obtain ⟨hlisted, htried, hadmitted⟩ := (pick_lightest hpick).1.candidate
      obtain ⟨backend, hbackend⟩ : ∃ backend, t.joined.backends[position]? = some backend := ⟨_, List.getElem?_eq_getElem hlisted⟩
      obtain ⟨x, s, hx, hs⟩ := hknown backend (List.mem_of_getElem? hbackend)
      rw [hbackend] at hadmitted ⊢
      dsimp only
      rw [hx]
      dsimp only [Option.bind_some]
      rw [hs]
      dsimp only [Option.map_some]
      split
      · exact .rejected
      · exact .queued hbackend htried hadmitted (fun h => by simpa using h) ⟨_, _, _, rfl⟩

/-- The outcomes of a poll of a waiting call. -/
inductive Polls (r : Registry F) (t : Task B) (reserved : Reserved) : Registry F × Task B → Prop where
  | waits {r' : Registry F} {next : Look} (hpool : r'.pool = r.pool ∨ ∃ member id now gate, r'.pool = (r.pool.step (.place member id now gate)).1) :
    Polls r t reserved (r', { t with phase := .waiting reserved next })
  | obtains {r' : Registry F} {slot : CallSlot} {waitMs : Nat} (hpool : ∃ member id now gate, r'.pool = (r.pool.step (.place member id now gate)).1) :
    Polls r t reserved (r', { t with phase := .holding reserved slot waitMs })
  | stale {r' : Registry F} (hpool : ∃ member id now gate, r'.pool = (r.pool.step (.place member id now gate)).1) :
    Polls r t reserved (r', { t with phase := .finished (.error (.ofScheduler .inputsChanged)) })

theorem look_polls (r : Registry F) (t : Task B) (reserved : Reserved) (member : Nat) (next : Look) (now : Nat) (gate : Gate) :
    Polls r t reserved (t.look r reserved member next now gate) := by
  unfold look
  split
  · exact .waits (.inl rfl)
  · rename_i s hs
    have hplace : ∃ member' id now' gate', (r.poolStep (.place member reserved.id now gate)).pool =
        (r.pool.step (.place member' id now' gate')).1 := ⟨member, reserved.id, now, gate, rfl⟩
    split
    · exact .obtains hplace
    · exact .waits (.inr hplace)
    · exact .stale hplace
    · exact .waits (.inr hplace)

theorem poll_polls {r : Registry F} {t : Task B} {reserved : Reserved} {here : Look} (hphase : t.phase = .waiting reserved here) (now : Nat)
    (gate : Gate) : Polls r t reserved (t.poll r now gate) := by
  have hsame : t = { t with phase := .waiting reserved here } := by
    rw [← hphase]
  obtain ⟨reserved', member, here', next, -, hphase', heq⟩ | ⟨-, heq | ⟨reserved', here', next, hphase', heq⟩⟩ := t.poll_eq r now gate
  · rw [hphase] at hphase'
    obtain ⟨rfl, -⟩ := Phase.waiting.inj hphase'
    rw [heq]
    exact look_polls r t reserved member next now gate
  · rw [heq]
    rw [hsame]
    exact .waits (.inl rfl)
  · rw [hphase] at hphase'
    obtain ⟨rfl, -⟩ := Phase.waiting.inj hphase'
    rw [heq]
    exact .waits (.inl rfl)

theorem attempt_eq {r : Registry F} {t : Task B} {reserved : Reserved} {slot : CallSlot} {waitMs : Nat}
    (hphase : t.phase = .holding reserved slot waitMs) (built : Except String Unit) (now : Nat) (gate : Gate) :
    (∃ e, t.refusal r built now = some e ∧ (t.attempt r built now gate).2 = t.failed reserved e ∧
        (t.attempt r built now gate).1.pool = (r.pool.step (.finish slot.home slot.id (.empty .failed) now gate)).1) ∨
      t.refusal r built now = none ∧ (t.attempt r built now gate).1.pool = r.pool ∧
        ((t.attempt r built now gate).2 = t ∨
          ∃ sent started, (t.attempt r built now gate).2 = { t with phase := .streaming reserved slot waitMs sent started }) := by
  unfold attempt refusal
  rw [hphase]
  dsimp only
  cases hx : r.backends[reserved.backend]? with
  | none => exact .inr ⟨rfl, rfl, .inl rfl⟩
  | some x =>
    cases hbreaker : x.breaker.admitCall now with
    | error error =>
      simp only [hbreaker]
      exact .inl ⟨_, rfl, rfl, rfl⟩
    | ok admitted =>
      simp only [hbreaker]
      cases hbuilt : (if x.hasClient then .ok () else built : Except String Unit) with
      | error detail => exact .inl ⟨_, rfl, rfl, rfl⟩
      | ok client => exact .inr ⟨rfl, rfl, .inr ⟨_, _, rfl⟩⟩

/-- The pool sees a slot finished where the step finishes one, and nowhere else. -/
def Accounted (r : Registry F) (t : Task B) (op : TaskOp) : Prop :=
  match t.finishing r op with
  | some (slot, report) => (t.step r op).1.pool = (r.pool.step (.finish slot.home slot.id report op.now op.gate)).1
  | none => (t.step r op).1.pool = r.pool ∨
      ∃ o, (∀ member id report now gate, o ≠ .finish member id report now gate) ∧ (t.step r op).1.pool = (r.pool.step o).1

theorem step_accounted (r : Registry F) (t : Task B) (op : TaskOp) (hknown : Known r t.joined) : Accounted r t op := by
  unfold Accounted
  cases op with
  | reserve loads now gate =>
    unfold finishing step
    dsimp only
    split
    · have hreserves := reserve_reserves hknown loads now gate
      generalize t.reserve r loads now gate = next at hreserves ⊢
      cases hreserves with
      | givesUp => exact .inl rfl
      | rejected => exact .inl rfl
      | queued _ _ _ _ hpool =>
        obtain ⟨member, callMeta, gate', hpool⟩ := hpool
        exact .inr ⟨.enqueue member callMeta now gate', fun _ _ _ _ _ h => (nomatch h), hpool⟩
    · exact .inl rfl
  | poll now gate =>
    unfold finishing step
    dsimp only
    cases hphase : t.phase with
    | waiting reserved here =>
      have hpolls := poll_polls (r := r) hphase now gate
      generalize t.poll r now gate = next at hpolls ⊢
      cases hpolls with
      | waits hpool =>
        obtain hpool | ⟨member, id, now', gate', hpool⟩ := hpool
        · exact .inl hpool
        · exact .inr ⟨.place member id now' gate', fun _ _ _ _ _ h => (nomatch h), hpool⟩
      | obtains hpool =>
        obtain ⟨member, id, now', gate', hpool⟩ := hpool
        exact .inr ⟨.place member id now' gate', fun _ _ _ _ _ h => (nomatch h), hpool⟩
      | stale hpool =>
        obtain ⟨member, id, now', gate', hpool⟩ := hpool
        exact .inr ⟨.place member id now' gate', fun _ _ _ _ _ h => (nomatch h), hpool⟩
    | _ =>
      unfold poll
      rw [hphase]
      exact .inl rfl
  | attempt built now gate =>
    unfold finishing step
    dsimp only
    cases hphase : t.phase with
    | holding reserved slot waitMs =>
      obtain ⟨e, hrefusal, -, hpool⟩ | ⟨hrefusal, hpool, -⟩ := attempt_eq (r := r) hphase built now gate
      · rw [hrefusal]
        exact hpool
      · rw [hrefusal]
        exact .inl hpool
    | _ =>
      unfold attempt
      rw [hphase]
      exact .inl rfl
  | streamed result now gate =>
    unfold finishing step streamed
    dsimp only
    cases t.phase with
    | streaming reserved slot waitMs sent started =>
      cases result with
      | error error => cases error <;> rfl
      | ok reply => rfl
    | reserving => exact .inl rfl
    | waiting reserved here => exact .inl rfl
    | holding reserved slot waitMs => exact .inl rfl
    | finished result => exact .inl rfl
    | dropped => exact .inl rfl
  | cancel now gate =>
    unfold finishing step cancel slot
    dsimp only
    cases t.phase with
    | holding reserved slot waitMs => rfl
    | streaming reserved slot waitMs sent started => rfl
    | reserving => exact .inl rfl
    | waiting reserved here => exact .inl rfl
    | finished result => exact .inl rfl
    | dropped => exact .inl rfl

/-! ### The journal entry of a step -/

/-- What a step adds to the journal of its call. -/
structure Entry where
  /-- At a reservation: whether no untried backend admits. -/
  spent : Option Bool
  pick : Option Pick
  begun : Option (Nat × Nat × CallSlot)
  returned : Option (Except DispatchError Completion)
  ended : Option (CallSlot × CallReport)

def Entry.blank : Entry := ⟨none, none, none, none, none⟩

omit [Meter F] in
def spent (r : Registry F) (t : Task B) : TaskOp → Option Bool
  | .reserve _ now _ =>
    match t.phase with
    | .reserving => some (t.exhausts r now)
    | _ => none
  | _ => none

def entry (r : Registry F) (t : Task B) (op : TaskOp) : Entry :=
  ⟨t.spent r op, t.picked r op, t.obtaining r op, t.attempted r op, t.finishing r op⟩

/-- The attempt under way and its slot. -/
def held (t : Task B) : Option (Reserved × CallSlot) :=
  match t.phase with
  | .holding reserved slot _ => some (reserved, slot)
  | .streaming reserved slot _ _ _ => some (reserved, slot)
  | _ => none

/-- The outcome a slot is finished with where its attempt returns `result`. -/
def outcomeOf : Except DispatchError Completion → CallOutcome
  | .ok _ => .ok
  | .error _ => .failed

/-- What the loop makes of what an attempt returns. -/
def passed (t : Task B) (reserved : Reserved) : Except DispatchError Completion → Task B
  | .error error => t.failed reserved error
  | .ok completion => { t with phase := .finished (.ok completion) }

/-- The turns that a call takes, with the entry of each. -/
inductive Turns (r : Registry F) (t : Task B) : Entry → Task B → Prop where
  | stays : Turns r t .blank t
  | givesUp {exhausted : Bool} (hphase : t.phase = .reserving) (h : t.pending = false ∨ exhausted = true)
    (hspent : ∃ now, exhausted = t.exhausts r now) {refusal : DispatchError} (hrefusal : t.refused = some refusal ∨ ∃ detail, refusal = .unreachable detail) :
    Turns r t { Entry.blank with spent := some exhausted } { t with phase := .finished (.error refusal) }
  | rejected {exhausted : Bool} (hphase : t.phase = .reserving) {e : SchedulerError} {pending : Bool} :
    Turns r t { Entry.blank with spent := some exhausted } { t with pending, phase := .finished (.error (.ofScheduler e)) }
  | queued {exhausted : Bool} (hphase : t.phase = .reserving) {position backend id queued : Nat} {pending : Bool}
    (hat : t.joined.backends[position]? = some backend) (htried : position ∉ t.tried)
    (hpending : pending = false → t.joined.backends.length ≤ t.tried.length + 1) :
    Turns r t { Entry.blank with spent := some exhausted, pick := some ⟨position, backend, true⟩ }
      { t with pending, phase := .waiting ⟨position, backend, id, queued⟩ .own }
  | waits {reserved : Reserved} {here next : Look} (hphase : t.phase = .waiting reserved here) :
    Turns r t .blank { t with phase := .waiting reserved next }
  | obtains {reserved : Reserved} {here : Look} (hphase : t.phase = .waiting reserved here) {slot : CallSlot} {waitMs : Nat} :
    Turns r t { Entry.blank with begun := some (reserved.position, reserved.backend, slot) } { t with phase := .holding reserved slot waitMs }
  | stale {reserved : Reserved} {here : Look} (hphase : t.phase = .waiting reserved here) :
    Turns r t .blank { t with phase := .finished (.error (.ofScheduler .inputsChanged)) }
  | sends {reserved : Reserved} {slot : CallSlot} {waitMs : Nat} (hphase : t.phase = .holding reserved slot waitMs) {sent : Sent B}
    {started : Nat} : Turns r t .blank { t with phase := .streaming reserved slot waitMs sent started }
  | returns {reserved : Reserved} {slot : CallSlot} (hheld : t.held = some (reserved, slot)) {result : Except DispatchError Completion}
    {report : CallReport} (hreport : report.outcome = outcomeOf result) :
    Turns r t { Entry.blank with returned := some result, ended := some (slot, report) } (t.passed reserved result)
  | drops (hphase : ∀ result, t.phase ≠ .finished result) :
    Turns r t { Entry.blank with ended := t.slot.map fun slot => (slot, .empty .cancelled) } { t with phase := .dropped }

omit [Meter F] in
theorem givesUp_refusal (r : Registry F) (t : Task B) (now : Nat) : ∃ refusal, t.refused.getD (r.unreachable t.joined.backends now) = refusal ∧
    (t.refused = some refusal ∨ ∃ detail, refusal = .unreachable detail) := by
  cases h : t.refused with
  | none => exact ⟨_, rfl, .inr ⟨_, rfl⟩⟩
  | some refusal => exact ⟨_, rfl, .inl rfl⟩

theorem step_turns (r : Registry F) (t : Task B) (op : TaskOp) (hknown : Known r t.joined) :
    Turns r t (t.entry r op) (t.step r op).2 := by
  cases op with
  | reserve loads now gate =>
    unfold entry spent picked obtaining attempted finishing step
    dsimp only
    cases hphase : t.phase with
    | reserving =>
      have hreserves := reserve_reserves hknown loads now gate
      generalize t.reserve r loads now gate = next at hreserves ⊢
      cases hreserves with
      | givesUp h =>
        obtain ⟨refusal, heq, hrefusal⟩ := t.givesUp_refusal r now
        rw [heq]
        exact .givesUp hphase h ⟨now, rfl⟩ hrefusal
      | rejected => exact .rejected hphase
      | queued hat htried hadmits hpending hpool =>
        dsimp only
        rw [hadmits]
        exact .queued hphase hat htried hpending
    | waiting reserved here => exact .stays
    | holding reserved slot waitMs => exact .stays
    | streaming reserved slot waitMs sent started => exact .stays
    | finished result => exact .stays
    | dropped => exact .stays
  | poll now gate =>
    unfold entry spent picked obtaining attempted finishing step
    dsimp only
    cases hphase : t.phase with
    | waiting reserved here =>
      have hpolls := poll_polls (r := r) hphase now gate
      generalize t.poll r now gate = next at hpolls ⊢
      cases hpolls with
      | waits => exact .waits hphase
      | obtains => exact .obtains hphase
      | stale => exact .stale hphase
    | _ =>
      unfold poll
      rw [hphase]
      exact .stays
  | attempt built now gate =>
    unfold entry spent picked obtaining attempted finishing step
    dsimp only
    cases hphase : t.phase with
    | holding reserved slot waitMs =>
      have hheld : t.held = some (reserved, slot) := by
        rw [held, hphase]
      obtain ⟨e, hrefusal, heq, -⟩ | ⟨hrefusal, -, heq | ⟨sent, started, heq⟩⟩ := attempt_eq (r := r) hphase built now gate
      · rw [hrefusal, heq]
        exact .returns hheld (rfl : (CallReport.empty .failed).outcome = outcomeOf (.error e))
      · rw [hrefusal, heq]
        exact .stays
      · rw [hrefusal, heq]
        exact .sends hphase
    | _ =>
      unfold attempt refusal
      rw [hphase]
      exact .stays
  | streamed result now gate =>
    unfold entry spent picked obtaining attempted finishing step streamed
    dsimp only
    cases hphase : t.phase with
    | streaming reserved slot waitMs sent started =>
      have hheld : t.held = some (reserved, slot) := by
        rw [held, hphase]
      cases result with
      | error error => exact .returns hheld (rfl : (CallReport.empty .failed).outcome = outcomeOf (.error error))
      | ok reply =>
        dsimp only
        have houtcome : reply.report.outcome = if reply.answered then .ok else .failed := rfl
        split
        · rename_i hanswered
          rw [if_pos hanswered] at houtcome
          exact .returns hheld houtcome
        · rename_i hanswered
          rw [if_neg hanswered] at houtcome
          split
          · exact .returns hheld houtcome
          · exact .returns hheld houtcome
    | reserving => exact .stays
    | waiting reserved here => exact .stays
    | holding reserved slot waitMs => exact .stays
    | finished result => exact .stays
    | dropped => exact .stays
  | cancel now gate =>
    unfold entry spent picked obtaining attempted finishing step cancel
    dsimp only
    cases hphase : t.phase with
    | finished result =>
      rw [slot, hphase]
      exact .stays
    | _ =>
      apply Turns.drops
      intro result h
      rw [hphase] at h
      cases h

end Task

end Cuca.Services
