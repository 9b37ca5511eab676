import Cuca.Services.Failover
import Mathlib.Data.Finset.Card

/-!
# The journal of a call

A call among others: at each of its steps the registry is whatever everything else has left, so long as the listed backends stay known.
Its journal keeps what it picks and attempts, what the attempts return, and the slots it obtains and finishes.

* `Registry.join_nodup` : no list has a backend twice;
* `Journal.step` : a step of the call, with its entry;
* `Ongoing`, `Returned` : what holds while the call goes on, and where it has returned;
* `failover_sound` : the journal of every call.
-/

namespace Cuca.Services
open Transition

/-! ## Joined lists -/

theorem nodup_of_firstRepeated {ids : List BackendId} : ∀ {seen : List BackendId}, firstRepeated seen ids = none → seen.Nodup →
    (seen ++ ids).Nodup := by
  induction ids with
  | nil =>
    intro seen _ hseen
    rwa [List.append_nil]
  | cons id ids ih =>
    intro seen hnone hseen
    unfold firstRepeated at hnone
    split at hnone
    · exact nomatch hnone
    · rename_i hnew
      have hnodup := ih hnone (hseen.append (List.nodup_singleton id) (by simpa using hnew))
      rwa [List.append_assoc] at hnodup

namespace Registry
variable {F : Type} [Meter F]

theorem joinSpecs_ids {config : ValidConfig} {now : Nat} {specs : List BackendSpec} {joined' : Joined} :
    ∀ {r : Registry F} {joined : Joined}, (joinSpecs config now specs r joined).2 = .ok joined' →
      ∃ named, joined'.backends = joined.backends ++ named ∧
        named.map (fun b => (joinSpecs config now specs r joined).1.backends[b]?.map fun x => x.spec.id) =
          specs.map fun spec => some spec.id := by
  induction specs with
  | nil =>
    intro r joined h
    obtain rfl := Except.ok.inj h
    exact ⟨[], (List.append_nil _).symm, rfl⟩
  | cons spec specs ih =>
    intro r joined h
    -- the backend that this specification is listed as stays
    have hkept : ∀ {r' : Registry F} {joined₁ : Joined} {b : Nat} {x : Backend}, r'.backends[b]? = some x → x.spec.id = spec.id →
        ((joinSpecs config now specs r' joined₁).1.backends[b]?.map fun x => x.spec.id) = some spec.id := by
      intro r' joined₁ b x hx hid
      obtain ⟨x', hx', -, hspec⟩ := (keeps_joinSpecs config now specs (fun _ _ => False) r' joined₁).backend b x hx
      rw [hx', Option.map_some, hspec, hid]
    unfold joinSpecs at h ⊢
    split at h
    · rename_i known hfound
      obtain ⟨named, hnamed, hids⟩ := ih h
      obtain ⟨hlt, hid⟩ := List.findIdx?_eq_some_iff_getElem.mp hfound
      refine ⟨known :: named, by rw [hnamed, List.append_assoc]; rfl, ?_⟩
      rw [List.map_cons, List.map_cons, hids, hkept (List.getElem?_eq_getElem hlt) (by simpa using hid.1)]
    · dsimp only at h ⊢
      split at h
      · exact nomatch h
      · rename_i hroom
        rw [if_neg hroom]
        obtain ⟨named, hnamed, hids⟩ := ih h
        refine ⟨r.backends.length :: named, by rw [hnamed, List.append_assoc]; rfl, ?_⟩
        rw [List.map_cons, List.map_cons, hids, hkept (x := ⟨spec, false, .closed, r.pool.members.length⟩) (by simp [poolStep]) rfl]

theorem join_nodup {r : Registry F} {specs : List BackendSpec} {config : ValidConfig} {now : Nat} {joined : Joined}
    (h : (r.join specs config now).2 = .ok joined) : joined.backends.Nodup := by
  unfold join at h
  split at h
  · exact nomatch h
  · rename_i hdistinct
    have hids : (specs.map BackendSpec.id).Nodup := nodup_of_firstRepeated hdistinct List.nodup_nil
    obtain ⟨named, hnamed, heq⟩ := joinSpecs_ids h
    rw [List.nil_append] at hnamed
    rw [hnamed]
    apply List.Nodup.of_map (fun b => (joinSpecs config now specs r ⟨[], 0⟩).1.backends[b]?.map fun x => x.spec.id)
    rw [heq]
    have hsome := hids.map (Option.some_injective BackendId)
    rwa [List.map_map] at hsome

end Registry

/-! ## The journal -/

/-- A registry at a step of a call, in which its listed backends are known. -/
structure Scene (F : Type) (joined : Joined) where
  registry : Registry F
  known : Task.Known registry joined

/-- A call with its journal. -/
structure Journal (B : Type) where
  task : Task B
  /-- Whether the last reservation found that no untried backend admits. -/
  exhausted : Bool
  picks : List Pick
  /-- Positions in the list, with the backends there. -/
  attempts : List (Nat × Nat)
  results : List (Except DispatchError Completion)
  obtained : List CallSlot
  finished : List (CallSlot × CallReport)

def Unreachable (result : Except DispatchError Completion) : Prop := ∃ detail, result = .error (.unreachable detail)

namespace Journal
variable {F B : Type}

def start (task : Task B) : Journal B := ⟨task, false, [], [], [], [], []⟩

def note (j : Journal B) (entry : Task.Entry) (task : Task B) : Journal B where
  task := task
  exhausted := entry.spent.getD j.exhausted
  picks := j.picks ++ entry.pick.toList
  attempts := j.attempts ++ (entry.begun.map fun begun => (begun.1, begun.2.1)).toList
  results := j.results ++ entry.returned.toList
  obtained := j.obtained ++ (entry.begun.map fun begun => begun.2.2).toList
  finished := j.finished ++ entry.ended.toList

def step [Meter F] {joined : Joined} (j : Journal B) (event : Scene F joined × TaskOp) : Journal B :=
  j.note (j.task.entry event.1.registry event.2) (j.task.step event.1.registry event.2).2

/-! ## What holds of it -/

/-- The picks are different positions of the list, each admitted, and the attempts are the first of them. -/
structure Sound (joined : Joined) (j : Journal B) : Prop where
  same : j.task.joined = joined
  positions : (j.picks.map Pick.position).Nodup
  picked : ∀ pick ∈ j.picks, pick.admitted = true ∧ joined.backends[pick.position]? = some pick.backend
  attempts : j.attempts <+: j.picks.map Pick.place

/-- What holds while the call goes on: it has picked `queued` and waits there, or attempts `under` with its slot. -/
structure Ongoing (joined : Joined) (j : Journal B) (queued : List (Nat × Nat)) (under : List (Nat × CallSlot)) : Prop extends Sound joined j where
  places : j.picks.map Pick.place = j.attempts ++ queued
  tried : j.attempts.map Prod.fst = j.task.tried ++ under.map Prod.fst
  settled : j.obtained = j.finished.map Prod.fst ++ under.map Prod.snd
  outcomes : (j.finished.map fun entry => entry.2.outcome) = j.results.map Task.outcomeOf
  results : ∀ result ∈ j.results, Unreachable result
  count : j.results.length = j.task.tried.length
  refused : ∀ e, j.task.refused = some e → Unreachable (.error e)
  left : j.task.pending = false → joined.backends.length ≤ j.task.tried.length + queued.length + under.length

/-- What holds where it has returned. -/
structure Returned (joined : Joined) (j : Journal B) (result : Except DispatchError Completion) : Prop extends Sound joined j where
  settled : j.obtained = j.finished.map Prod.fst
  outcomes : (j.finished.map fun entry => entry.2.outcome) = j.results.map Task.outcomeOf
  count : j.results.length = j.attempts.length
  /-- The result is the last attempt's, or there is none left to attempt, or the scheduler ends the call. -/
  ended : (∃ before, j.results = before ++ [result] ∧ (∀ earlier ∈ before, Unreachable earlier) ∧ ¬Unreachable result) ∨
    (∀ earlier ∈ j.results, Unreachable earlier) ∧
      (Unreachable result ∧ j.exhausted = true ∨ ∃ e, result = .error (.ofScheduler e))

/-- The invariant of the journal, by the phase of the call. -/
def Orderly (joined : Joined) (j : Journal B) : Prop :=
  match j.task.phase with
  | .reserving => Ongoing joined j [] []
  | .waiting reserved _ => Ongoing joined j [(reserved.position, reserved.backend)] []
  | .holding reserved slot _ => Ongoing joined j [] [(reserved.position, slot)]
  | .streaming reserved slot _ _ _ => Ongoing joined j [] [(reserved.position, slot)]
  | .finished result => Returned joined j result
  | .dropped => Sound joined j ∧ j.obtained = j.finished.map Prod.fst

theorem orderly_start (joined : Joined) (cooldown : Nat) (request : UnifiedRequest B) (callMeta : CallMeta) :
    Orderly joined (start (.start joined cooldown request callMeta)) :=
  { same := rfl, positions := List.nodup_nil, picked := fun _ h => absurd h List.not_mem_nil, attempts := List.nil_prefix, places := rfl,
    tried := rfl, settled := rfl, outcomes := rfl, results := fun _ h => absurd h List.not_mem_nil, count := rfl,
    refused := fun _ h => (nomatch h), left := fun h => (nomatch h) }

theorem Orderly.sound {joined : Joined} {j : Journal B} (h : Orderly joined j) : Sound joined j := by
  unfold Orderly at h
  split at h
  · exact h.toSound
  · exact h.toSound
  · exact h.toSound
  · exact h.toSound
  · exact h.toSound
  · exact h.1

theorem Orderly.of_reserving {joined : Joined} {j : Journal B} (h : Orderly joined j) (hphase : j.task.phase = .reserving) :
    Ongoing joined j [] [] := by
  unfold Orderly at h
  rwa [hphase] at h

theorem Orderly.of_waiting {joined : Joined} {j : Journal B} (h : Orderly joined j) {reserved : Reserved} {here : Look}
    (hphase : j.task.phase = .waiting reserved here) : Ongoing joined j [(reserved.position, reserved.backend)] [] := by
  unfold Orderly at h
  rwa [hphase] at h

theorem Orderly.of_held {joined : Joined} {j : Journal B} (h : Orderly joined j) {reserved : Reserved} {slot : CallSlot}
    (hheld : j.task.held = some (reserved, slot)) : Ongoing joined j [] [(reserved.position, slot)] := by
  unfold Task.held at hheld
  unfold Orderly at h
  split at hheld
  · rename_i hphase
    obtain ⟨rfl, rfl⟩ := Prod.mk.inj (Option.some.inj hheld)
    rwa [hphase] at h
  · rename_i hphase
    obtain ⟨rfl, rfl⟩ := Prod.mk.inj (Option.some.inj hheld)
    rwa [hphase] at h
  · exact nomatch hheld

section Note
variable (j : Journal B) (task : Task B)

theorem note_blank : j.note .blank task = { j with task := task } := by
  simp [note, Task.Entry.blank]

theorem note_spent (exhausted : Bool) : j.note { Task.Entry.blank with spent := some exhausted } task = { j with task, exhausted } := by
  simp [note, Task.Entry.blank]

theorem note_pick (exhausted : Bool) (pick : Pick) : j.note { Task.Entry.blank with spent := some exhausted, pick := some pick } task =
    { j with task, exhausted, picks := j.picks ++ [pick] } := by
  simp [note, Task.Entry.blank]

theorem note_begun (position backend : Nat) (slot : CallSlot) :
    j.note { Task.Entry.blank with begun := some (position, backend, slot) } task =
      { j with task, attempts := j.attempts ++ [(position, backend)], obtained := j.obtained ++ [slot] } := by
  simp [note, Task.Entry.blank]

theorem note_returned (result : Except DispatchError Completion) (ended : CallSlot × CallReport) :
    j.note { Task.Entry.blank with returned := some result, ended := some ended } task =
      { j with task, results := j.results ++ [result], finished := j.finished ++ [ended] } := by
  simp [note, Task.Entry.blank]

theorem note_ended (ended : Option (CallSlot × CallReport)) :
    j.note { Task.Entry.blank with ended } task = { j with task, finished := j.finished ++ ended.toList } := by
  simp [note, Task.Entry.blank]

end Note

theorem exhausts_of_tried {r : Registry F} {t : Task B} {n : Nat} (hn : t.joined.backends.length = n) (hnodup : t.tried.Nodup)
    (hlisted : ∀ position ∈ t.tried, position < n) (hall : n ≤ t.tried.length) (now : Nat) : t.exhausts r now = true := by
  have hsubset : t.tried.toFinset ⊆ Finset.range n := by
    intro position hmem
    exact Finset.mem_range.mpr (hlisted position (List.mem_toFinset.mp hmem))
  have hcard : (Finset.range n).card ≤ t.tried.toFinset.card := by
    rwa [Finset.card_range, List.toFinset_card_of_nodup hnodup]
  have heq := Finset.eq_of_subset_of_card_le hsubset hcard
  unfold Task.exhausts
  rw [hn, List.all_eq_true]
  intro position hmem
  have hin : position ∈ t.tried.toFinset := by
    rw [heq]
    exact Finset.mem_range.mpr (List.mem_range.mp hmem)
  rw [decide_eq_true (List.mem_toFinset.mp hin), Bool.true_or]

theorem positions_eq (picks : List Pick) : picks.map Pick.position = (picks.map Pick.place).map Prod.fst := by
  rw [List.map_map]
  rfl

namespace Ongoing
variable {joined : Joined} {j : Journal B}

theorem picked_tried (h : Ongoing joined j [] []) : j.picks.map Pick.position = j.task.tried := by
  rw [positions_eq, h.places, List.append_nil, h.tried, List.map_nil, List.append_nil]

theorem exhausts (h : Ongoing joined j [] []) (hleft : j.task.pending = false) (r : Registry F) (now : Nat) :
    j.task.exhausts r now = true := by
  have hall := h.left hleft
  refine exhausts_of_tried (congrArg (fun joined => joined.backends.length) h.same) (h.picked_tried ▸ h.positions)
    (fun position hmem => ?_) hall now
  rw [← h.picked_tried] at hmem
  obtain ⟨pick, hpick, rfl⟩ := List.mem_map.mp hmem
  exact (List.getElem?_eq_some_iff.mp (h.picked pick hpick).2).1

theorem finish {queued : List (Nat × Nat)} (h : Ongoing joined j queued []) {pending exhausted : Bool}
    {result : Except DispatchError Completion}
    (hresult : Unreachable result ∧ exhausted = true ∨ ∃ e, result = .error (.ofScheduler e)) :
    Orderly joined { j with task := { j.task with pending, phase := .finished result }, exhausted } := by
  have hsettled := h.settled
  rw [List.map_nil, List.append_nil] at hsettled
  have htried := congrArg List.length h.tried
  rw [List.map_nil, List.append_nil, List.length_map] at htried
  exact
    { same := h.same, positions := h.positions, picked := h.picked, attempts := h.attempts, settled := hsettled, outcomes := h.outcomes
      count := h.count.trans htried.symm
      ended := .inr ⟨h.results, hresult⟩ }

theorem queue (h : Ongoing joined j [] []) {position backend id queued : Nat} {pending exhausted : Bool}
    (hat : joined.backends[position]? = some backend) (htried : position ∉ j.task.tried)
    (hpending : pending = false → joined.backends.length ≤ j.task.tried.length + 1) :
    Ongoing joined
      { j with
        task := { j.task with pending, phase := .waiting ⟨position, backend, id, queued⟩ .own }, exhausted
        picks := j.picks ++ [⟨position, backend, true⟩] } [(position, backend)] [] where
  same := h.same
  positions := by
    rw [List.map_append, h.picked_tried]
    exact (h.picked_tried ▸ h.positions).append (List.nodup_singleton position) (by simpa using htried)
  picked := by
    intro pick hpick
    obtain hold | hnew := List.mem_append.mp hpick
    · exact h.picked pick hold
    · obtain rfl := List.mem_singleton.mp hnew
      exact ⟨rfl, hat⟩
  attempts := by
    rw [List.map_append]
    exact h.attempts.trans (List.prefix_append _ _)
  places := by
    rw [List.map_append, h.places, List.append_nil]
    rfl
  tried := h.tried
  settled := h.settled
  outcomes := h.outcomes
  results := h.results
  count := h.count
  refused := h.refused
  left := hpending

theorem obtain {reserved : Reserved} (h : Ongoing joined j [(reserved.position, reserved.backend)] []) {slot : CallSlot} {waitMs : Nat} :
    Ongoing joined
      { j with
        task := { j.task with phase := .holding reserved slot waitMs }, attempts := j.attempts ++ [(reserved.position, reserved.backend)]
        obtained := j.obtained ++ [slot] } [] [(reserved.position, slot)] where
  same := h.same
  positions := h.positions
  picked := h.picked
  attempts := by
    dsimp only
    rw [h.places]
  places := by
    rw [List.append_nil]
    exact h.places
  tried := by
    have htried := h.tried
    rw [List.map_nil, List.append_nil] at htried
    rw [List.map_append, htried]
    rfl
  settled := by
    have hsettled := h.settled
    rw [List.map_nil, List.append_nil] at hsettled
    dsimp only
    rw [hsettled]
    rfl
  outcomes := h.outcomes
  results := h.results
  count := h.count
  refused := h.refused
  left := h.left

end Ongoing

theorem passed_eq (t : Task B) (reserved : Reserved) (result : Except DispatchError Completion) :
    (∃ e, result = .error e ∧ Unreachable result ∧
      t.passed reserved result = { t with tried := t.tried ++ [reserved.position], refused := some e, phase := .reserving }) ∨
    ¬Unreachable result ∧ t.passed reserved result = { t with phase := .finished result } := by
  cases result with
  | ok completion =>
    refine .inr ⟨?_, rfl⟩
    rintro ⟨detail, h⟩
    exact nomatch h
  | error e =>
    cases e with
    | unreachable detail => exact .inl ⟨_, rfl, ⟨detail, rfl⟩, rfl⟩
    | _ =>
      refine .inr ⟨?_, rfl⟩
      rintro ⟨detail, h⟩
      exact nomatch h

theorem Ongoing.return {joined : Joined} {j : Journal B} {reserved : Reserved} {slot : CallSlot}
    (h : Ongoing joined j [] [(reserved.position, slot)]) {result : Except DispatchError Completion} {report : CallReport}
    (hreport : report.outcome = Task.outcomeOf result) :
    Orderly joined
      { j with task := j.task.passed reserved result, results := j.results ++ [result], finished := j.finished ++ [(slot, report)] } := by
  have hsettled : j.obtained = (j.finished ++ [(slot, report)]).map Prod.fst := by
    rw [h.settled, List.map_append]
    rfl
  have houtcomes : ((j.finished ++ [(slot, report)]).map fun entry => entry.2.outcome) = (j.results ++ [result]).map Task.outcomeOf := by
    rw [List.map_append, List.map_append, h.outcomes, List.map_singleton, List.map_singleton, hreport]
  have hattempts : j.attempts.map Prod.fst = j.task.tried ++ [reserved.position] := h.tried
  obtain ⟨e, rfl, hunreachable, heq⟩ | ⟨hends, heq⟩ := passed_eq j.task reserved result
  · rw [heq]
    exact
      { same := h.same, positions := h.positions, picked := h.picked, attempts := h.attempts, places := h.places
        tried := by rw [hattempts, List.map_nil, List.append_nil]
        settled := by rw [hsettled, List.map_nil, List.append_nil]
        outcomes := houtcomes
        results := by
          intro earlier hmem
          obtain hold | hnew := List.mem_append.mp hmem
          · exact h.results earlier hold
          · rwa [List.mem_singleton.mp hnew]
        count := by rw [List.length_append, List.length_append, h.count]; rfl
        refused := by
          intro e' heq'
          obtain rfl := Option.some.inj heq'
          exact hunreachable
        left := by
          intro hpending
          have hleft := h.left hpending
          rw [List.length_append]
          exact hleft }
  · rw [heq]
    exact
      { same := h.same, positions := h.positions, picked := h.picked, attempts := h.attempts, settled := hsettled, outcomes := houtcomes
        count := by
          have hlength := congrArg List.length hattempts
          rw [List.length_map, List.length_append] at hlength
          rw [List.length_append, h.count, hlength]
          rfl
        ended := .inl ⟨j.results, rfl, h.results, hends⟩ }

theorem Orderly.drop {joined : Joined} {j : Journal B} (h : Orderly joined j) (hphase : ∀ result, j.task.phase ≠ .finished result) :
    Orderly joined
      { j with
        task := { j.task with phase := .dropped }
        finished := j.finished ++ (j.task.slot.map fun slot => (slot, CallReport.empty .cancelled)).toList } := by
  refine ⟨{ h.sound with }, ?_⟩
  unfold Orderly at h
  unfold Task.slot
  dsimp only
  cases htask : j.task.phase with
  | finished result => exact absurd htask (hphase result)
  | reserving =>
    rw [htask] at h
    simpa using h.settled
  | waiting reserved here =>
    rw [htask] at h
    simpa using h.settled
  | holding reserved slot waitMs =>
    rw [htask] at h
    simpa using h.settled
  | streaming reserved slot waitMs sent started =>
    rw [htask] at h
    simpa using h.settled
  | dropped =>
    rw [htask] at h
    simpa using h.2

theorem Orderly.turn {joined : Joined} {j : Journal B} (h : Orderly joined j) {r : Registry F} {entry : Task.Entry} {next : Task B}
    (hturn : Task.Turns r j.task entry next) : Orderly joined (j.note entry next) := by
  cases hturn with
  | stays =>
    rw [note_blank]
    exact h
  | givesUp hphase hwhy hspent hrefusal =>
    have hidle := h.of_reserving hphase
    obtain ⟨now, rfl⟩ := hspent
    have hexhausted : j.task.exhausts r now = true := hwhy.elim (fun hleft => hidle.exhausts hleft r now) id
    have hunreachable := hrefusal.elim (hidle.refused _) fun ⟨detail, heq⟩ => ⟨detail, congrArg Except.error heq⟩
    rw [note_spent, hexhausted]
    exact hidle.finish (.inl ⟨hunreachable, rfl⟩)
  | rejected hphase =>
    have hidle := h.of_reserving hphase
    rw [note_spent]
    exact hidle.finish (.inr ⟨_, rfl⟩)
  | queued hphase hat htried hpending =>
    have hidle := h.of_reserving hphase
    rw [hidle.same] at hat hpending
    rw [note_pick]
    exact hidle.queue hat htried hpending
  | waits hphase =>
    rw [note_blank]
    exact { h.of_waiting hphase with }
  | obtains hphase =>
    rw [note_begun]
    exact (h.of_waiting hphase).obtain
  | stale hphase =>
    rw [note_blank]
    exact (h.of_waiting hphase).finish (.inr ⟨.inputsChanged, rfl⟩)
  | sends hphase =>
    rw [note_blank]
    unfold Orderly at h
    rw [hphase] at h
    exact { h with }
  | returns hheld hreport =>
    rw [note_returned]
    exact (h.of_held hheld).return hreport
  | drops hphase =>
    rw [note_ended]
    exact h.drop hphase

variable [Meter F]

theorem Orderly.step {joined : Joined} {j : Journal B} (h : Orderly joined j) (event : Scene F joined × TaskOp) :
    Orderly joined (j.step event) := by
  apply h.turn (r := event.1.registry)
  apply Task.step_turns
  rw [h.sound.same]
  exact event.1.known

end Journal

theorem Journal.Returned.ok_iff {B : Type} {joined : Joined} {j : Journal B} {result : Except DispatchError Completion}
    (h : Returned joined j result) : (∃ entry ∈ j.finished, entry.2.outcome = .ok) ↔ ∃ completion, result = .ok completion := by
  have hmem : (∃ entry ∈ j.finished, entry.2.outcome = .ok) ↔ ∃ returned ∈ j.results, Task.outcomeOf returned = .ok := by
    rw [← List.mem_map (f := fun entry : CallSlot × CallReport => entry.2.outcome), h.outcomes, List.mem_map]
  have hfailed : ∀ earlier, Unreachable earlier → Task.outcomeOf earlier ≠ .ok := by
    rintro _ ⟨detail, rfl⟩ hok
    exact nomatch hok
  rw [hmem]
  obtain ⟨before, hresults, hbefore, -⟩ | ⟨hall, hresult⟩ := h.ended
  · constructor
    · rintro ⟨returned, hin, hok⟩
      rw [hresults] at hin
      obtain hearlier | hlast := List.mem_append.mp hin
      · exact absurd hok (hfailed returned (hbefore returned hearlier))
      · obtain rfl := List.mem_singleton.mp hlast
        cases returned with
        | ok completion => exact ⟨completion, rfl⟩
        | error e => exact nomatch hok
    · rintro ⟨completion, rfl⟩
      exact ⟨.ok completion, by simp [hresults], rfl⟩
  · constructor
    · rintro ⟨returned, hin, hok⟩
      exact absurd hok (hfailed returned (hall returned hin))
    · rintro ⟨completion, rfl⟩
      obtain ⟨⟨detail, h⟩, -⟩ | ⟨e, h⟩ := hresult
      · exact nomatch h
      · exact nomatch h

/-- **Failover.** The call of a list that a dispatcher has joined, whatever the breakers, the loads, the attempts and every other call do
at each of its steps:

* it attempts different backends, each at a position it has picked, whose breaker admitted then;
* it returns what its first attempt that is not unreachable returns; or all were, and it is unreachable or the scheduler refuses it;
* it is unreachable only where none that is untried admits;
* the slots it obtained are finished each once, in the pool and in the order it obtained them, with what their attempts return. -/
theorem failover_sound {F B : Type} [Meter F] {r : Registry F} {specs : List BackendSpec} {config : ValidConfig} {now : Nat} {joined : Joined}
    (hjoined : (r.join specs config now).2 = .ok joined) (cooldown : Nat) (request : UnifiedRequest B) (callMeta : CallMeta)
    (events : List (Scene F joined × TaskOp)) :
    let first : Journal B := .start (.start joined cooldown request callMeta)
    let j := run Journal.step first events
    Along Journal.step (fun j (event : Scene F joined × TaskOp) => j.task.Accounted event.1.registry event.2) first events ∧
      (j.attempts.map Prod.fst).Nodup ∧ (j.attempts.map Prod.snd).Nodup ∧
      (∀ attempt ∈ j.attempts, joined.backends[attempt.1]? = some attempt.2 ∧ ∃ pick ∈ j.picks, pick.place = attempt ∧ pick.admitted = true) ∧
      ∀ result, j.task.phase = .finished result →
        ((∃ before, j.results = before ++ [result] ∧ (∀ earlier ∈ before, Unreachable earlier) ∧ ¬Unreachable result) ∨
          (∀ earlier ∈ j.results, Unreachable earlier) ∧ (Unreachable result ∨ ∃ e, result = .error (.ofScheduler e))) ∧
        (Unreachable result → j.exhausted = true) ∧
        j.results.length = j.attempts.length ∧ j.obtained = j.finished.map Prod.fst ∧
        (j.finished.map fun entry => entry.2.outcome) = j.results.map Task.outcomeOf ∧
        ((∃ entry ∈ j.finished, entry.2.outcome = .ok) ↔ ∃ completion, result = .ok completion) := by
  intro first j
  have hfirst : first.Orderly joined := Journal.orderly_start joined cooldown request callMeta
  have hstep : ∀ (j : Journal B) (event : Scene F joined × TaskOp), j.Orderly joined → (j.step event).Orderly joined :=
    fun _ event h => h.step event
  have horderly : j.Orderly joined := run_invariant Journal.step hstep hfirst events
  have haccounted : ∀ (j : Journal B) (event : Scene F joined × TaskOp), j.Orderly joined → j.task.Accounted event.1.registry event.2 := by
    intro j event h
    apply Task.step_accounted
    rw [h.sound.same]
    exact event.1.known
  have hsound := horderly.sound
  have hpositions : (j.attempts.map Prod.fst).Nodup := by
    have hprefix := hsound.attempts.map Prod.fst
    rw [← Journal.positions_eq] at hprefix
    exact hsound.positions.sublist hprefix.sublist
  have hplaced : ∀ attempt ∈ j.attempts, joined.backends[attempt.1]? = some attempt.2 ∧
      ∃ pick ∈ j.picks, pick.place = attempt ∧ pick.admitted = true := by
    intro attempt hmem
    obtain ⟨pick, hpick, rfl⟩ := List.mem_map.mp (hsound.attempts.subset hmem)
    exact ⟨(hsound.picked pick hpick).2, pick, hpick, rfl, (hsound.picked pick hpick).1⟩
  refine ⟨along_invariant haccounted hstep hfirst events, hpositions, ?_, hplaced, fun result hphase => ?_⟩
  · -- different positions hold different backends
    apply List.Nodup.map_on _ hpositions.of_map
    intro a ha b hb heq
    have hat := (hplaced a ha).1
    have hat' := (hplaced b hb).1
    rw [← heq] at hat'
    obtain ⟨hlt, hget⟩ := List.getElem?_eq_some_iff.mp hat
    obtain ⟨hlt', hget'⟩ := List.getElem?_eq_some_iff.mp hat'
    exact Prod.ext ((Registry.join_nodup hjoined).getElem_inj_iff.mp (hget.trans hget'.symm)) heq
  · have hreturned : j.Returned joined result := by
      unfold Journal.Orderly at horderly
      rwa [hphase] at horderly
    refine ⟨hreturned.ended.imp_right fun h => ⟨h.1, h.2.imp_left And.left⟩, fun hunreachable => ?_, hreturned.count, hreturned.settled,
      hreturned.outcomes, hreturned.ok_iff⟩
    obtain ⟨-, -, -, hnot⟩ | ⟨-, ⟨-, hexhausted⟩ | ⟨e, rfl⟩⟩ := hreturned.ended
    · exact absurd hunreachable hnot
    · exact hexhausted
    · obtain ⟨detail, heq⟩ := hunreachable
      cases e <;> exact nomatch heq

/-! ## A call that no backend takes -/

def lazySpec : BackendSpec := ⟨⟨"a"⟩, true, none, none⟩

def oneAtATime : ValidConfig := ⟨⟨1, 256, 4⟩, SchedulerConfig.validate_oneCall⟩

def onlyLazy : Joined := ⟨[0], bitOf 0⟩

def refusedTask : Task Unit := .start onlyLazy 20000000000 ⟨"model", none, ()⟩ (.new "call" .medium "")

def refusedOps : List TaskOp :=
  [.reserve (fun _ => idleLoad) 0 .open, .poll 0 .open, .attempt (.error "refused") 0 .open, .reserve (fun _ => idleLoad) 0 .open]

def refusedRegistry (steps : Nat) : Registry Fraction :=
  (run (fun (system : Registry Fraction × Task Unit) op => system.2.step system.1 op)
    (((Registry.empty : Registry Fraction).join [lazySpec] oneAtATime 0).1, refusedTask) (refusedOps.take steps)).1

def refusedScenes (h : ∀ steps, Task.Known (refusedRegistry steps) onlyLazy) : List (Scene Fraction onlyLazy × TaskOp) :=
  refusedOps.mapIdx fun steps op => (⟨refusedRegistry steps, h steps⟩, op)

theorem refused_known (steps : Nat) : Task.Known (refusedRegistry steps) onlyLazy := by
  intro backend hmem
  obtain rfl := List.mem_singleton.mp hmem
  match steps with
  | 0 => exact ⟨_, _, rfl, rfl⟩
  | 1 => exact ⟨_, _, rfl, rfl⟩
  | 2 => exact ⟨_, _, rfl, rfl⟩
  | 3 => exact ⟨_, _, rfl, rfl⟩
  | steps + 4 =>
    have hall : refusedOps.take (steps + 4) = refusedOps := List.take_of_length_le (by simp [refusedOps])
    unfold refusedRegistry
    rw [hall]
    exact ⟨_, _, rfl, rfl⟩

theorem refused_call_gives_up :
    let j := run Journal.step (Journal.start refusedTask) (refusedScenes refused_known)
    j.attempts = [(0, 0)] ∧ j.finished.map Prod.fst = [⟨0, 0, 1⟩] ∧ j.exhausted = true := by
  intro j
  have hsound := failover_sound (rfl : ((Registry.empty : Registry Fraction).join [lazySpec] oneAtATime 0).2 = .ok onlyLazy) 20000000000
    ⟨"model", none, ()⟩ (.new "call" .medium "") (refusedScenes refused_known)
  obtain ⟨-, hexhausted, -, hobtained, -⟩ := hsound.2.2.2.2 (.error (.unreachable "refused")) rfl
  exact ⟨rfl, hobtained.symm.trans rfl, hexhausted ⟨_, rfl⟩⟩

end Cuca.Services
