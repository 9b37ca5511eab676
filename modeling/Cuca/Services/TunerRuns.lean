import Cuca.Lib.Transition
import Cuca.Services.Tuner

/-!
# What a tuner can do in a run

* `Tuner.Sound` : the level, the trial, the window, the interval and the bounded logs agree at every moment;
* `Tuner.Evolves` : what one call can change, and when a trial begins and ends;
* `Tuner.Ledger` : how the trial's counter relates to the calls dispatched and completed so far, when every call is
  dispatched once and completed at most once after that (`OncePerCall`);
* `tuner_run` : the three along every run from a new tuner.
-/

namespace Cuca.Services
open Transition

inductive TunerOp where
  | poll (now backlog : Nat) (paused : Bool)
  | dispatch (id : Nat)
  | complete (sample : Sample)
deriving DecidableEq, Repr

namespace Tuner
variable {F : Type} [Meter F]

def apply (t : Tuner F) : TunerOp → Tuner F
  | .poll now backlog paused => t.poll now backlog paused
  | .dispatch id => t.onDispatch id
  | .complete sample => t.onComplete sample

/-! ## Bounded logs -/

theorem length_pushBounded_le {α : Type} {capacity : Nat} {xs : List α} (h : xs.length ≤ capacity)
    (hpos : 0 < capacity) (x : α) : (pushBounded capacity xs x).length ≤ capacity := by
  unfold pushBounded
  split_ifs with hfull
  · simp only [List.length_append, List.length_tail, List.length_cons, List.length_nil]
    omega
  · simp only [List.length_append, List.length_cons, List.length_nil]
    omega

/-! ## What each call does -/

theorem stepLevel_up {ceiling level next : Nat} (h : stepLevel ceiling .up level = some next) :
    next = level + 1 ∧ next ≤ ceiling := by
  simp only [stepLevel, Option.ite_none_right_eq_some, Option.some.injEq] at h
  omega

theorem stepLevel_down {ceiling level next : Nat} (h : stepLevel ceiling .down level = some next) :
    level = next + 1 ∧ 1 ≤ next := by
  simp only [stepLevel, Option.ite_none_right_eq_some, Option.some.injEq] at h
  omega

def Neighbour (ceiling incumbent level : Nat) : Prop :=
  1 ≤ level ∧ level ≤ ceiling ∧ (level = incumbent + 1 ∨ incumbent = level + 1)

theorem neighbour_of_stepLevel {ceiling level next : Nat} {d : Direction} (hle : level ≤ ceiling)
    (h : stepLevel ceiling d level = some next) : Neighbour ceiling level next := by
  cases d with
  | up =>
    have := stepLevel_up h
    exact ⟨by omega, by omega, by omega⟩
  | down =>
    have := stepLevel_down h
    exact ⟨by omega, by omega, by omega⟩

omit [Meter F] in
theorem target_spec {t : Tuner F} (hone : 1 ≤ t.level) (hle : t.level ≤ t.ceiling) (htwo : 1 < t.ceiling) :
    ∃ d next, t.target = (next, { t with direction := d }) ∧ Neighbour t.ceiling t.level next := by
  unfold target
  cases hs : stepLevel t.ceiling t.direction t.level with
  | some next => exact ⟨t.direction, next, rfl, neighbour_of_stepLevel hle hs⟩
  | none =>
    cases hf : stepLevel t.ceiling t.direction.flipped t.level with
    | some next => exact ⟨t.direction.flipped, next, rfl, neighbour_of_stepLevel hle hf⟩
    | none =>
      refine absurd hone ?_
      cases hd : t.direction <;> simp only [hd, Direction.flipped, stepLevel, ite_eq_right_iff, reduceCtorEq,
        imp_false] at hs hf <;> omega

/-- The trial a poll begins. -/
def beginTrial (t : Tuner F) (now next : Nat) (baseline : Rate F) : Tuner F :=
  { t.change now next .trial none none with
    level := next
    trial := some
      { incumbent := t.level, level := next, began := now, window := max (next - 1) 1, dispatched := [],
        completed := 0, units := .NONE, baseline := baseline } }

theorem poll_cases {t : Tuner F} (hone : 1 ≤ t.level) (hle : t.level ≤ t.ceiling) (now backlog : Nat)
    (paused : Bool) :
    t.poll now backlog paused = t ∨
    t.trial = none ∧ ∃ d, t.poll now backlog paused = { t with direction := d } ∨
      ∃ next baseline, Neighbour t.ceiling t.level next ∧ next ≤ backlog ∧ t.nextDue ≤ now ∧ paused = false ∧
        t.poll now backlog paused = ({ t with direction := d } : Tuner F).beginTrial now next baseline := by
  unfold poll
  split_ifs with hskip
  · exact .inl rfl
  · right
    simp only [not_or, Bool.not_eq_true, Option.isSome_eq_false_iff, Option.isNone_iff_eq_none, not_le, not_lt]
      at hskip
    obtain ⟨htrial, htwo, hdue, hpaused⟩ := hskip
    obtain ⟨d, next, htarget, hnext⟩ := target_spec hone hle htwo
    refine ⟨htrial, d, ?_⟩
    rw [htarget]
    simp only
    split_ifs with hbacklog
    · exact .inl rfl
    · cases hb : ({ t with direction := d } : Tuner F).baseline (max (next - 1) 1) with
      | none => exact .inl rfl
      | some baseline => exact .inr ⟨next, baseline, hnext, not_lt.mp hbacklog, hdue, hpaused, rfl⟩

/-- The tuner after the end of `trial`. -/
structure Concluded (t : Tuner F) (trial : Trial F) (accepted : Bool) (reason : ChangeReason) (t' : Tuner F) :
    Prop where
  ceiling_eq : t'.ceiling = t.ceiling
  trial_eq : t'.trial = none
  level_eq : t'.level = if accepted then trial.level else trial.incumbent
  direction_eq : t'.direction = if accepted then t.direction else t.direction.flipped
  interval_eq : t'.interval = min (t.interval * 2) EXPERIMENT_CAP
  samples_eq : t'.samples = t.samples
  history_eq : ∃ entry, entry.reason = reason ∧ t'.history = pushBounded HISTORY_CAPACITY t.history entry

omit [Meter F] in
theorem conclude_spec {t : Tuner F} {trial : Trial F} (ht : t.trial = some trial) (now : Nat) (accepted : Bool)
    (measured : Option (Metric × F × F)) (reason : ChangeReason) :
    Concluded t trial accepted reason (t.conclude now accepted measured reason) := by
  unfold conclude
  rw [ht]
  exact ⟨rfl, rfl, rfl, rfl, rfl, rfl, _, rfl, rfl⟩

theorem onComplete_steady {t : Tuner F} (ht : t.trial = none) (sample : Sample) :
    t.onComplete sample = t.remember sample := by
  unfold onComplete
  simp only [remember_trial, ht]

theorem onComplete_failed {t : Tuner F} {trial : Trial F} {sample : Sample} (ht : t.trial = some trial)
    (hfailed : sample.outcome = .failed) :
    Concluded (t.remember sample) trial false .failed (t.onComplete sample) := by
  unfold onComplete
  simp only [remember_trial, ht, hfailed, if_true]
  exact conclude_spec (t := t.remember sample) ht _ _ _ _

theorem onComplete_counted {t : Tuner F} {trial : Trial F} {sample : Sample} (ht : t.trial = some trial)
    (hok : sample.outcome ≠ .failed) (hopen : (trial.record sample).completed < trial.window) :
    t.onComplete sample = { t.remember sample with trial := some (trial.record sample) } := by
  have hopen' : (trial.record sample).completed < (trial.record sample).window := hopen
  unfold onComplete
  simp only [remember_trial, ht, hok, if_false, hopen', if_true]

theorem onComplete_decided {t : Tuner F} {trial : Trial F} {sample : Sample} (ht : t.trial = some trial)
    (hok : sample.outcome ≠ .failed) (hfull : trial.window ≤ (trial.record sample).completed) :
    ∃ accepted, Concluded (t.remember sample) trial accepted (if accepted then .kept else .rejected)
      (t.onComplete sample) := by
  have hopen : ¬ (trial.record sample).completed < (trial.record sample).window := not_lt.mpr hfull
  unfold onComplete
  simp only [remember_trial, ht, hok, if_false, hopen]
  have hc : ∀ accepted measured, Concluded { t.remember sample with trial := some (trial.record sample) }
      (trial.record sample) accepted (if accepted then .kept else .rejected)
      (conclude { t.remember sample with trial := some (trial.record sample) } sample.completed accepted measured
        (if accepted then .kept else .rejected)) := fun _ _ => conclude_spec rfl _ _ _ _
  obtain ⟨hceiling, htrial, hlevel, hdirection, hinterval, hsamples, hhistory⟩ := hc _ _
  exact ⟨_, hceiling, htrial, hlevel, hdirection, hinterval, hsamples, hhistory⟩

/-! ## The invariant -/

/-- The trial's own numbers, at a tuner of level `level`. -/
structure TrialSound (ceiling level : Nat) (trial : Trial F) : Prop where
  level_eq : trial.level = level
  one_le : 1 ≤ trial.incumbent
  incumbent_le : trial.incumbent ≤ ceiling
  neighbour : trial.level = trial.incumbent + 1 ∨ trial.incumbent = trial.level + 1
  window_eq : trial.window = max (trial.level - 1) 1
  dispatched_le : trial.dispatched.length ≤ trial.window
  completed_lt : trial.completed < trial.window

/-- **The tuner's invariant**, for a tuner made with `ceiling`. -/
structure Sound (ceiling : Nat) (t : Tuner F) : Prop where
  ceiling_eq : t.ceiling = max ceiling 1
  one_le : 1 ≤ t.level
  level_le : t.level ≤ max ceiling 1
  trial_sound : ∀ trial, t.trial = some trial → TrialSound (max ceiling 1) t.level trial
  interval_le : t.interval ≤ EXPERIMENT_CAP
  samples_le : t.samples.length ≤ SAMPLE_CAPACITY
  history_le : t.history.length ≤ HISTORY_CAPACITY

/-- What one call changes: which trial begins, goes on or ends, and how. -/
inductive Evolves (t t' : Tuner F) : TunerOp → Prop
  | steady (op : TunerOp) (before : t.trial = none) (after : t'.trial = none) (level : t'.level = t.level)
      (interval : t'.interval = t.interval) : Evolves t t' op
  | begins (now backlog : Nat) (trial : Trial F) (before : t.trial = none) (after : t'.trial = some trial)
      (due : t.nextDue ≤ now) (filled : trial.level ≤ backlog) (incumbent : trial.incumbent = t.level)
      (level : t'.level = trial.level) (fresh : trial.dispatched = [] ∧ trial.completed = 0)
      (interval : t'.interval = t.interval) : Evolves t t' (.poll now backlog false)
  | continues (op : TunerOp) (trial trial' : Trial F) (before : t.trial = some trial)
      (after : t'.trial = some trial') (incumbent : trial'.incumbent = trial.incumbent)
      (trialLevel : trial'.level = trial.level) (began : trial'.began = trial.began)
      (window : trial'.window = trial.window) (level : t'.level = t.level)
      (direction : t'.direction = t.direction) (interval : t'.interval = t.interval) : Evolves t t' op
  | fails (sample : Sample) (trial : Trial F) (before : t.trial = some trial) (after : t'.trial = none)
      (outcome : sample.outcome = .failed) (level : t'.level = trial.incumbent)
      (direction : t'.direction = t.direction.flipped)
      (interval : t'.interval = min (t.interval * 2) EXPERIMENT_CAP) : Evolves t t' (.complete sample)
  | decided (sample : Sample) (trial : Trial F) (accepted : Bool) (before : t.trial = some trial)
      (after : t'.trial = none) (outcome : sample.outcome ≠ .failed)
      (full : (trial.record sample).completed = trial.window)
      (level : t'.level = if accepted then trial.level else trial.incumbent)
      (direction : t'.direction = if accepted then t.direction else t.direction.flipped)
      (interval : t'.interval = min (t.interval * 2) EXPERIMENT_CAP) : Evolves t t' (.complete sample)

/-! ## One call keeps it -/

section Step
variable {ceiling : Nat} {t : Tuner F}

omit [Meter F] in
theorem new_sound (ceiling started : Nat) : Sound ceiling (new ceiling started : Tuner F) where
  ceiling_eq := rfl
  one_le := Nat.le_refl 1
  level_le := Nat.le_max_right ceiling 1
  trial_sound := by simp [new]
  interval_le := by simp only [new]; decide
  samples_le := by simp [new]
  history_le := by simp [new]

omit [Meter F] in
theorem Sound.flip (h : Sound ceiling t) (d : Direction) : Sound ceiling { t with direction := d } :=
  ⟨h.ceiling_eq, h.one_le, h.level_le, h.trial_sound, h.interval_le, h.samples_le, h.history_le⟩

omit [Meter F] in
theorem Sound.remember (h : Sound ceiling t) (sample : Sample) : Sound ceiling (t.remember sample) :=
  ⟨h.ceiling_eq, h.one_le, h.level_le, h.trial_sound, h.interval_le,
    length_pushBounded_le h.samples_le (by decide) sample, h.history_le⟩

omit [Meter F] in
theorem Sound.beginTrial (h : Sound ceiling t) {next : Nat} (hnext : Neighbour t.ceiling t.level next) (now : Nat)
    (baseline : Rate F) : Sound ceiling (t.beginTrial now next baseline) where
  ceiling_eq := h.ceiling_eq
  one_le := hnext.1
  level_le := h.ceiling_eq ▸ hnext.2.1
  trial_sound := by
    rintro trial ⟨⟩
    exact ⟨rfl, h.one_le, h.level_le, hnext.2.2, rfl, Nat.zero_le _, Nat.le_max_right _ 1⟩
  interval_le := h.interval_le
  samples_le := h.samples_le
  history_le := length_pushBounded_le h.history_le (by decide) _

omit [Meter F] in
theorem Sound.concluded (h : Sound ceiling t) {trial : Trial F} (ht : t.trial = some trial) {accepted : Bool}
    {reason : ChangeReason} {t' : Tuner F} (hc : Concluded t trial accepted reason t') : Sound ceiling t' := by
  obtain ⟨hceiling, htrial, hlevel, -, hinterval, hsamples, entry, -, hhistory⟩ := hc
  have hs := h.trial_sound trial ht
  have hone := h.one_le
  have hle := h.level_le
  refine ⟨hceiling.trans h.ceiling_eq, ?_, ?_, by simp [htrial], ?_, hsamples ▸ h.samples_le, ?_⟩
  · rw [hlevel]
    split_ifs
    · exact hs.level_eq ▸ hone
    · exact hs.one_le
  · rw [hlevel]
    split_ifs
    · exact hs.level_eq ▸ hle
    · exact hs.incumbent_le
  · exact hinterval ▸ Nat.min_le_right _ _
  · exact hhistory ▸ length_pushBounded_le h.history_le (by decide) entry

theorem poll_step (h : Sound ceiling t) (now backlog : Nat) (paused : Bool) :
    Sound ceiling (t.poll now backlog paused) ∧
      Evolves t (t.poll now backlog paused) (.poll now backlog paused) := by
  have hle : t.level ≤ t.ceiling := h.ceiling_eq ▸ h.level_le
  rcases poll_cases h.one_le hle now backlog paused with heq | ⟨htrial, d, heq | ⟨next, baseline, hnext, hfilled,
    hdue, rfl, heq⟩⟩
  · rw [heq]
    refine ⟨h, ?_⟩
    cases ht : t.trial with
    | none => exact .steady _ ht ht rfl rfl
    | some trial => exact .continues _ trial trial ht ht rfl rfl rfl rfl rfl rfl rfl
  · rw [heq]
    exact ⟨h.flip d, .steady _ htrial htrial rfl rfl⟩
  · rw [heq]
    exact ⟨(h.flip d).beginTrial hnext now baseline,
      .begins now backlog _ htrial rfl hdue hfilled rfl rfl ⟨rfl, rfl⟩ rfl⟩

omit [Meter F] in
theorem onDispatch_step (h : Sound ceiling t) (id : Nat) :
    Sound ceiling (t.onDispatch id) ∧ Evolves t (t.onDispatch id) (.dispatch id) := by
  unfold onDispatch
  cases ht : t.trial with
  | none => exact ⟨h, .steady _ ht ht rfl rfl⟩
  | some trial =>
    have hs := h.trial_sound trial ht
    simp only
    split_ifs with hroom
    · refine ⟨⟨h.ceiling_eq, h.one_le, h.level_le, ?_, h.interval_le, h.samples_le, h.history_le⟩,
        .continues _ trial _ ht rfl rfl rfl rfl rfl rfl rfl rfl⟩
      rintro trial' ⟨⟩
      refine ⟨hs.level_eq, hs.one_le, hs.incumbent_le, hs.neighbour, hs.window_eq, ?_, hs.completed_lt⟩
      simpa using Nat.succ_le_of_lt hroom
    · exact ⟨h, .continues _ trial trial ht ht rfl rfl rfl rfl rfl rfl rfl⟩

omit [Meter F] in
theorem record_completed_le (trial : Trial F) (sample : Sample) :
    (trial.record sample).completed ≤ trial.completed + 1 := by
  simp only [Trial.record]
  split_ifs <;> omega

theorem onComplete_step (h : Sound ceiling t) (sample : Sample) :
    Sound ceiling (t.onComplete sample) ∧ Evolves t (t.onComplete sample) (.complete sample) := by
  cases ht : t.trial with
  | none =>
    rw [onComplete_steady ht]
    exact ⟨h.remember sample, .steady _ ht ht rfl rfl⟩
  | some trial =>
    have hs := h.trial_sound trial ht
    by_cases hfailed : sample.outcome = .failed
    · have hc := onComplete_failed ht hfailed
      exact ⟨(h.remember sample).concluded ht hc,
        .fails sample trial ht hc.trial_eq hfailed hc.level_eq hc.direction_eq hc.interval_eq⟩
    · by_cases hopen : (trial.record sample).completed < trial.window
      · rw [onComplete_counted ht hfailed hopen]
        have hr := h.remember sample
        refine ⟨⟨hr.ceiling_eq, hr.one_le, hr.level_le, ?_, hr.interval_le, hr.samples_le, hr.history_le⟩,
          .continues _ trial _ ht rfl rfl rfl rfl rfl rfl rfl rfl⟩
        rintro trial' ⟨⟩
        exact ⟨hs.level_eq, hs.one_le, hs.incumbent_le, hs.neighbour, hs.window_eq, hs.dispatched_le, hopen⟩
      · have hfull : (trial.record sample).completed = trial.window := by
          have := record_completed_le trial sample
          have := hs.completed_lt
          omega
        obtain ⟨accepted, hc⟩ := onComplete_decided ht hfailed (not_lt.mp hopen)
        exact ⟨(h.remember sample).concluded ht hc, .decided sample trial accepted ht hc.trial_eq hfailed hfull
          hc.level_eq hc.direction_eq hc.interval_eq⟩

/-- **One call** of any kind keeps the invariant and changes the trial in one of the ways of `Evolves`. -/
theorem apply_step (h : Sound ceiling t) (op : TunerOp) : Sound ceiling (t.apply op) ∧ Evolves t (t.apply op) op := by
  cases op with
  | poll now backlog paused => exact poll_step h now backlog paused
  | dispatch id => exact onDispatch_step h id
  | complete sample => exact onComplete_step h sample

end Step

/-! ## The trial's counter -/

/-- The ids of the calls dispatched and completed so far. -/
structure Ledger where
  dispatched : List Nat
  completed : List Nat
deriving DecidableEq, Repr

namespace Ledger

def empty : Ledger := ⟨[], []⟩

def note (l : Ledger) : TunerOp → Ledger
  | .poll .. => l
  | .dispatch id => { l with dispatched := id :: l.dispatched }
  | .complete sample => { l with completed := sample.id :: l.completed }

/-- A call is dispatched once, and completed at most once after that. -/
def Allows (l : Ledger) : TunerOp → Prop
  | .poll .. => True
  | .dispatch id => id ∉ l.dispatched
  | .complete sample => sample.id ∈ l.dispatched ∧ sample.id ∉ l.completed

instance (l : Ledger) : (op : TunerOp) → Decidable (l.Allows op)
  | .poll .. => inferInstanceAs (Decidable True)
  | .dispatch id => inferInstanceAs (Decidable (id ∉ l.dispatched))
  | .complete sample => inferInstanceAs (Decidable (sample.id ∈ l.dispatched ∧ sample.id ∉ l.completed))

/-- What the ledger knows of the running trial. -/
structure Agrees (l : Ledger) (t : Tuner F) : Prop where
  completed_sub : l.completed ⊆ l.dispatched
  nodup : ∀ trial, t.trial = some trial → trial.dispatched.Nodup
  sub : ∀ trial, t.trial = some trial → trial.dispatched ⊆ l.dispatched
  count : ∀ trial, t.trial = some trial → trial.completed = trial.dispatched.countP (· ∈ l.completed)

omit [Meter F] in
theorem agrees_of_steady {l : Ledger} {t : Tuner F} (hsub : l.completed ⊆ l.dispatched) (ht : t.trial = none) :
    l.Agrees t :=
  ⟨hsub, by simp [ht], by simp [ht], by simp [ht]⟩

omit [Meter F] in
theorem agrees_of_trial {l : Ledger} {t : Tuner F} {trial : Trial F} (hsub : l.completed ⊆ l.dispatched)
    (ht : t.trial = some trial) (hnodup : trial.dispatched.Nodup) (hdispatched : trial.dispatched ⊆ l.dispatched)
    (hcount : trial.completed = trial.dispatched.countP (· ∈ l.completed)) : l.Agrees t :=
  ⟨hsub, fun trial' ht' => by cases ht.symm.trans ht'; exact hnodup,
    fun trial' ht' => by cases ht.symm.trans ht'; exact hdispatched,
    fun trial' ht' => by cases ht.symm.trans ht'; exact hcount⟩

theorem countP_mem_cons {ids done : List Nat} {id : Nat} (hnodup : ids.Nodup) (hid : id ∉ done) :
    ids.countP (· ∈ id :: done) = ids.countP (· ∈ done) + if id ∈ ids then 1 else 0 := by
  induction ids with
  | nil => simp
  | cons x ids ih =>
    obtain ⟨hx, hids⟩ := List.nodup_cons.mp hnodup
    rw [List.countP_cons, List.countP_cons, ih hids]
    by_cases hxid : x = id
    · subst hxid
      simp [hx, hid]
    · have hne : id ≠ x := fun h => hxid h.symm
      simp only [List.mem_cons, hxid, hne, false_or]
      omega

section Step
variable {ceiling : Nat} {l : Ledger} {t : Tuner F}

theorem Agrees.poll (hs : Sound ceiling t) (h : l.Agrees t) (now backlog : Nat) (paused : Bool) :
    l.Agrees (t.poll now backlog paused) := by
  rcases poll_cases hs.one_le (hs.ceiling_eq ▸ hs.level_le) now backlog paused with heq | ⟨htrial, d, heq | ⟨next,
    baseline, -, -, -, -, heq⟩⟩
  · rw [heq]
    exact h
  · rw [heq]
    exact agrees_of_steady h.completed_sub htrial
  · rw [heq]
    exact agrees_of_trial h.completed_sub rfl List.nodup_nil (List.nil_subset _) rfl

omit [Meter F] in
theorem Agrees.dispatch (h : l.Agrees t) {id : Nat} (hid : id ∉ l.dispatched) :
    (l.note (.dispatch id)).Agrees (t.onDispatch id) := by
  have hsub : l.completed ⊆ id :: l.dispatched := fun x hx => List.mem_cons_of_mem _ (h.completed_sub hx)
  unfold onDispatch
  cases ht : t.trial with
  | none => exact agrees_of_steady hsub ht
  | some trial =>
    have hnew : id ∉ trial.dispatched := fun hmem => hid (h.sub trial ht hmem)
    have hopen : id ∉ l.completed := fun hmem => hid (h.completed_sub hmem)
    simp only
    split_ifs with hroom
    · refine agrees_of_trial hsub rfl ?_ ?_ ?_
      · exact List.nodup_append.mpr ⟨h.nodup trial ht, List.nodup_cons.mpr ⟨List.not_mem_nil, List.nodup_nil⟩, by
          rintro a ha b hb rfl
          exact hnew (List.mem_singleton.mp hb ▸ ha)⟩
      · intro x hx
        rcases List.mem_append.mp hx with hx | hx
        · exact List.mem_cons_of_mem _ (h.sub trial ht hx)
        · exact List.mem_singleton.mp hx ▸ List.mem_cons_self
      · change trial.completed = (trial.dispatched ++ [id]).countP (· ∈ l.completed)
        simp [hopen, h.count trial ht]
    · exact agrees_of_trial hsub ht (h.nodup trial ht)
        (fun x hx => List.mem_cons_of_mem _ (h.sub trial ht hx)) (h.count trial ht)

omit [Meter F] in
theorem Agrees.record (h : l.Agrees t) {trial : Trial F} (ht : t.trial = some trial) {sample : Sample}
    (hid : sample.id ∉ l.completed) :
    (trial.record sample).completed = trial.dispatched.countP (· ∈ (l.note (.complete sample)).completed) := by
  rw [note, countP_mem_cons (h.nodup trial ht) hid, ← h.count trial ht, Trial.record]
  split_ifs <;> rfl

theorem Agrees.complete (h : l.Agrees t) {sample : Sample} (hdispatched : sample.id ∈ l.dispatched)
    (hid : sample.id ∉ l.completed) : (l.note (.complete sample)).Agrees (t.onComplete sample) := by
  have hsub : sample.id :: l.completed ⊆ l.dispatched := List.cons_subset.mpr ⟨hdispatched, h.completed_sub⟩
  cases ht : t.trial with
  | none => exact onComplete_steady ht sample ▸ agrees_of_steady hsub ht
  | some trial =>
    by_cases hfailed : sample.outcome = .failed
    · exact agrees_of_steady hsub (onComplete_failed ht hfailed).trial_eq
    · by_cases hopen : (trial.record sample).completed < trial.window
      · rw [onComplete_counted ht hfailed hopen]
        exact agrees_of_trial hsub rfl (h.nodup trial ht) (h.sub trial ht) (h.record ht hid)
      · obtain ⟨accepted, hc⟩ := onComplete_decided ht hfailed (not_lt.mp hopen)
        exact agrees_of_steady hsub hc.trial_eq

theorem Agrees.apply (hs : Sound ceiling t) (h : l.Agrees t) {op : TunerOp} (hop : l.Allows op) :
    (l.note op).Agrees (t.apply op) := by
  cases op with
  | poll now backlog paused => exact h.poll hs now backlog paused
  | dispatch id => exact h.dispatch hop
  | complete sample => exact h.complete hop.1 hop.2

def WindowCompleted (l : Ledger) (trial : Trial F) : Prop :=
  trial.dispatched.length = trial.window ∧ ∀ id ∈ trial.dispatched, id ∈ l.completed

omit [Meter F] in
theorem full_iff (hs : Sound ceiling t) (h : l.Agrees t) {trial : Trial F} (ht : t.trial = some trial)
    {sample : Sample} (hid : sample.id ∉ l.completed) :
    (trial.record sample).completed = trial.window ↔ (l.note (.complete sample)).WindowCompleted trial := by
  have hle := (hs.trial_sound trial ht).dispatched_le
  have hcount : trial.dispatched.countP (· ∈ (l.note (.complete sample)).completed) ≤ trial.dispatched.length :=
    List.countP_le_length
  rw [h.record ht hid, WindowCompleted]
  constructor
  · intro hfull
    have hlength : trial.dispatched.length = trial.window := by omega
    refine ⟨hlength, ?_⟩
    simpa using List.countP_eq_length.mp (hfull.trans hlength.symm)
  · rintro ⟨hlength, hall⟩
    rw [List.countP_eq_length.mpr (by simpa using hall), hlength]

/-- **The end of a trial**: at a failed completion, or when the last call of its window completes. -/
theorem ends_iff (hs : Sound ceiling t) (h : l.Agrees t) {trial : Trial F} (ht : t.trial = some trial)
    {op : TunerOp} (hop : l.Allows op) :
    (t.apply op).trial = none ↔
      ∃ sample, op = .complete sample ∧ (sample.outcome = .failed ∨ (l.note op).WindowCompleted trial) := by
  constructor
  · intro hend
    cases (apply_step hs op).2 with
    | steady _ before => cases ht.symm.trans before
    | begins _ _ _ before => cases ht.symm.trans before
    | continues _ _ _ _ after => cases after.symm.trans hend
    | fails sample _ _ _ outcome => exact ⟨sample, rfl, .inl outcome⟩
    | decided sample _ _ before _ _ full =>
      cases ht.symm.trans before
      exact ⟨sample, rfl, .inr ((full_iff hs h ht hop.2).mp full)⟩
  · rintro ⟨sample, rfl, hend⟩
    by_cases hfailed : sample.outcome = .failed
    · exact (onComplete_failed ht hfailed).trial_eq
    · have hfull := (full_iff hs h ht hop.2).mpr (hend.resolve_left hfailed)
      obtain ⟨accepted, hc⟩ := onComplete_decided ht hfailed hfull.ge
      exact hc.trial_eq

end Step

end Ledger

def OncePerCall (ops : List TunerOp) : Prop := Along Ledger.note Ledger.Allows Ledger.empty ops

instance (ops : List TunerOp) : Decidable (OncePerCall ops) := Along.decidable _ _

/-! ## Every run -/

theorem sound_run (ceiling started : Nat) (ops : List TunerOp) :
    Sound ceiling (run apply (new ceiling started : Tuner F) ops) :=
  run_invariant apply (fun (t : Tuner F) op (h : Sound ceiling t) => (apply_step h op).1) (new_sound ceiling started) ops

theorem agrees_run {ceiling : Nat} (ops : List TunerOp) : ∀ {t : Tuner F} {l : Ledger}, Sound ceiling t →
    l.Agrees t → Along Ledger.note Ledger.Allows l ops →
    (run Ledger.note l ops).Agrees (run apply t ops) := by
  induction ops with
  | nil => exact fun _ h _ => h
  | cons op ops ih => exact fun hs h hops => ih (apply_step hs op).1 (h.apply hs hops.1) hops.2

theorem agrees_of_oncePerCall (ceiling started : Nat) {ops : List TunerOp} (h : OncePerCall ops) :
    (run Ledger.note Ledger.empty ops).Agrees (run apply (new ceiling started : Tuner F) ops) :=
  agrees_run ops (new_sound ceiling started) (Ledger.agrees_of_steady (List.nil_subset _) rfl) h

omit [Meter F] in
theorem Evolves.interval_le {ceiling : Nat} {t t' : Tuner F} {op : TunerOp} (hs : Sound ceiling t)
    (h : Evolves t t' op) : t.interval ≤ t'.interval := by
  have hle := hs.interval_le
  cases h <;> omega

end Tuner

open Tuner in
/-- **The tuner over every run.** The level stays in range and next to the incumbent, every trial ends once and only for
the stated reasons, and the intervals and logs stay bounded; where every call is dispatched once and completed at most
once after that, the counter never passes the recorded ids and a trial ends exactly when its window has completed or a
call fails. -/
theorem tuner_run {F : Type} [Meter F] (ceiling started : Nat) (ops : List TunerOp) :
    let t := run Tuner.apply (Tuner.new ceiling started : Tuner F) ops
    Sound ceiling t ∧ (ceiling = 1 → t.level = 1) ∧
    (rises Tuner.apply (fun t => t.trial.isSome) (Tuner.new ceiling started : Tuner F) ops =
      falls Tuner.apply (fun t => t.trial.isSome) (Tuner.new ceiling started : Tuner F) ops +
        t.trial.isSome.toNat) ∧
    (∀ op, Evolves t (t.apply op) op ∧ t.interval ≤ (t.apply op).interval) ∧
    (OncePerCall ops → ∀ trial, t.trial = some trial → trial.completed ≤ trial.dispatched.length) ∧
    ∀ op, OncePerCall (ops ++ [op]) → ∀ trial, t.trial = some trial →
      ((t.apply op).trial = none ↔ ∃ sample, op = .complete sample ∧ (sample.outcome = .failed ∨
        (run Ledger.note Ledger.empty (ops ++ [op])).WindowCompleted trial)) := by
  intro t
  have hs : Sound ceiling t := sound_run ceiling started ops
  refine ⟨hs, ?_, ?_, ?_, ?_, ?_⟩
  · rintro rfl
    have hone := hs.one_le
    have hle := hs.level_le
    omega
  · exact rises_add Tuner.apply (fun t => t.trial.isSome) (Tuner.new ceiling started : Tuner F) ops
  · intro op
    have hstep := (apply_step hs op).2
    exact ⟨hstep, hstep.interval_le hs⟩
  · intro h trial ht
    rw [(agrees_of_oncePerCall ceiling started h).count trial ht]
    exact List.countP_le_length
  · intro op h trial ht
    obtain ⟨hops, hop, -⟩ := along_append.mp h
    rw [run_concat]
    exact Ledger.ends_iff hs (agrees_of_oncePerCall ceiling started hops) ht hop

/-- A successful call of `chars` characters that ran for one second from `start`. -/
def secondOf (id level start chars : Nat) : Sample :=
  ⟨id, level, start, start + 1000000000, chars, none, .ok⟩

/-- From level 1 to a trial at level 4 with one of its three calls dispatched and completed. -/
def climb : List TunerOp :=
  [.dispatch 0, .complete (secondOf 0 1 0 10), .poll 900000000000 9 false,
   .dispatch 1, .complete (secondOf 1 2 900000000000 100),
   .dispatch 2, .complete (secondOf 2 2 900000000000 100), .poll 9000000000000 9 false,
   .dispatch 3, .dispatch 4, .complete (secondOf 3 3 9000000000000 1000),
   .complete (secondOf 4 3 9000000000000 1000),
   .dispatch 5, .complete (secondOf 5 3 9000000000000 1000), .poll 90000000000000 9 false,
   .dispatch 6, .complete (secondOf 6 4 90000000000000 1000)]

theorem tuner_run_climb :
    ∃ trial, (run Tuner.apply (Tuner.new 4 0 : Tuner Fraction) climb).trial = some trial ∧
      trial.completed ≤ trial.dispatched.length ∧
      ((run Tuner.apply (Tuner.new 4 0 : Tuner Fraction) climb).apply (.dispatch 7)).trial ≠ none := by
  have hrun := tuner_run (F := Fraction) 4 0 climb
  obtain ⟨trial, htrial⟩ := Option.isSome_iff_exists.mp
    (show (run Tuner.apply (Tuner.new 4 0 : Tuner Fraction) climb).trial.isSome = true by decide)
  refine ⟨trial, htrial, hrun.2.2.2.2.1 (by decide) trial htrial, fun hend => ?_⟩
  obtain ⟨sample, hsample, -⟩ := (hrun.2.2.2.2.2 (.dispatch 7) (by decide) trial htrial).mp hend
  cases hsample

/-- A call that completes twice is counted twice: two completions against one recorded id. -/
theorem completed_passes_dispatched :
    ∃ trial, (run Tuner.apply (Tuner.new 4 0 : Tuner Fraction)
        (climb ++ [.complete (secondOf 6 4 90000000000000 1000)])).trial = some trial ∧
      ¬ trial.completed ≤ trial.dispatched.length := by
  refine ⟨_, rfl, ?_⟩
  decide

end Cuca.Services
