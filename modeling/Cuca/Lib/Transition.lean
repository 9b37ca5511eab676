import Mathlib.Data.List.Infix

/-!
# Runs of a step function

A system is a step function `step : σ → α → σ`; a run is a list of events, oldest first.

* `run` : the state a run ends in;
* `Along P` : `P` holds of every step of a run, at the state that step starts from;
* `Throughout I` : `I` holds of every state of a run;
* `run_induction` : an invariant that the steps allowed along a run keep holds at its end;
* `throughout_induction` : and in every state on the way;
* `throughout_iff_along`, `throughout_iff_along_within`, `throughout_iff_along_carried` : exactly so, where the allowed steps are
  those that keep the invariant.
-/

namespace Transition

variable {σ α : Type*} (step : σ → α → σ)

def run (s : σ) (events : List α) : σ := events.foldl step s

/-- `P` holds of every step. -/
def Along (P : σ → α → Prop) : σ → List α → Prop
  | _, [] => True
  | s, a :: events => P s a ∧ Along P (step s a) events

/-- `I` holds of every state, the first one and the last one included. -/
def Throughout (I : σ → Prop) : σ → List α → Prop
  | s, [] => I s
  | s, a :: events => I s ∧ Throughout I (step s a) events

/-! ## Runs -/

@[simp] theorem run_nil (s : σ) : run step s [] = s := rfl

@[simp] theorem run_cons (s : σ) (a : α) (events : List α) : run step s (a :: events) = run step (step s a) events :=
  rfl

theorem run_append (s : σ) (first second : List α) :
    run step s (first ++ second) = run step (run step s first) second := List.foldl_append

theorem run_concat (s : σ) (events : List α) (a : α) : run step s (events ++ [a]) = step (run step s events) a := by
  rw [run_append, run_cons, run_nil]

variable {I : σ → Prop} {P : σ → α → Prop}

/-- **Invariants**: what every allowed step keeps holds after a run of allowed steps. -/
theorem run_induction (hstep : ∀ s a, P s a → I s → I (step s a))
    {s : σ} (hs : I s) (events : List α) (h : Along step P s events) : I (run step s events) := by
  induction events generalizing s with
  | nil => exact hs
  | cons a events ih => exact ih (hstep s a h.1 hs) h.2

theorem run_invariant (hstep : ∀ s a, I s → I (step s a)) {s : σ} (hs : I s) (events : List α) :
    I (run step s events) := by
  induction events generalizing s with
  | nil => exact hs
  | cons a events ih => exact ih (hstep s a hs)

theorem run_mono {R : σ → σ → Prop} (hrefl : ∀ s, R s s) (htrans : ∀ a b c, R a b → R b c → R a c)
    (hstep : ∀ s a, R s (step s a)) (s : σ) (events : List α) : R s (run step s events) := by
  induction events generalizing s with
  | nil => exact hrefl s
  | cons a events ih => exact htrans _ _ _ (hstep s a) (ih (step s a))

/-- How often a run turns `b` on. -/
def rises (b : σ → Bool) : σ → List α → Nat
  | _, [] => 0
  | s, a :: events => (if !b s && b (step s a) then 1 else 0) + rises b (step s a) events

/-- How often a run turns `b` off. -/
def falls (b : σ → Bool) : σ → List α → Nat
  | _, [] => 0
  | s, a :: events => (if b s && !b (step s a) then 1 else 0) + falls b (step s a) events

theorem rises_add (b : σ → Bool) (s : σ) (events : List α) :
    rises step b s events + (b s).toNat = falls step b s events + (b (run step s events)).toNat := by
  induction events generalizing s with
  | nil => simp [rises, falls]
  | cons a events ih =>
    have h := ih (step s a)
    rw [rises, falls, run_cons]
    cases hs : b s <;> cases ha : b (step s a) <;> simp_all <;> omega

/-! ## Along a run -/

variable {step}

theorem along_append {s : σ} {first second : List α} :
    Along step P s (first ++ second) ↔ Along step P s first ∧ Along step P (run step s first) second := by
  induction first generalizing s with
  | nil => simp [Along]
  | cons a first ih => simp [Along, ih, and_assoc]

theorem along_invariant (hallowed : ∀ s a, I s → P s a) (hstep : ∀ s a, I s → I (step s a)) {s : σ}
    (hs : I s) (events : List α) : Along step P s events := by
  induction events generalizing s with
  | nil => trivial
  | cons a events ih => exact ⟨hallowed s a hs, ih (hstep s a hs)⟩

instance Along.decidable {P : σ → α → Prop} [∀ s a, Decidable (P s a)] :
    ∀ (s : σ) (events : List α), Decidable (Along step P s events)
  | _, [] => inferInstanceAs (Decidable True)
  | s, a :: events => @instDecidableAnd _ _ _ (Along.decidable (step s a) events)

/-! ## Every state of a run -/

theorem Throughout.first {s : σ} {events : List α} (h : Throughout step I s events) : I s := by
  cases events with
  | nil => exact h
  | cons a events => exact h.1

theorem throughout_append {s : σ} {first second : List α} :
    Throughout step I s (first ++ second) ↔ Throughout step I s first ∧ Throughout step I (run step s first) second := by
  induction first generalizing s with
  | nil => exact ⟨fun h => ⟨h.first, h⟩, fun h => h.2⟩
  | cons a first ih => simp [Throughout, ih, and_assoc]

theorem Throughout.last {s : σ} {events : List α} (h : Throughout step I s events) :
    I (run step s events) := by
  rw [← List.append_nil events] at h
  exact (throughout_append.mp h).2

theorem Throughout.imp {I J : σ → Prop} (himp : ∀ s, I s → J s) {s : σ} {events : List α}
    (h : Throughout step I s events) : Throughout step J s events := by
  induction events generalizing s with
  | nil => exact himp s h
  | cons a events ih => exact ⟨himp s h.1, ih h.2⟩

theorem Throughout.and {I J : σ → Prop} {s : σ} {events : List α} (hI : Throughout step I s events)
    (hJ : Throughout step J s events) : Throughout step (fun s => I s ∧ J s) s events := by
  induction events generalizing s with
  | nil => exact ⟨hI, hJ⟩
  | cons a events ih => exact ⟨⟨hI.1, hJ.1⟩, ih hI.2 hJ.2⟩

theorem throughout_invariant (hstep : ∀ s a, I s → I (step s a)) {s : σ} (hs : I s) (events : List α) :
    Throughout step I s events := by
  induction events generalizing s with
  | nil => exact hs
  | cons a events ih => exact ⟨hs, ih (hstep s a hs)⟩

/-- **Invariants along a run**: a run of allowed steps from a good state passes through good states only. -/
theorem throughout_induction (hstep : ∀ s a, P s a → I s → I (step s a))
    {s : σ} (hs : I s) {events : List α} (h : Along step P s events) : Throughout step I s events := by
  induction events generalizing s with
  | nil => exact hs
  | cons a events ih => exact ⟨hs, ih (hstep s a h.1 hs) h.2⟩

/-- A property that each step within `B` keeps exactly when the step is allowed: in runs within `B` it holds throughout exactly
the allowed ones. -/
theorem throughout_iff_along_within {I B : σ → Prop}
    (hstep : ∀ s a, B (step s a) → I s → (I (step s a) ↔ P s a)) {s : σ} (hs : I s) {events : List α}
    (hB : Throughout step B s events) : Throughout step I s events ↔ Along step P s events := by
  induction events generalizing s with
  | nil => exact ⟨fun _ => trivial, fun _ => hs⟩
  | cons a events ih =>
    have hiff := hstep s a hB.2.first hs
    constructor
    · intro h
      have hnext := h.2.first
      exact ⟨hiff.mp hnext, (ih hnext hB.2).mp h.2⟩
    · intro h
      have hnext := hiff.mpr h.1
      exact ⟨hs, (ih hnext hB.2).mpr h.2⟩

/-- A property that follows from an invariant `J`: from a state with the invariant, a step leads to the property exactly when it is
allowed, and the allowed steps keep the invariant. -/
theorem throughout_iff_along_carried {I J : σ → Prop} {B P : σ → α → Prop} (himp : ∀ s, J s → I s)
    (hstep : ∀ s a, B s a → J s → I (step s a) → P s a) (hkeep : ∀ s a, B s a → J s → P s a → J (step s a)) {s : σ} (hs : J s)
    {events : List α} (hB : Along step B s events) : Throughout step I s events ↔ Along step P s events := by
  induction events generalizing s with
  | nil => exact ⟨fun _ => trivial, fun _ => himp s hs⟩
  | cons a events ih =>
    constructor
    · intro h
      have hallowed := hstep s a hB.1 hs h.2.first
      exact ⟨hallowed, (ih (hkeep s a hB.1 hs hallowed) hB.2).mp h.2⟩
    · intro h
      exact ⟨himp s hs, (ih (hkeep s a hB.1 hs h.1) hB.2).mpr h.2⟩

theorem throughout_iff_along (hstep : ∀ s a, I s → (I (step s a) ↔ P s a)) {s : σ}
    (hs : I s) (events : List α) : Throughout step I s events ↔ Along step P s events := by
  have htrivial : Throughout step (fun _ => True) s events := throughout_invariant (fun _ _ _ => trivial) trivial events
  exact throughout_iff_along_within (fun s a _ => hstep s a) hs htrivial

instance Throughout.decidable {I : σ → Prop} [∀ s, Decidable (I s)] :
    ∀ (s : σ) (events : List α), Decidable (Throughout step I s events)
  | s, [] => inferInstanceAs (Decidable (I s))
  | s, a :: events => @instDecidableAnd _ _ _ (Throughout.decidable (step s a) events)

end Transition
