import Mathlib.Data.List.Basic

/-!
# Machines that answer

A machine answers each call and moves on: `step : σ → α → ω × σ`.

* `run` : the answers to a list of calls, and the last state;
* `run_invariant` : what every step keeps;
* `run_simulates` : two machines whose steps agree, in related states, answer alike.
-/

namespace Simulation

variable {σ τ α ω : Type*}

/-- The answers to the calls, oldest first, and the state after them. -/
def run (step : σ → α → ω × σ) : σ → List α → List ω × σ
  | s, [] => ([], s)
  | s, a :: calls => ((step s a).1 :: (run step (step s a).2 calls).1, (run step (step s a).2 calls).2)

variable {step : σ → α → ω × σ} {step' : τ → α → ω × τ}

theorem run_invariant {I : σ → Prop} (hstep : ∀ s a, I s → I (step s a).2) {s : σ} (hs : I s) (calls : List α) :
    I (run step s calls).2 := by
  induction calls generalizing s with
  | nil => exact hs
  | cons a calls ih => exact ih (hstep s a hs)

theorem run_induction {I : σ → Prop} {P : α → Prop} (hstep : ∀ s a, P a → I s → I (step s a).2) {s : σ} (hs : I s)
    (calls : List α) (h : ∀ a ∈ calls, P a) : I (run step s calls).2 := by
  induction calls generalizing s with
  | nil => exact hs
  | cons a calls ih =>
    exact ih (hstep s a (h a (List.mem_cons_self ..)) hs) fun b hb => h b (List.mem_cons_of_mem _ hb)

/-- **Simulation**: machines whose steps agree in related states answer alike. -/
theorem run_simulates {R : σ → τ → Prop}
    (hstep : ∀ s t a, R s t → (step s a).1 = (step' t a).1 ∧ R (step s a).2 (step' t a).2) {s : σ} {t : τ}
    (h : R s t) (calls : List α) :
    (run step s calls).1 = (run step' t calls).1 ∧ R (run step s calls).2 (run step' t calls).2 := by
  induction calls generalizing s t with
  | nil => exact ⟨rfl, h⟩
  | cons a calls ih =>
    obtain ⟨hanswer, hnext⟩ := hstep s t a h
    obtain ⟨hanswers, hlast⟩ := ih hnext
    refine ⟨?_, hlast⟩
    show _ :: _ = _ :: _
    rw [hanswer, hanswers]

end Simulation
