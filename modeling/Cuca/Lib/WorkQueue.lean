import Mathlib.Data.List.MinMax
import Mathlib.Data.List.Perm.Basic

/-!
# A loop over a priority queue

Elements are taken out of a queue in their order. One that is stale is dropped; any other changes the state and may put new ones in.

* `PopRule` : a priority queue, with the choice between elements that are alike left open;
* `Work`, `Work.run` : the loop; each change makes the state smaller;
* `Work.run_induction` : what every round keeps, holds at the end, with the queue empty.
-/

namespace WorkQueue

/-- A way to take out an element that none of the others is before. -/
structure PopRule (C : Type*) (le : C → C → Prop) where
  pop : List C → Option (C × List C)
  pop_nil : pop [] = none
  pop_cons : ∀ c queue, ∃ first rest, pop (c :: queue) = some (first, rest) ∧ (first :: rest).Perm (c :: queue) ∧
    ∀ other ∈ rest, le first other

/-- The first one of those with the least key. -/
def PopRule.least {C K : Type*} [DecidableEq C] [LinearOrder K] (key : C → K) : PopRule C fun a b => key a ≤ key b where
  pop queue := (queue.argmin key).map fun first => (first, queue.erase first)
  pop_nil := rfl
  pop_cons c queue := by
    rcases hargmin : (c :: queue).argmin key with _ | first
    · exact nomatch List.argmin_eq_none.mp hargmin
    · have hmem := List.argmin_mem hargmin
      exact ⟨first, (c :: queue).erase first, rfl, (List.perm_cons_erase hmem).symm,
        fun other hother => List.le_of_mem_argmin (List.mem_of_mem_erase hother) hargmin⟩

variable {S C : Type*} {le : C → C → Prop}

/-- The same queue for an order that allows more. -/
def PopRule.weaken {le' : C → C → Prop} (rule : PopRule C le) (h : ∀ a b, le a b → le' a b) : PopRule C le' where
  pop := rule.pop
  pop_nil := rule.pop_nil
  pop_cons c queue := by
    obtain ⟨first, rest, hpop, hperm, hfirst⟩ := rule.pop_cons c queue
    exact ⟨first, rest, hpop, hperm, fun other hother => h first other (hfirst other hother)⟩

theorem PopRule.pop_some (rule : PopRule C le) {queue rest : List C} {c : C} (h : rule.pop queue = some (c, rest)) :
    (c :: rest).Perm queue ∧ ∀ other ∈ rest, le c other := by
  rcases queue with _ | ⟨a, queue⟩
  · exact nomatch rule.pop_nil.symm.trans h
  · obtain ⟨first, rest', hpop, hperm, hfirst⟩ := rule.pop_cons a queue
    obtain ⟨rfl, rfl⟩ := Prod.mk.inj (Option.some.inj (hpop.symm.trans h))
    exact ⟨hperm, hfirst⟩

theorem PopRule.pop_none (rule : PopRule C le) {queue : List C} (h : rule.pop queue = none) : queue = [] := by
  rcases queue with _ | ⟨a, queue⟩
  · rfl
  · obtain ⟨first, rest, hpop, -⟩ := rule.pop_cons a queue
    exact nomatch hpop.symm.trans h

/-- What an element does: nothing when it is stale, or a smaller state and new elements. -/
structure Work (S C : Type*) where
  step : S → C → Option (S × List C)
  size : S → Nat
  shrinks : ∀ s c s' new, step s c = some (s', new) → size s' < size s

/-- The loop. -/
def Work.run (w : Work S C) (rule : PopRule C le) (s : S) (queue : List C) : S :=
  match h : rule.pop queue with
  | none => s
  | some (c, rest) =>
    match h' : w.step s c with
    | none => w.run rule s rest
    | some (s', new) => w.run rule s' (new ++ rest)
termination_by (w.size s, queue.length)
decreasing_by
  · have hlength := (rule.pop_some h).1.length_eq
    rw [List.length_cons] at hlength
    exact Prod.Lex.right _ (by omega)
  · exact Prod.Lex.left _ _ (w.shrinks s c s' new h')

section
variable (w : Work S C) (rule : PopRule C le) {s s' : S} {queue rest new : List C} {c : C}

theorem Work.run_none (h : rule.pop queue = none) : w.run rule s queue = s := by
  rw [run]
  split
  · rfl
  · rename_i h'
    exact nomatch h.symm.trans h'

theorem Work.run_stale (h : rule.pop queue = some (c, rest)) (h' : w.step s c = none) :
    w.run rule s queue = w.run rule s rest := by
  rw [run]
  split
  · rename_i hnone
    exact nomatch h.symm.trans hnone
  · rename_i hpop
    obtain ⟨rfl, rfl⟩ := Prod.mk.inj (Option.some.inj (h.symm.trans hpop))
    split
    · rfl
    · rename_i hstep
      exact nomatch h'.symm.trans hstep

theorem Work.run_step (h : rule.pop queue = some (c, rest)) (h' : w.step s c = some (s', new)) :
    w.run rule s queue = w.run rule s' (new ++ rest) := by
  rw [run]
  split
  · rename_i hnone
    exact nomatch h.symm.trans hnone
  · rename_i hpop
    obtain ⟨rfl, rfl⟩ := Prod.mk.inj (Option.some.inj (h.symm.trans hpop))
    split
    · rename_i hstep
      exact nomatch h'.symm.trans hstep
    · rename_i hstep
      obtain ⟨rfl, rfl⟩ := Prod.mk.inj (Option.some.inj (h'.symm.trans hstep))
      rfl

end

/-- **What every round keeps** holds at the end, with nothing left in the queue. -/
theorem Work.run_induction (w : Work S C) (rule : PopRule C le) (inv : S → List C → Prop)
    (hstale : ∀ s queue c rest, inv s queue → rule.pop queue = some (c, rest) → w.step s c = none → inv s rest)
    (hstep : ∀ s queue c rest s' new, inv s queue → rule.pop queue = some (c, rest) → w.step s c = some (s', new) →
      inv s' (new ++ rest))
    {s : S} {queue : List C} (h : inv s queue) : inv (w.run rule s queue) [] := by
  induction s, queue using Work.run.induct w rule with
  | case1 s queue hpop =>
    rw [w.run_none rule hpop]
    exact rule.pop_none hpop ▸ h
  | case2 s queue c rest hpop hnone ih =>
    rw [w.run_stale rule hpop hnone]
    exact ih (hstale s queue c rest h hpop hnone)
  | case3 s queue c rest hpop s' new hsome ih =>
    rw [w.run_step rule hpop hsome]
    exact ih (hstep s queue c rest s' new h hpop hsome)

end WorkQueue
