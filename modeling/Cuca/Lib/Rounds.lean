import Mathlib.Data.Option.Basic

/-!
# Loops that stop by themselves

A step is tried again and again until there is none. The number of steps is bounded, and the loop has no result where the
bound does not suffice.

* `rounds` : the loop;
* `rounds_keeps` : what every step keeps;
* `rounds_isSome` : a measure that every step makes smaller is bound enough.
-/

namespace Rounds

variable {S : Type*} (step : S → Option S)

def rounds : Nat → S → Option S
  | 0, s => if (step s).isSome then none else some s
  | bound + 1, s =>
    match step s with
    | none => some s
    | some s' => rounds bound s'

variable {step} {s s' : S} {bound : Nat}

theorem rounds_none (h : step s = none) : rounds step bound s = some s := by
  cases bound <;> simp [rounds, h]

theorem rounds_some (h : step s = some s') : rounds step (bound + 1) s = rounds step bound s' := by
  rw [rounds, h]

theorem rounds_keeps {keeps : S → Prop} (hstep : ∀ s s', keeps s → step s = some s' → keeps s') (hs : keeps s)
    (h : rounds step bound s = some s') : keeps s' := by
  induction bound generalizing s with
  | zero =>
    rcases hnext : step s with _ | t
    · rw [rounds_none hnext] at h
      exact Option.some.inj h ▸ hs
    · simp [rounds, hnext] at h
  | succ bound ih =>
    rcases hnext : step s with _ | t
    · rw [rounds_none hnext] at h
      exact Option.some.inj h ▸ hs
    · rw [rounds_some hnext] at h
      exact ih (hstep s t hs hnext) h

theorem rounds_isSome {measure : S → Nat} (hstep : ∀ s s', step s = some s' → measure s' < measure s)
    (h : measure s ≤ bound) : (rounds step bound s).isSome := by
  induction bound generalizing s with
  | zero =>
    rcases hnext : step s with _ | t
    · rw [rounds_none hnext]
      rfl
    · have hless := hstep s t hnext
      omega
  | succ bound ih =>
    rcases hnext : step s with _ | t
    · rw [rounds_none hnext]
      rfl
    · rw [rounds_some hnext]
      apply ih
      have hless := hstep s t hnext
      omega

end Rounds
