import Mathlib.Algebra.BigOperators.Group.List.Basic
import Mathlib.Tactic.Abel

/-!
# Sums over a list of accounts

A total over a list, split into the accounts that change and the rest that does not, in any commutative monoid: counts,
and multisets of tokens that move from one account to another.

* `one_account` : one account and the rest;
* `two_accounts` : two different accounts and the rest;
* `conserve` : a balance that includes what has come in and what has gone out stays a balance.
-/

namespace Accounts

variable {α : Type*} {M : Type*} [AddCommMonoid M]

theorem one_account (f : α → M) {xs : List α} {i : Nat} {x : α} (h : xs[i]? = some x) :
    ∃ rest, (xs.map f).sum = f x + rest ∧ ∀ x', ((xs.set i x').map f).sum = f x' + rest := by
  induction xs generalizing i with
  | nil => simp at h
  | cons z xs ih =>
    cases i with
    | zero =>
      obtain rfl : z = x := by simpa using h
      exact ⟨(xs.map f).sum, by simp, by simp⟩
    | succ i =>
      obtain ⟨rest, hsum, hset⟩ := ih (by simpa using h)
      refine ⟨f z + rest, ?_, fun x' => ?_⟩
      · rw [List.map_cons, List.sum_cons, hsum]
        abel
      · rw [List.set_cons_succ, List.map_cons, List.sum_cons, hset]
        abel

theorem two_accounts (f : α → M) {xs : List α} {i j : Nat} {x y : α} (hx : xs[i]? = some x) (hy : xs[j]? = some y)
    (hne : i ≠ j) :
    ∃ rest, (xs.map f).sum = f x + f y + rest ∧
      ∀ x' y', (((xs.set i x').set j y').map f).sum = f x' + f y' + rest := by
  induction xs generalizing i j with
  | nil => simp at hx
  | cons z xs ih =>
    cases i with
    | zero =>
      obtain ⟨j, rfl⟩ := Nat.exists_eq_succ_of_ne_zero hne.symm
      obtain rfl : z = x := by simpa using hx
      obtain ⟨rest, hsum, hset⟩ := one_account f (show xs[j]? = some y by simpa using hy)
      refine ⟨rest, ?_, fun x' y' => ?_⟩
      · rw [List.map_cons, List.sum_cons, hsum, add_assoc]
      · rw [List.set_cons_zero, List.set_cons_succ, List.map_cons, List.sum_cons, hset, add_assoc]
    | succ i =>
      cases j with
      | zero =>
        obtain rfl : z = y := by simpa using hy
        obtain ⟨rest, hsum, hset⟩ := one_account f (show xs[i]? = some x by simpa using hx)
        refine ⟨rest, ?_, fun x' y' => ?_⟩
        · rw [List.map_cons, List.sum_cons, hsum]
          abel
        · rw [List.set_cons_succ, List.set_cons_zero, List.map_cons, List.sum_cons, hset]
          abel
      | succ j =>
        obtain ⟨rest, hsum, hset⟩ := ih (by simpa using hx) (by simpa using hy) (fun h => hne (congrArg _ h))
        refine ⟨f z + rest, ?_, fun x' y' => ?_⟩
        · rw [List.map_cons, List.sum_cons, hsum]
          abel
        · rw [List.set_cons_succ, List.set_cons_succ, List.map_cons, List.sum_cons, hset]
          abel

theorem conserve {rest x y out₁ out₂ new : M} (hflow : y + out₁ + out₂ = x + new) (before₁ before₂ : M) :
    y + rest + (before₁ + out₁) + (before₂ + out₂) = x + rest + before₁ + before₂ + new := by
  calc y + rest + (before₁ + out₁) + (before₂ + out₂)
      = (y + out₁ + out₂) + rest + before₁ + before₂ := by abel
    _ = (x + new) + rest + before₁ + before₂ := by rw [hflow]
    _ = x + rest + before₁ + before₂ + new := by abel

end Accounts
