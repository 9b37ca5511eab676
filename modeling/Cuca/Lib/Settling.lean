import Mathlib.Data.Multiset.DershowitzManna
import Mathlib.Data.Nat.Find
import Mathlib.Order.WellFounded

/-!
# Sequences that settle

A sequence whose every step either stays where it is or goes down a well-founded order goes down only finitely often.

* `settles` : from some index on it stays;
* `Lower` : an order on weights, two counts and a multiset of numbers, that a sum of weights goes down in when one of
  its parts does (`Lower.add_right`).
-/

namespace Settling

section Sequences
variable {α : Type*} {r : α → α → Prop}

theorem constant_between {x : ℕ → α} {moves : ℕ → Prop} (hstay : ∀ k, ¬ moves k → x (k + 1) = x k) {start : ℕ} :
    ∀ n, (∀ k, start ≤ k → k < start + n → ¬ moves k) → x (start + n) = x start := by
  intro n
  induction n with
  | zero => exact fun _ => rfl
  | succ n ih =>
    intro h
    have hlast := hstay (start + n) (h _ (Nat.le_add_right _ _) (by omega))
    exact hlast.trans (ih fun k hle hlt => h k hle (by omega))

theorem settles (hr : WellFounded r) (x : ℕ → α) (moves : ℕ → Prop) {first : ℕ}
    (hstay : ∀ k, ¬ moves k → x (k + 1) = x k) (hdown : ∀ k, first ≤ k → moves k → r (x (k + 1)) (x k)) :
    ∃ n, ∀ k, n ≤ k → ¬ moves k := by
  classical
  -- induction on the value the sequence has at `start`
  suffices h : ∀ a start, first ≤ start → x start = a → ∃ n, ∀ k, n ≤ k → ¬ moves k from
    h (x first) first le_rfl rfl
  intro a
  induction a using hr.induction with
  | _ a ih =>
    intro start hfirst hstart
    by_cases hmove : ∃ n, moves (start + n)
    · have hsame : x (start + Nat.find hmove) = x start := by
        refine constant_between hstay _ fun k hle hlt => ?_
        obtain ⟨n, rfl⟩ := Nat.exists_eq_add_of_le hle
        exact Nat.find_min hmove (by omega)
      have hlower := hdown _ (by omega) (Nat.find_spec hmove)
      rw [hsame, hstart] at hlower
      exact ih _ hlower _ (by omega) rfl
    · refine ⟨start, fun k hle hk => hmove ?_⟩
      obtain ⟨n, rfl⟩ := Nat.exists_eq_add_of_le hle
      exact ⟨n, hk⟩

end Sequences

/-! ## Weights -/

open Multiset

abbrev Weight := ℕ × ℕ × Multiset ℕ

def Lower : Weight → Weight → Prop := Prod.Lex (· < ·) (Prod.Lex (· < ·) IsDershowitzMannaLT)

theorem lower_wellFounded : WellFounded Lower :=
  WellFounded.prod_lex Nat.lt_wfRel.wf (WellFounded.prod_lex Nat.lt_wfRel.wf wellFounded_isDershowitzMannaLT)

theorem lower_first {a b : Weight} (h : a.1 < b.1) : Lower a b := Prod.lex_def.mpr (.inl h)

theorem lower_second {a b : Weight} (hfirst : a.1 = b.1) (h : a.2.1 < b.2.1) : Lower a b :=
  Prod.lex_def.mpr (.inr ⟨hfirst, Prod.lex_def.mpr (.inl h)⟩)

theorem lower_multiset {a b : Weight} (hfirst : a.1 = b.1) (hsecond : a.2.1 = b.2.1)
    (h : IsDershowitzMannaLT a.2.2 b.2.2) : Lower a b :=
  Prod.lex_def.mpr (.inr ⟨hfirst, Prod.lex_def.mpr (.inr ⟨hsecond, h⟩)⟩)

theorem Lower.add_right {a b : Weight} (h : Lower a b) (rest : Weight) : Lower (a + rest) (b + rest) := by
  rcases Prod.lex_def.mp h with hlt | ⟨heq, hrest⟩
  · exact lower_first (Nat.add_lt_add_right hlt _)
  · have hfirst : (a + rest).1 = (b + rest).1 := congrArg (· + rest.1) heq
    rcases Prod.lex_def.mp hrest with hlt | ⟨heq, X, Y, Z, hne, ha, hb, hlt⟩
    · exact lower_second hfirst (Nat.add_lt_add_right hlt _)
    · refine lower_multiset hfirst (congrArg (· + rest.2.1) heq) ⟨X + rest.2.2, Y, Z, hne, ?_, ?_, hlt⟩
      · change a.2.2 + rest.2.2 = _
        rw [ha, add_right_comm]
      · change b.2.2 + rest.2.2 = _
        rw [hb, add_right_comm]

theorem multiset_lower (x : ℕ) {ys zs : Multiset ℕ} (hmem : x ∈ zs) (hlt : ∀ y ∈ ys, y < x) :
    IsDershowitzMannaLT ys zs :=
  ⟨0, ys, zs, fun h => by rw [h] at hmem; exact absurd hmem (notMem_zero x), (zero_add _).symm, (zero_add _).symm,
    fun y hy => ⟨x, hmem, hlt y hy⟩⟩

end Settling
