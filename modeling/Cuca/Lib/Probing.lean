import Cuca.Lib.Rounds
import Mathlib.Data.List.Basic
import Mathlib.Data.List.Count
import Mathlib.Data.Nat.Find

/-!
# Tables that are probed slot by slot

A table of slots, some of them free. An entry belongs to the slot that its key is at home in, and stands in the first slot from there on, around
the end of the table, that was free.

* `probe` : the loop that goes from a key's home to where it ends;
* `Passes`, `First` : a slot that a probe goes past, and the one where it ends;
* `exists_first`, `probe_first` : a table with a free slot ends every probe, after at most one round;
* `Unbroken` : no probe ends before it comes to what it looks for;
* `Unbroken.found`, `Unbroken.missing` : what a probe ends at is the entry of the key, if there is one;
* `Unbroken.set` : the slot where a probe ends takes a new entry.
-/

namespace Probing
open Rounds

def probe (size : Nat) (ends : Nat → Bool) (fuel start : Nat) : Option Nat :=
  rounds (fun i => if ends i then none else some ((i + 1) % size)) fuel start

theorem probe_eq {size start k fuel : Nat} {ends : Nat → Bool} (hbefore : ∀ j < k, ends ((start + j) % size) = false)
    (hend : ends ((start + k) % size) = true) (h : k ≤ fuel) : probe size ends fuel (start % size) = some ((start + k) % size) := by
  unfold probe
  induction k generalizing start fuel with
  | zero => exact rounds_none (if_pos hend)
  | succ k ih =>
    obtain ⟨fuel, rfl⟩ : ∃ n, fuel = n + 1 := ⟨fuel - 1, by omega⟩
    have hstart : ends (start % size) = false := hbefore 0 (Nat.succ_pos k)
    have hnext : (if ends (start % size) then none else some ((start % size + 1) % size)) = some ((start + 1) % size) := by
      rw [hstart, if_neg Bool.false_ne_true, Nat.mod_add_mod]
    rw [rounds_some hnext, Nat.add_comm k 1, ← Nat.add_assoc]
    apply ih
    · intro j hj
      rw [Nat.add_assoc, Nat.add_comm 1 j]
      exact hbefore (j + 1) (by omega)
    · rwa [Nat.add_assoc, Nat.add_comm 1 k]
    · omega

variable {α κ : Type*} (free : α → Prop) (key : α → κ) (home : κ → Nat)

def Passes (table : List α) (x : κ) (i : Nat) : Prop := ∃ a, table[i]? = some a ∧ ¬ free a ∧ key a ≠ x

/-- A probe for the key ends `k` slots on. -/
structure First (table : List α) (x : κ) (k : Nat) : Prop where
  lt : k < table.length
  before : ∀ j < k, Passes free key table x ((home x + j) % table.length)
  ends : ¬ Passes free key table x ((home x + k) % table.length)

def Unbroken (table : List α) : Prop := ∀ i a, table[i]? = some a → ¬ free a → ∃ k < table.length,
  (home (key a) + k) % table.length = i ∧ ∀ j < k, Passes free key table (key a) ((home (key a) + j) % table.length)

variable {free key home} {table : List α} {x : κ} {a b : α} {i k : Nat}

theorem exists_step {size : Nat} (hi : i < size) (start : Nat) : ∃ k < size, (start + k) % size = i := by
  have hsize : 0 < size := Nat.lt_of_le_of_lt (Nat.zero_le i) hi
  have hlt := Nat.mod_lt start hsize
  refine ⟨(i + (size - start % size)) % size, Nat.mod_lt _ hsize, ?_⟩
  rw [Nat.add_mod_mod, ← Nat.mod_add_mod start, show start % size + (i + (size - start % size)) = i + size by omega, Nat.add_mod_right,
    Nat.mod_eq_of_lt hi]

theorem exists_first (hfree : ∃ a ∈ table, free a) (x : κ) : ∃ k, First free key home table x k := by
  classical
  obtain ⟨a, ha, hfree⟩ := hfree
  obtain ⟨i, hi⟩ := List.mem_iff_getElem?.mp ha
  obtain ⟨k, hk, hstep⟩ := exists_step (List.getElem?_eq_some_iff.mp hi).1 (home x)
  have hends : ¬ Passes free key table x ((home x + k) % table.length) := by
    rintro ⟨b, hb, hused, -⟩
    rw [hstep, hi, Option.some_inj] at hb
    exact hused (hb ▸ hfree)
  have hexists : ∃ k, ¬ Passes free key table x ((home x + k) % table.length) := ⟨k, hends⟩
  refine ⟨Nat.find hexists, Nat.lt_of_le_of_lt (Nat.find_min' hexists hends) hk, fun j hj => ?_, Nat.find_spec hexists⟩
  exact not_not.mp (Nat.find_min hexists hj)

theorem probe_first {ends : Nat → Bool} {fuel : Nat} (hends : ∀ i < table.length, ends i = true ↔ ¬ Passes free key table x i)
    (h : First free key home table x k) (hfuel : table.length ≤ fuel) :
    probe table.length ends fuel (home x % table.length) = some ((home x + k) % table.length) := by
  have hsize : 0 < table.length := Nat.lt_of_le_of_lt (Nat.zero_le k) h.lt
  apply probe_eq
  · intro j hj
    rw [Bool.eq_false_iff]
    exact fun hend => (hends _ (Nat.mod_lt _ hsize)).mp hend (h.before j hj)
  · exact (hends _ (Nat.mod_lt _ hsize)).mpr h.ends
  · exact Nat.le_trans (Nat.le_of_lt h.lt) hfuel

theorem First.getElem? (h : First free key home table x k) : ∃ a, table[(home x + k) % table.length]? = some a ∧ (free a ∨ key a = x) := by
  have hsize : 0 < table.length := Nat.lt_of_le_of_lt (Nat.zero_le k) h.lt
  refine ⟨_, List.getElem?_eq_getElem (Nat.mod_lt _ hsize), ?_⟩
  by_contra hnot
  rw [not_or] at hnot
  exact h.ends ⟨_, List.getElem?_eq_getElem (Nat.mod_lt _ hsize), hnot⟩

theorem Unbroken.at_first (hunbroken : Unbroken free key home table) (h : First free key home table x k) (hi : table[i]? = some a)
    (hused : ¬ free a) (hkey : key a = x) : i = (home x + k) % table.length := by
  subst hkey
  obtain ⟨m, -, hm, hpasses⟩ := hunbroken i a hi hused
  rcases Nat.lt_trichotomy m k with hlt | rfl | hlt
  · obtain ⟨b, hb, -, hother⟩ := h.before m hlt
    rw [hm, hi, Option.some_inj] at hb
    exact absurd (congrArg key hb.symm) hother
  · exact hm.symm
  · exact absurd (hpasses k hlt) h.ends

/-- **Found**: what a probe ends at is the key's only entry. -/
theorem Unbroken.found (hunbroken : Unbroken free key home table) (h : First free key home table x k)
    (ha : table[(home x + k) % table.length]? = some a) (hb : b ∈ table) (hused : ¬ free b) (hkey : key b = x) : b = a := by
  obtain ⟨i, hi⟩ := List.mem_iff_getElem?.mp hb
  rw [← hunbroken.at_first h hi hused hkey, hi, Option.some_inj] at ha
  exact ha

/-- **Missing**: where a probe ends at a free slot, the key has no entry. -/
theorem Unbroken.missing (hunbroken : Unbroken free key home table) (h : First free key home table x k)
    (ha : table[(home x + k) % table.length]? = some a) (hfree : free a) (hb : b ∈ table) (hused : ¬ free b) : key b ≠ x :=
  fun hkey => hused (hunbroken.found h ha hb hused hkey ▸ hfree)

theorem unbroken_replicate (size : Nat) (hfree : free a) : Unbroken free key home (List.replicate size a) := by
  intro i b hb hused
  obtain rfl := List.eq_of_mem_replicate (List.mem_of_getElem? hb)
  exact absurd hfree hused

theorem Passes.set {y : κ} (hi : table[i]? = some b) (hfree : free b) {j : Nat} (h : Passes free key table y j) :
    Passes free key (table.set i a) y j := by
  obtain ⟨c, hc, hused, hother⟩ := h
  have hne : i ≠ j := by
    rintro rfl
    rw [hi, Option.some_inj] at hc
    exact hused (hc ▸ hfree)
  exact ⟨c, by rw [List.getElem?_set_ne hne, hc], hused, hother⟩

theorem Unbroken.set (hunbroken : Unbroken free key home table) (h : First free key home table (key a) k)
    (hb : table[(home (key a) + k) % table.length]? = some b) (hfree : free b) :
    Unbroken free key home (table.set ((home (key a) + k) % table.length) a) := by
  intro i c hc hused
  rw [List.length_set]
  by_cases hi : (home (key a) + k) % table.length = i
  · rw [hi] at hb
    rw [hi, List.getElem?_set_self (List.getElem?_eq_some_iff.mp hb).1, Option.some_inj] at hc
    subst hc
    refine ⟨k, h.lt, hi, fun j hj => ?_⟩
    rw [hi]
    exact (h.before j hj).set hb hfree
  · rw [List.getElem?_set_ne hi] at hc
    obtain ⟨m, hm, hstep, hpasses⟩ := hunbroken i c hc hused
    exact ⟨m, hm, hstep, fun j hj => (hpasses j hj).set hb hfree⟩

/-! ## Slots in use -/

theorem exists_free {used : α → Bool} (hused : ∀ a, used a = true ↔ ¬ free a) (h : table.countP used < table.length) :
    ∃ a ∈ table, free a := by
  by_contra hnot
  apply absurd (List.countP_eq_length.mpr fun a ha => (hused a).mpr fun hfree => hnot ⟨a, ha, hfree⟩)
  exact Nat.ne_of_lt h

theorem countP_set_le {used : α → Bool} (i : Nat) (a : α) : (table.set i a).countP used ≤ table.countP used + 1 := by
  by_cases hi : i < table.length
  · rw [List.countP_set hi]
    split <;> split <;> omega
  · rw [List.set_eq_of_length_le (Nat.le_of_not_lt hi)]
    exact Nat.le_succ _

end Probing
