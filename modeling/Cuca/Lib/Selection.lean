import Mathlib.Data.List.Basic
import Mathlib.Data.List.Induction

/-!
# Scans for an extreme element

`maxBy cmp` scans a list and moves to the next element unless the one it holds is greater: of several greatest elements
it answers the last. `firstLeast lt` moves on only to an element that is less: of several least elements it answers the first.

* `maxBy_mem` : it answers an element;
* `maxBy_ge` : no element is greater, for a transitive comparison;
* `StrictWeak` : the comparisons whose incomparable elements form classes;
* `firstLeast_split` : the first element that none is less than.
-/

namespace Selection

variable {α : Type*} (cmp : α → α → Ordering)

def scanMax (best : α) (xs : List α) : α := xs.foldl (fun best y => if cmp best y = .gt then best else y) best

def maxBy : List α → Option α
  | [] => none
  | x :: xs => some (scanMax cmp x xs)

variable {cmp}

theorem scanMax_mem (best : α) (xs : List α) : scanMax cmp best xs ∈ best :: xs := by
  induction xs generalizing best with
  | nil => simp [scanMax]
  | cons x xs ih =>
    have h := ih (if cmp best x = .gt then best else x)
    rw [scanMax, List.foldl_cons]
    rcases List.mem_cons.mp h with heq | hmem
    · rw [scanMax] at heq
      rw [heq]
      split_ifs <;> simp
    · exact List.mem_cons_of_mem _ (List.mem_cons_of_mem _ hmem)

theorem scanMax_ge [Std.TransCmp cmp] (best : α) (xs : List α) :
    ∀ y ∈ best :: xs, (cmp y (scanMax cmp best xs)).isLE = true := by
  induction xs generalizing best with
  | nil =>
    intro y hy
    obtain rfl : y = best := by simpa using hy
    exact Std.ReflCmp.isLE_rfl
  | cons x xs ih =>
    intro y hy
    rw [scanMax, List.foldl_cons]
    have h := ih (if cmp best x = .gt then best else x)
    have hhead := h _ List.mem_cons_self
    -- what the scan moves to is not smaller than either of the two it compares
    have hstep : (cmp best (if cmp best x = .gt then best else x)).isLE = true ∧
        (cmp x (if cmp best x = .gt then best else x)).isLE = true := by
      split_ifs with hgt
      · exact ⟨Std.ReflCmp.isLE_rfl, Ordering.isLE_of_eq_lt (Std.OrientedCmp.lt_of_gt hgt)⟩
      · exact ⟨Ordering.ne_gt_iff_isLE.mp hgt, Std.ReflCmp.isLE_rfl⟩
    rcases List.mem_cons.mp hy with rfl | hy
    · exact Std.TransCmp.isLE_trans hstep.1 hhead
    · rcases List.mem_cons.mp hy with rfl | hy
      · exact Std.TransCmp.isLE_trans hstep.2 hhead
      · exact h y (List.mem_cons_of_mem _ hy)

theorem maxBy_mem {xs : List α} {m : α} (h : maxBy cmp xs = some m) : m ∈ xs := by
  cases xs with
  | nil => cases h
  | cons x xs =>
    obtain rfl := Option.some.inj h
    exact scanMax_mem x xs

theorem maxBy_ge [Std.TransCmp cmp] {xs : List α} {m y : α} (h : maxBy cmp xs = some m) (hy : y ∈ xs) :
    (cmp y m).isLE = true := by
  cases xs with
  | nil => cases h
  | cons x xs =>
    obtain rfl := Option.some.inj h
    exact scanMax_ge x xs y hy

@[simp] theorem maxBy_eq_none_iff {xs : List α} : maxBy cmp xs = none ↔ xs = [] := by
  cases xs <;> simp [maxBy]

/-! ## The first of the least -/

/-- A strict weak order: what is incomparable forms classes. -/
structure StrictWeak (lt : α → α → Bool) : Prop where
  irrefl : ∀ a, lt a a = false
  trans : ∀ a b c, lt a b = true → lt b c = true → lt a c = true
  incomparable : ∀ a b c, lt a b = false → lt b a = false → lt b c = false → lt c b = false → lt a c = false ∧ lt c a = false

theorem StrictWeak.between {lt : α → α → Bool} (h : StrictWeak lt) {a c : α} (hac : lt a c = true) (b : α) :
    lt a b = true ∨ lt b c = true := by
  by_contra hnot
  obtain ⟨hab, hbc⟩ := not_or.mp hnot
  have hab : lt a b = false := by simpa using hab
  have hbc : lt b c = false := by simpa using hbc
  have hba : lt b a = false := by
    by_contra hlt
    exact absurd (h.trans b a c (by simpa using hlt) hac) (by simp [hbc])
  have hcb : lt c b = false := by
    by_contra hlt
    exact absurd (h.trans a c b hac (by simpa using hlt)) (by simp [hab])
  have hnone := (h.incomparable a b c hab hba hbc hcb).1
  rw [hac] at hnone
  exact nomatch hnone

/-- One element of the scan. -/
def keepLeast (lt : α → α → Bool) (best : Option α) (x : α) : Option α :=
  match best with
  | none => some x
  | some least => if lt x least then some x else best

def firstLeast (lt : α → α → Bool) (xs : List α) : Option α := xs.foldl (keepLeast lt) none

theorem firstLeast_concat (lt : α → α → Bool) (xs : List α) (x : α) :
    firstLeast lt (xs ++ [x]) = keepLeast lt (firstLeast lt xs) x := List.foldl_concat ..

theorem firstLeast_eq_none_iff {lt : α → α → Bool} {xs : List α} : firstLeast lt xs = none ↔ xs = [] := by
  obtain rfl | ⟨xs, x, rfl⟩ := List.eq_nil_or_concat xs
  · exact ⟨fun _ => rfl, fun _ => rfl⟩
  · rw [List.concat_eq_append, firstLeast_concat]
    unfold keepLeast
    split
    · simp
    · rename_i least hleast
      split <;> simp [hleast]

theorem firstLeast_mem {lt : α → α → Bool} {xs : List α} {least : α} (h : firstLeast lt xs = some least) : least ∈ xs := by
  induction xs using List.reverseRecOn with
  | nil => exact nomatch h
  | append_singleton xs x ih =>
    rw [firstLeast_concat] at h
    unfold keepLeast at h
    split at h
    · exact List.mem_append_right _ (List.mem_singleton.mpr (Option.some.inj h).symm)
    · split at h
      · exact List.mem_append_right _ (List.mem_singleton.mpr (Option.some.inj h).symm)
      · exact List.mem_append_left _ (ih h)

/-- **The scan answers the first least element**: it is less than all before it, and nothing after it is less. -/
theorem firstLeast_split {lt : α → α → Bool} (h : StrictWeak lt) {xs : List α} {least : α} (hleast : firstLeast lt xs = some least) :
    ∃ before after, xs = before ++ least :: after ∧ (∀ x ∈ before, lt least x = true) ∧ ∀ x ∈ after, lt x least = false := by
  induction xs using List.reverseRecOn generalizing least with
  | nil => exact nomatch hleast
  | append_singleton xs x ih =>
    rw [firstLeast_concat] at hleast
    cases hbest : firstLeast lt xs with
    | none =>
      rw [hbest] at hleast
      obtain rfl : x = least := Option.some.inj hleast
      obtain rfl := firstLeast_eq_none_iff.mp hbest
      exact ⟨[], [], rfl, fun y hy => (nomatch hy), fun y hy => (nomatch hy)⟩
    | some best =>
      obtain ⟨before, after, rfl, hbefore, hafter⟩ := ih hbest
      rw [hbest] at hleast
      unfold keepLeast at hleast
      dsimp only at hleast
      split at hleast
      · rename_i hlt
        obtain rfl : x = least := Option.some.inj hleast
        refine ⟨before ++ best :: after, [], by simp, fun y hy => ?_, fun y hy => (nomatch hy)⟩
        obtain hy | hy := List.mem_append.mp hy
        · exact h.trans x best y hlt (hbefore y hy)
        · obtain rfl | hy := List.mem_cons.mp hy
          · exact hlt
          · -- nothing after the best one is below it, and the new one is
            obtain hxy | hyb := h.between hlt y
            · exact hxy
            · exact absurd hyb (by simp [hafter y hy])
      · rename_i hnot
        obtain rfl : best = least := Option.some.inj hleast
        refine ⟨before, after ++ [x], by simp, hbefore, fun y hy => ?_⟩
        obtain hy | hy := List.mem_append.mp hy
        · exact hafter y hy
        · obtain rfl := List.mem_singleton.mp hy
          simpa using hnot

end Selection
