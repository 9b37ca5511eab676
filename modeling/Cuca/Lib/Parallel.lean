import Mathlib.Algebra.GroupWithZero.Nat
import Mathlib.Data.List.Basic
import Mathlib.Data.List.Iterate

/-!
# Threads between barriers

Threads share memory, cell by cell. Between two barriers every thread reads what it needs and then writes its own cells, in any interleaving
with the others.

* `Phase`, `step`, `run` : what threads do between two barriers, and a schedule of it;
* `Independent` : no thread reads what another writes;
* `run_eq` : then every schedule gives what `together` gives, all threads at once;
* `Runs`, `runs_iff` : phase after phase, and `rounds` of all threads;
* `tree`, `tree_best` : a reduction in halves finds a best element.
-/

namespace Parallel

variable {C : Type} {V : C → Type}

abbrev Memory (V : C → Type) := (c : C) → V c

/-- The cells that a thread writes, and the values it computes of what it reads. -/
structure Phase (V : C → Type) where
  owns : Nat → C → Bool
  act : Nat → Memory V → Memory V

/-- A thread has not read yet, holds what it will write, or is at the barrier. -/
inductive Stage (V : C → Type) where
  | idle
  | held (values : Memory V)
  | done

structure State (V : C → Type) where
  mem : Memory V
  stage : Nat → Stage V

variable (p : Phase V)

def step (s : State V) (t : Nat) : State V :=
  match s.stage t with
  | .idle => { s with stage := fun t' => if t' = t then .held (p.act t s.mem) else s.stage t' }
  | .held values =>
    { mem := fun c => if p.owns t c then values c else s.mem c, stage := fun t' => if t' = t then .done else s.stage t' }
  | .done => s

def run (s : State V) (schedule : List Nat) : State V := schedule.foldl (step p) s

def start (mem : Memory V) : State V := ⟨mem, fun _ => .idle⟩

/-- All threads at once. -/
def together (dim : Nat) (mem : Memory V) : Memory V := fun c =>
  match (List.range dim).find? fun t => p.owns t c with
  | none => mem c
  | some t => p.act t mem c

/-- No two threads write a cell, and what a thread writes does not depend on what the others write. -/
structure Independent (dim : Nat) : Prop where
  disjoint : ∀ t < dim, ∀ t' < dim, ∀ c, p.owns t c = true → p.owns t' c = true → t = t'
  apart : ∀ t < dim, ∀ mem mem' : Memory V, (∀ c, (∀ t' < dim, t' ≠ t → p.owns t' c = false) → mem c = mem' c) →
    ∀ c, p.owns t c = true → p.act t mem c = p.act t mem' c

theorem Independent.single {p : Phase V} {dim : Nat} (h : ∀ t c, p.owns t c = true → t = 0) : Independent p dim where
  disjoint t _ t' _ c hc hc' := (h t c hc).trans (h t' c hc').symm
  apart t _ mem mem' hmem c hc := by
    have hzero := h t c hc
    have heq : mem = mem' := by
      funext c'
      refine hmem c' fun t' _ hne => ?_
      refine eq_false_of_ne_true fun hown => hne ?_
      rw [h t' c' hown, hzero]
    rw [heq]

/-- A schedule of the threads that brings them all to the barrier. -/
structure Complete (dim : Nat) (mem : Memory V) (schedule : List Nat) : Prop where
  threads : ∀ t ∈ schedule, t < dim
  done : ∀ t < dim, (run p (start mem) schedule).stage t = .done

/-- Owned cells are written by threads that are done; what a thread holds is what it computes of the memory before. -/
structure Inv (dim : Nat) (mem : Memory V) (s : State V) : Prop where
  written : ∀ t < dim, s.stage t = .done → ∀ c, p.owns t c = true → s.mem c = p.act t mem c
  kept : ∀ t < dim, s.stage t ≠ .done → ∀ c, p.owns t c = true → s.mem c = mem c
  holds : ∀ t < dim, ∀ values, s.stage t = .held values → ∀ c, p.owns t c = true → values c = p.act t mem c
  other : ∀ c, (∀ t < dim, p.owns t c = false) → s.mem c = mem c

variable {p} {dim : Nat} {mem mem' : Memory V}

theorem inv_start : Inv p dim mem (start mem) where
  written t _ h := by simp [start] at h
  kept t _ _ c _ := rfl
  holds t _ values h := by simp [start] at h
  other c _ := rfl

theorem step_inv (hp : Independent p dim) {s : State V} (h : Inv p dim mem s) {t : Nat} (ht : t < dim) : Inv p dim mem (step p s t) := by
  unfold step
  rcases hstage : s.stage t with _ | values | _
  · -- what the thread reads is as it was, as nobody else writes it
    have hread : ∀ c, p.owns t c = true → p.act t s.mem c = p.act t mem c := by
      refine hp.apart t ht s.mem mem fun c hc => ?_
      by_cases hown : p.owns t c = true
      · exact h.kept t ht (by rw [hstage]; simp) c hown
      · refine h.other c fun t' ht' => ?_
        by_cases heq : t' = t
        · rw [heq]
          exact eq_false_of_ne_true hown
        · exact hc t' ht' heq
    refine ⟨fun t' ht' hdone => ?_, fun t' ht' hdone => ?_, fun t' ht' values hheld => ?_, h.other⟩
    · dsimp only at hdone
      split at hdone
      · simp at hdone
      · exact h.written t' ht' hdone
    · by_cases heq : t' = t
      · rw [heq]
        exact h.kept t ht (by rw [hstage]; simp)
      · dsimp only at hdone
        rw [if_neg heq] at hdone
        exact h.kept t' ht' hdone
    · dsimp only at hheld
      by_cases heq : t' = t
      · rw [if_pos heq] at hheld
        rw [← Stage.held.inj hheld, heq]
        exact hread
      · rw [if_neg heq] at hheld
        exact h.holds t' ht' values hheld
  · have hvalues := h.holds t ht values hstage
    have hframe {t' : Nat} (ht' : t' < dim) (hne : t' ≠ t) {c : C} (hc : p.owns t' c = true) : ¬p.owns t c = true := fun hown =>
      hne (hp.disjoint t' ht' t ht c hc hown)
    refine ⟨fun t' ht' hdone c hc => ?_, fun t' ht' hdone c hc => ?_, fun t' ht' values' hheld => ?_, fun c hc => ?_⟩
    · dsimp only
      by_cases heq : t' = t
      · subst heq
        rw [if_pos hc]
        exact hvalues c hc
      · dsimp only at hdone
        rw [if_neg heq] at hdone
        rw [if_neg (hframe ht' heq hc)]
        exact h.written t' ht' hdone c hc
    · dsimp only at hdone ⊢
      by_cases heq : t' = t
      · rw [if_pos heq] at hdone
        exact absurd rfl hdone
      · rw [if_neg heq] at hdone
        rw [if_neg (hframe ht' heq hc)]
        exact h.kept t' ht' hdone c hc
    · dsimp only at hheld
      split at hheld
      · simp at hheld
      · exact h.holds t' ht' values' hheld
    · dsimp only
      rw [if_neg (by rw [hc t ht]; simp)]
      exact h.other c hc
  · exact h

theorem run_inv (hp : Independent p dim) {s : State V} (h : Inv p dim mem s) {schedule : List Nat} (hthreads : ∀ t ∈ schedule, t < dim) :
    Inv p dim mem (run p s schedule) := by
  induction schedule generalizing s with
  | nil => exact h
  | cons t schedule ih =>
    exact ih (step_inv hp h (hthreads t List.mem_cons_self)) fun t' ht' => hthreads t' (List.mem_cons_of_mem t ht')

/-! ## All at once -/

theorem together_owned (hp : Independent p dim) {t : Nat} (ht : t < dim) {c : C} (hc : p.owns t c = true) :
    together p dim mem c = p.act t mem c := by
  unfold together
  rcases hfind : (List.range dim).find? fun t => p.owns t c with _ | t'
  · have hnone := List.find?_eq_none.mp hfind t (List.mem_range.mpr ht)
    exact absurd hc hnone
  · have hown : p.owns t' c = true := by simpa using List.find?_some hfind
    rw [hp.disjoint t' (List.mem_range.mp (List.mem_of_find?_eq_some hfind)) t ht c hown hc]

theorem together_other {c : C} (hc : ∀ t < dim, p.owns t c = false) : together p dim mem c = mem c := by
  unfold together
  have hnone : ((List.range dim).find? fun t => p.owns t c) = none := by
    rw [List.find?_eq_none]
    intro t ht
    rw [hc t (List.mem_range.mp ht)]
    exact Bool.false_ne_true
  rw [hnone]

/-- **Every schedule** that brings all threads to the barrier gives the same memory. -/
theorem run_eq (hp : Independent p dim) {schedule : List Nat} (h : Complete p dim mem schedule) :
    (run p (start mem) schedule).mem = together p dim mem := by
  have hinv := run_inv hp (inv_start : Inv p dim mem (start mem)) h.threads
  funext c
  by_cases hc : ∃ t < dim, p.owns t c = true
  · obtain ⟨t, ht, hown⟩ := hc
    rw [hinv.written t ht (h.done t ht) c hown, together_owned hp ht hown]
  · have hnone (t : Nat) (ht : t < dim) : p.owns t c = false := eq_false_of_ne_true fun hown => hc ⟨t, ht, hown⟩
    rw [hinv.other c hnone, together_other hnone]

theorem exists_complete (p : Phase V) (dim : Nat) (mem : Memory V) : ∃ schedule, Complete p dim mem schedule := by
  induction dim with
  | zero => exact ⟨[], ⟨fun t ht => absurd ht List.not_mem_nil, fun t ht => absurd ht (Nat.not_lt_zero t)⟩⟩
  | succ dim ih =>
    obtain ⟨schedule, hthreads, hdone⟩ := ih
    have hnew {s : State V} : ((step p (step p (step p s dim) dim) dim).stage dim = .done) ∧
        ∀ t, t ≠ dim → (step p (step p (step p s dim) dim) dim).stage t = s.stage t := by
      rcases hstage : s.stage dim with _ | values | _
      · refine ⟨by simp [step, hstage], fun t ht => by simp [step, hstage, ht]⟩
      · refine ⟨by simp [step, hstage], fun t ht => by simp [step, hstage, ht]⟩
      · refine ⟨by simp [step, hstage], fun t _ => by simp [step, hstage]⟩
    refine ⟨schedule ++ [dim, dim, dim], ⟨fun t ht => ?_, fun t ht => ?_⟩⟩
    · rcases List.mem_append.mp ht with ht | ht
      · exact Nat.lt_succ_of_lt (hthreads t ht)
      · simp at ht
        omega
    · unfold run
      rw [List.foldl_append]
      by_cases heq : t = dim
      · rw [heq]
        exact hnew.1
      · exact (hnew.2 t heq).trans (hdone t (by omega))

/-! ## Phase after phase -/

def rounds (dim : Nat) (ps : List (Phase V)) (mem : Memory V) : Memory V := ps.foldl (fun mem p => together p dim mem) mem

theorem rounds_cons (p : Phase V) (ps : List (Phase V)) (mem : Memory V) : rounds dim (p :: ps) mem = rounds dim ps (together p dim mem) := rfl

theorem rounds_append (ps ps' : List (Phase V)) (mem : Memory V) : rounds dim (ps ++ ps') mem = rounds dim ps' (rounds dim ps mem) :=
  List.foldl_append

theorem rounds_other {ps : List (Phase V)} {c : C} (hc : ∀ p ∈ ps, ∀ t < dim, p.owns t c = false) : rounds dim ps mem c = mem c := by
  induction ps generalizing mem with
  | nil => rfl
  | cons p ps ih =>
    rw [rounds_cons, ih fun p' hp' => hc p' (List.mem_cons_of_mem p hp'), together_other (hc p List.mem_cons_self)]

inductive Runs (dim : Nat) : List (Phase V) → Memory V → Memory V → Prop
  | nil {mem : Memory V} : Runs dim [] mem mem
  | cons {p : Phase V} {ps : List (Phase V)} {mem mem' : Memory V} {schedule : List Nat} : Complete p dim mem schedule →
      Runs dim ps (run p (start mem) schedule).mem mem' → Runs dim (p :: ps) mem mem'

/-- **Phases of independent threads** give one memory, whatever the schedules. -/
theorem runs_iff {ps : List (Phase V)} (hps : ∀ p ∈ ps, Independent p dim) :
    Runs dim ps mem mem' ↔ mem' = rounds dim ps mem := by
  induction ps generalizing mem with
  | nil =>
    constructor
    · intro h
      cases h
      rfl
    · intro h
      rw [h]
      exact .nil
  | cons p ps ih =>
    have hp := hps p List.mem_cons_self
    have hrest := fun p' hp' => hps p' (List.mem_cons_of_mem p hp')
    rw [rounds_cons]
    constructor
    · intro h
      cases h with
      | cons hcomplete hruns =>
        rw [run_eq hp hcomplete] at hruns
        exact (ih hrest).mp hruns
    · intro h
      obtain ⟨schedule, hcomplete⟩ := exists_complete p dim mem
      refine .cons hcomplete ?_
      rw [run_eq hp hcomplete]
      exact (ih hrest).mpr h

/-! ## Reductions -/

section
variable {α : Type} (le : α → α → Prop) (pick : α → α → α)

/-- One of the first `n`, and no worse than any of them. -/
def Best (f : Nat → α) (n : Nat) (x : α) : Prop := (∃ i < n, x = f i) ∧ ∀ i < n, le (f i) x

def treeStep (f : Nat → α) (s : Nat) : Nat → α := fun t => if t < s then pick (f t) (f (t + s)) else f t

def sizes (dim steps : Nat) : List Nat := List.iterate (· / 2) (dim / 2) steps

def tree (dim steps : Nat) (f : Nat → α) : Nat → α := (sizes dim steps).foldl (treeStep pick) f

theorem sizes_succ (steps : Nat) : sizes (2 ^ (steps + 1)) (steps + 1) = 2 ^ steps :: sizes (2 ^ steps) steps := by
  unfold sizes
  rw [List.iterate, Nat.pow_succ, Nat.mul_div_cancel _ (by decide)]

theorem le_of_mem_sizes {dim steps s : Nat} (h : s ∈ sizes dim steps) : s ≤ dim := by
  have hle (a steps : Nat) (h : s ∈ List.iterate (· / 2) a steps) : s ≤ a := by
    induction steps generalizing a with
    | zero => exact absurd h List.not_mem_nil
    | succ steps ih =>
      rw [List.iterate] at h
      rcases List.mem_cons.mp h with h | h
      · exact h.le
      · exact (ih (a / 2) h).trans (Nat.div_le_self a 2)
  exact (hle _ _ h).trans (Nat.div_le_self dim 2)

variable {le pick}

theorem rounds_tree {phase : Nat → Phase V} {view : Memory V → Nat → α}
    (hstep : ∀ s ≤ dim, ∀ mem, view (together (phase s) dim mem) = treeStep pick (view mem) s) (steps : Nat) (mem : Memory V) :
    view (rounds dim ((sizes dim steps).map phase) mem) = tree pick dim steps (view mem) := by
  have hsizes (s : Nat) (hs : s ∈ sizes dim steps) : s ≤ dim := le_of_mem_sizes hs
  unfold tree
  generalize sizes dim steps = ss at hsizes
  induction ss generalizing mem with
  | nil => rfl
  | cons s ss ih =>
    rw [List.map_cons, rounds_cons, ih _ fun s' hs' => hsizes s' (List.mem_cons_of_mem s hs'), hstep s (hsizes s List.mem_cons_self),
      List.foldl_cons]

theorem tree_best (htrans : ∀ x y z, le x y → le y z → le x z) (hpick : ∀ x y, (pick x y = x ∨ pick x y = y) ∧ le x (pick x y) ∧ le y (pick x y))
    (hrefl : ∀ x, le x x) (steps : Nat) (f : Nat → α) : Best le f (2 ^ steps) (tree pick (2 ^ steps) steps f 0) := by
  induction steps generalizing f with
  | zero =>
    refine ⟨⟨0, Nat.one_pos, rfl⟩, fun i hi => ?_⟩
    obtain rfl : i = 0 := by omega
    exact hrefl _
  | succ steps ih =>
    obtain ⟨⟨i, hi, heq⟩, hall⟩ := ih (treeStep pick f (2 ^ steps))
    have htree : tree pick (2 ^ (steps + 1)) (steps + 1) f 0 = tree pick (2 ^ steps) steps (treeStep pick f (2 ^ steps)) 0 := by
      unfold tree
      rw [sizes_succ]
      rfl
    have hhalf {j : Nat} (hj : j < 2 ^ steps) : treeStep pick f (2 ^ steps) j = pick (f j) (f (j + 2 ^ steps)) := if_pos hj
    rw [htree, Nat.pow_succ]
    refine ⟨?_, fun j hj => ?_⟩
    · rw [heq, hhalf hi]
      rcases (hpick (f i) (f (i + 2 ^ steps))).1 with h | h
      · exact ⟨i, by omega, h⟩
      · exact ⟨i + 2 ^ steps, by omega, h⟩
    · by_cases hlow : j < 2 ^ steps
      · exact htrans _ _ _ (hhalf hlow ▸ (hpick (f j) (f (j + 2 ^ steps))).2.1) (hall j hlow)
      · have hj' : j - 2 ^ steps < 2 ^ steps := by omega
        have hle := (hpick (f (j - 2 ^ steps)) (f (j - 2 ^ steps + 2 ^ steps))).2.2
        rw [← hhalf hj', Nat.sub_add_cancel (Nat.le_of_not_lt hlow)] at hle
        exact htrans _ _ _ hle (hall _ hj')

end

end Parallel
