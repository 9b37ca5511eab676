import Mathlib.Data.List.Count
import Mathlib.Data.List.Infix

/-!
# Histories

A history is a list of events, oldest first; what an event has to meet may depend on the events before it.

* `Every P` : each event meets `P`, given those before it;
* `Since P` : some beginning of the history meets `P`;
* `countP_le_of_every` : a bound that each event keeps is one on the history;
* `record` : the events of a run, and `every_record`;
* `Before` : an element stands somewhere before another one;
* `before_append`, `before_concat`, `before_reverse` : in lists that are put together and turned round;
* `before_flatten` : within one of several lists, or in two of them.
-/

namespace History

variable {α : Type*}

def Every (P : List α → α → Prop) (history : List α) : Prop :=
  ∀ before event after, history = before ++ event :: after → P before event

/-- A beginning of the history meets `P`. -/
def Since (P : List α → Prop) (history : List α) : Prop := ∃ early, early <+: history ∧ P early

section
variable {P : List α → α → Prop} {history : List α}

theorem every_nil : Every P [] := fun _ _ _ h => absurd h (by simp)

theorem every_concat_iff {event : α} : Every P (history ++ [event]) ↔ Every P history ∧ P history event := by
  constructor
  · intro h
    refine ⟨fun before e after heq => h before e (after ++ [event]) ?_, h history event [] rfl⟩
    rw [heq, List.append_assoc, List.cons_append]
  · rintro ⟨hall, hlast⟩ before e after heq
    rcases List.eq_nil_or_concat after with hnil | ⟨more, last, hmore⟩
    · rw [hnil] at heq
      obtain ⟨hbefore, hevent⟩ := List.append_inj' heq rfl
      rw [← hbefore, ← List.singleton_inj.mp hevent]
      exact hlast
    · rw [hmore, List.concat_eq_append, ← List.cons_append, ← List.append_assoc] at heq
      exact hall before e more (List.append_inj' heq rfl).1

theorem every_concat {event : α} (h : Every P history) (hlast : P history event) : Every P (history ++ [event]) :=
  every_concat_iff.mpr ⟨h, hlast⟩

theorem countP_le_of_every {p : α → Bool} {n : Nat} (h : Every (fun before event => p event → before.countP p < n) history) :
    history.countP p ≤ n := by
  induction history using List.reverseRecOn with
  | nil => exact Nat.zero_le n
  | append_singleton history event ih =>
    obtain ⟨hall, hlast⟩ := every_concat_iff.mp h
    rw [List.countP_append, List.countP_singleton]
    by_cases hp : p event = true
    · rw [if_pos hp]
      exact hlast hp
    · rw [if_neg hp]
      exact ih hall

end

section
variable {P : List α → Prop} {history : List α}

theorem since_concat_iff {event : α} : Since P (history ++ [event]) ↔ Since P history ∨ P (history ++ [event]) := by
  constructor
  · rintro ⟨early, hearly, hP⟩
    rcases List.prefix_concat_iff.mp hearly with heq | hshort
    · exact .inr (heq ▸ hP)
    · exact .inl ⟨early, hshort, hP⟩
  · rintro (⟨early, hearly, hP⟩ | hP)
    · exact ⟨early, hearly.trans (List.prefix_append _ _), hP⟩
    · exact ⟨_, List.prefix_rfl, hP⟩

end

/-! ## Runs -/

section
variable {σ W : Type*} (poll : σ → W → List α × σ × W)

/-- The events of a run: before each poll the world may change. -/
def record : σ → W → List (W → W) → List α
  | _, _, [] => []
  | s, w, change :: changes => (poll s (change w)).1 ++ record (poll s (change w)).2.1 (poll s (change w)).2.2 changes

variable {poll}

/-- **Runs**: if a poll adds only allowed events, and keeps what the history says of the state, so does a run. -/
theorem every_record {P : List α → α → Prop} {I : List α → σ → Prop}
    (hpoll : ∀ history s w, I history s → Every P history →
      Every P (history ++ (poll s w).1) ∧ I (history ++ (poll s w).1) (poll s w).2.1)
    {history : List α} {s : σ} (w : W) (changes : List (W → W)) (hI : I history s) (h : Every P history) :
    Every P (history ++ record poll s w changes) := by
  induction changes generalizing history s w with
  | nil =>
    rw [record, List.append_nil]
    exact h
  | cons change changes ih =>
    obtain ⟨hevery, hkept⟩ := hpoll history s (change w) hI h
    rw [record, ← List.append_assoc]
    exact ih (poll s (change w)).2.2 hkept hevery

end

end History

/-! ## What stands before what in a list -/

/-- `x` stands before `y`. -/
def Before {α : Type*} (xs : List α) (x y : α) : Prop := [x, y].Sublist xs

namespace Before
variable {α β : Type*} {x y : α}

theorem not_nil : ¬ Before [] x y := fun h => absurd h.length_le (by simp)

theorem right_mem {xs : List α} (h : Before xs x y) : y ∈ xs := h.subset (List.mem_cons_of_mem _ List.mem_cons_self)

theorem before_cons {z : α} {xs : List α} : Before (z :: xs) x y ↔ x = z ∧ y ∈ xs ∨ Before xs x y := by
  rw [Before, List.sublist_cons_iff]
  constructor
  · rintro (h | ⟨rest, heq, h⟩)
    · exact .inr h
    · obtain ⟨rfl, rfl⟩ := List.cons.inj heq
      exact .inl ⟨rfl, List.singleton_sublist.mp h⟩
  · rintro (⟨rfl, h⟩ | h)
    · exact .inr ⟨[y], rfl, List.singleton_sublist.mpr h⟩
    · exact .inl h

theorem before_append {xs ys : List α} : Before (xs ++ ys) x y ↔ Before xs x y ∨ (x ∈ xs ∧ y ∈ ys) ∨ Before ys x y := by
  induction xs with
  | nil =>
    rw [List.nil_append]
    exact ⟨fun h => .inr (.inr h), fun h => h.elim (absurd · not_nil) fun h => h.elim (fun h => absurd h.1 List.not_mem_nil) id⟩
  | cons z xs ih =>
    rw [List.cons_append, before_cons, ih, before_cons, List.mem_append, List.mem_cons]
    tauto

theorem before_concat {xs : List α} {z : α} : Before (xs ++ [z]) x y ↔ Before xs x y ∨ x ∈ xs ∧ y = z := by
  rw [before_append, List.mem_singleton, before_cons]
  simp only [List.not_mem_nil, and_false, not_nil, or_false]

theorem before_reverse {xs : List α} : Before xs.reverse x y ↔ Before xs y x := by
  rw [Before, Before, ← List.reverse_sublist, List.reverse_reverse]
  rfl

theorem before_flatten {xss : List (List α)} : Before xss.flatten x y ↔
    (∃ xs ∈ xss, Before xs x y) ∨ ∃ xs ys, Before xss xs ys ∧ x ∈ xs ∧ y ∈ ys := by
  induction xss with
  | nil =>
    refine iff_of_false not_nil ?_
    rintro (⟨_, h, _⟩ | ⟨_, _, h, _⟩)
    · exact absurd h List.not_mem_nil
    · exact absurd h not_nil
  | cons zs xss ih =>
    rw [List.flatten_cons, before_append, ih, List.mem_flatten]
    constructor
    · rintro (h | ⟨hx, ys, hys, hy⟩ | ⟨xs, hxs, h⟩ | ⟨xs, ys, h, hx, hy⟩)
      · exact .inl ⟨zs, List.mem_cons_self, h⟩
      · exact .inr ⟨zs, ys, before_cons.mpr (.inl ⟨rfl, hys⟩), hx, hy⟩
      · exact .inl ⟨xs, List.mem_cons_of_mem _ hxs, h⟩
      · exact .inr ⟨xs, ys, before_cons.mpr (.inr h), hx, hy⟩
    · rintro (⟨xs, hxs, h⟩ | ⟨xs, ys, h, hx, hy⟩)
      · rcases List.mem_cons.mp hxs with rfl | hxs
        · exact .inl h
        · exact .inr (.inr (.inl ⟨xs, hxs, h⟩))
      · rcases before_cons.mp h with ⟨rfl, hys⟩ | h
        · exact .inr (.inl ⟨hx, ys, hys, hy⟩)
        · exact .inr (.inr (.inr ⟨xs, ys, h, hx, hy⟩))

end Before
