import Cuca.Lib.Removal
import Mathlib.Data.List.Forall2

/-!
# Lists related element by element

`List.Forall₂ R xs ys`, for a relation `R` that says how an element may be edited.

* `refl`, `trans` : the preorder laws pass to lists;
* `set`, `modify`, `foldl` : one edit, and a loop of edits;
* `find?`, `latest`, `rposition` : the first and the last element of a kind, where an edit keeps the kind;
* `map_eq` : a view that no edit changes.
-/

namespace Pointwise
open List (Forall₂)
variable {α β : Type*} {R : α → α → Prop} {xs ys zs : List α}

theorem refl (hrefl : ∀ x, R x x) (xs : List α) : Forall₂ R xs xs := List.forall₂_same.mpr fun x _ => hrefl x

theorem trans (htrans : ∀ x y z, R x y → R y z → R x z) (hxy : Forall₂ R xs ys) (hyz : Forall₂ R ys zs) :
    Forall₂ R xs zs := by
  induction hxy generalizing zs with
  | nil => exact hyz
  | cons hhead _ ih =>
    obtain ⟨z, zs, hz, hrest, rfl⟩ := List.forall₂_cons_left_iff.mp hyz
    exact .cons (htrans _ _ _ hhead hz) (ih hrest)

theorem set {R : α → β → Prop} {ys : List β} (h : Forall₂ R xs ys) {i : Nat} {x : α} (hx : xs[i]? = some x) {y : β}
    (hy : R x y) : Forall₂ R xs (ys.set i y) := by
  induction h generalizing i with
  | nil => cases hx
  | cons hfirst hrest ih =>
    rcases i with _ | i
    · obtain rfl := Option.some.inj hx
      exact .cons hy hrest
    · exact .cons hfirst (ih hx)

theorem getElem? {R : α → β → Prop} {ys : List β} (h : Forall₂ R xs ys) {i : Nat} {y : β} (hy : ys[i]? = some y) :
    ∃ x, xs[i]? = some x ∧ R x y := by
  induction h generalizing i with
  | nil => simp at hy
  | cons hhead _ ih =>
    rcases i with _ | i
    · obtain rfl : _ = y := by simpa using hy
      exact ⟨_, rfl, hhead⟩
    · exact ih (by simpa using hy)

theorem modify (hrefl : ∀ x, R x x) {i : Nat} {f : α → α} (h : ∀ x, xs[i]? = some x → R x (f x)) :
    Forall₂ R xs (xs.modify i f) := by
  induction xs generalizing i with
  | nil => simp
  | cons x xs ih =>
    rcases i with _ | i
    · rw [List.modify_zero_cons]
      exact .cons (h x rfl) (refl hrefl xs)
    · rw [List.modify_succ_cons]
      exact .cons (hrefl x) (ih fun y hy => h y (by simpa using hy))

theorem foldl {σ : Type*} (hrefl : ∀ x, R x x) (htrans : ∀ x y z, R x y → R y z → R x z) (view : σ → List α)
    {step : σ → β → σ} {bs : List β} (s : σ)
    (hstep : ∀ t, Forall₂ R (view s) (view t) → ∀ b ∈ bs, Forall₂ R (view t) (view (step t b))) :
    Forall₂ R (view s) (view (bs.foldl step s)) := by
  suffices h : ∀ t, Forall₂ R (view s) (view t) → Forall₂ R (view s) (view (bs.foldl step t)) from
    h s (refl hrefl _)
  induction bs with
  | nil => exact fun t ht => ht
  | cons b bs ih =>
    intro t ht
    have hnext := trans htrans ht (hstep t ht b List.mem_cons_self)
    exact ih (fun t' ht' b' hb' => hstep t' ht' b' (List.mem_cons_of_mem _ hb')) _ hnext

theorem exists_mem {q : α → Prop} (hview : ∀ x y, R x y → q x → q y) (h : Forall₂ R xs ys) (hx : ∃ x ∈ xs, q x) :
    ∃ y ∈ ys, q y := by
  obtain ⟨x, hmem, hq⟩ := hx
  obtain ⟨i, hi⟩ := List.mem_iff_getElem?.mp hmem
  obtain ⟨hlt, rfl⟩ := List.getElem?_eq_some_iff.mp hi
  have hlt' : i < ys.length := h.length_eq ▸ hlt
  obtain ⟨x, hx, hrel⟩ := getElem? h (List.getElem?_eq_getElem hlt')
  obtain rfl := Option.some.inj (hi.symm.trans hx)
  exact ⟨ys[i], List.getElem_mem hlt', hview _ _ hrel hq⟩

section
variable {p : α → Bool} (hkind : ∀ x y, R x y → p y = p x)
include hkind

theorem find? (h : Forall₂ R xs ys) {x : α} (hx : xs.find? p = some x) : ∃ y, ys.find? p = some y ∧ R x y := by
  induction h with
  | nil => cases hx
  | cons hhead _ ih =>
    rw [List.find?_cons] at hx ⊢
    rw [hkind _ _ hhead]
    split at hx
    case h_1 =>
      obtain rfl := Option.some.inj hx
      exact ⟨_, rfl, hhead⟩
    case h_2 => exact ih hx

theorem latest (h : Forall₂ R xs ys) : Option.Rel R (Removal.latest p xs) (Removal.latest p ys) := by
  induction h with
  | nil => exact .none
  | @cons x y xs ys hhead _ ih =>
    rw [Removal.latest, Removal.latest, hkind _ _ hhead]
    generalize Removal.latest p xs = left, Removal.latest p ys = right at ih ⊢
    rcases ih with ih | _
    · exact .some ih
    · split
      · exact .some hhead
      · exact .none

theorem rposition (h : Forall₂ R xs ys) : Removal.rposition p ys = Removal.rposition p xs := by
  induction h with
  | nil => rfl
  | cons hhead _ ih => rw [Removal.rposition, Removal.rposition, hkind _ _ hhead, ih]

end

theorem and {R : α → β → Prop} {S : α → β → Prop} {ys : List β} (hR : Forall₂ R xs ys) (hS : Forall₂ S xs ys) :
    Forall₂ (fun x y => R x y ∧ S x y) xs ys := by
  induction hR with
  | nil => exact .nil
  | cons hhead _ ih =>
    obtain ⟨hheadS, hrestS⟩ := List.forall₂_cons.mp hS
    exact .cons ⟨hhead, hheadS⟩ (ih hrestS)

theorem exists_forall₂ {R : α → β → Prop} : (∃ ys, Forall₂ R xs ys) ↔ ∀ x ∈ xs, ∃ y, R x y := by
  induction xs with
  | nil => exact iff_of_true ⟨[], .nil⟩ fun _ hx => absurd hx List.not_mem_nil
  | cons x xs ih =>
    rw [List.forall_mem_cons, ← ih]
    constructor
    · rintro ⟨ys, h⟩
      obtain ⟨y, ys, hy, hys, rfl⟩ := List.forall₂_cons_left_iff.mp h
      exact ⟨⟨y, hy⟩, ys, hys⟩
    · rintro ⟨⟨y, hy⟩, ys, hys⟩
      exact ⟨y :: ys, .cons hy hys⟩

theorem mapM_eq_some {γ : Type*} {f : α → Option γ} {zs : List γ} :
    xs.mapM f = some zs ↔ Forall₂ (fun x z => f x = some z) xs zs := by
  induction xs generalizing zs with
  | nil => rw [List.mapM_nil, List.forall₂_nil_left_iff, Option.pure_def, Option.some_inj, eq_comm]
  | cons x xs ih =>
    rw [List.mapM_cons, List.forall₂_cons_left_iff]
    simp only [Option.bind_eq_bind, Option.bind_eq_some_iff, Option.pure_def, Option.some_inj, ih]
    constructor
    · rintro ⟨z, hz, zs', hzs', rfl⟩
      exact ⟨z, zs', hz, hzs', rfl⟩
    · rintro ⟨z, zs', hz, hzs', rfl⟩
      exact ⟨z, hz, zs', hzs', rfl⟩

theorem mapM_map_eq_some {γ δ : Type*} {f : α → β} {g : β → Option γ} {k : γ → δ} {ys : List δ} :
    (∃ zs, (xs.map f).mapM g = some zs ∧ zs.map k = ys) ↔ Forall₂ (fun x y => (g (f x)).map k = some y) xs ys := by
  simp only [mapM_eq_some, List.forall₂_map_left_iff, Option.map_eq_some_iff]
  induction xs generalizing ys with
  | nil => simp [eq_comm]
  | cons x xs ih =>
    simp only [List.forall₂_cons_left_iff, ← ih]
    constructor
    · rintro ⟨_, ⟨z, zs, hz, hzs, rfl⟩, rfl⟩
      exact ⟨k z, _, ⟨z, hz, rfl⟩, ⟨zs, hzs, rfl⟩, rfl⟩
    · rintro ⟨_, _, ⟨z, hz, rfl⟩, ⟨zs, hzs, rfl⟩, rfl⟩
      exact ⟨_, ⟨z, zs, hz, hzs, rfl⟩, rfl⟩

theorem map_eq (f : α → β) (hview : ∀ x y, R x y → f y = f x) (h : Forall₂ R xs ys) : ys.map f = xs.map f := by
  induction h with
  | nil => rfl
  | cons hhead _ ih => rw [List.map_cons, List.map_cons, hview _ _ hhead, ih]

end Pointwise
