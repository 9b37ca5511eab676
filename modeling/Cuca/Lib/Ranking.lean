import Mathlib.Data.List.Sort

/-!
# The first of a ranking

* `SliceSort` : partial selection and sorting by a comparison, as the standard library documents them;
* `sortBy` : the whole sort; `sorted_unique` : a comparison that tells the elements apart allows one sorted arrangement;
* `takeFirst` : the first `k`, by selection and a sort of what was selected;
* `selectNth_eq`, `takeFirst_eq` : they are the first of the whole sort.
-/

namespace Ranking
open Std

/-- `select_nth_unstable_by` and `sort_unstable_by`; `none` where the first one panics. -/
structure SliceSort (α : Type*) where
  selectNth : (α → α → Ordering) → List α → Nat → Option (List α)
  sort : (α → α → Ordering) → List α → List α
  /-- What stands at the index is no less than what stands before it, and no greater than what stands behind it. -/
  selects : ∀ (cmp : α → α → Ordering) [TransCmp cmp] {xs : List α} {index : Nat}, index < xs.length →
    ∃ before pivot behind, selectNth cmp xs index = some (before ++ pivot :: behind) ∧ before.length = index ∧
      (before ++ pivot :: behind).Perm xs ∧ (∀ x ∈ before, (cmp x pivot).isLE) ∧ ∀ y ∈ behind, (cmp pivot y).isLE
  sort_perm : ∀ (cmp : α → α → Ordering) [TransCmp cmp] (xs : List α), (sort cmp xs).Perm xs
  sorted : ∀ (cmp : α → α → Ordering) [TransCmp cmp] (xs : List α), (sort cmp xs).Pairwise fun x y => (cmp x y).isLE

section
variable {α : Type*} (cmp : α → α → Ordering)

def Distinguishes (xs : List α) : Prop := ∀ x ∈ xs, ∀ y ∈ xs, cmp x y = .eq → x = y

variable {cmp}

theorem eq_of_isLE [OrientedCmp cmp] {x y : α} (hxy : (cmp x y).isLE) (hyx : (cmp y x).isLE) : cmp x y = .eq := by
  have hswap : cmp x y = (cmp y x).swap := OrientedCmp.eq_swap
  cases h : cmp x y with
  | eq => rfl
  | gt =>
    rw [h] at hxy
    exact absurd hxy (by decide)
  | lt =>
    cases h' : cmp y x with
    | eq =>
      rw [h, h'] at hswap
      exact absurd hswap (by decide)
    | lt =>
      rw [h, h'] at hswap
      exact absurd hswap (by decide)
    | gt =>
      rw [h'] at hyx
      exact absurd hyx (by decide)

theorem sorted_unique [TransCmp cmp] {xs ys zs : List α} (h : Distinguishes cmp xs) (hys : ys.Perm xs) (hzs : zs.Perm xs)
    (hysorted : ys.Pairwise fun x y => (cmp x y).isLE) (hzsorted : zs.Pairwise fun x y => (cmp x y).isLE) : ys = zs := by
  have hanti : ∀ x y, x ∈ ys → y ∈ zs → (cmp x y).isLE → (cmp y x).isLE → x = y := by
    intro x y hx hy hxy hyx
    exact h x (hys.subset hx) y (hzs.subset hy) (eq_of_isLE hxy hyx)
  exact List.Perm.eq_of_pairwise hanti hysorted hzsorted (hys.trans hzs.symm)

variable (cmp)

def sortBy (xs : List α) : List α := xs.insertionSort fun x y => (cmp x y).isLE

theorem sortBy_perm (xs : List α) : (sortBy cmp xs).Perm xs := List.perm_insertionSort _ xs

theorem length_sortBy (xs : List α) : (sortBy cmp xs).length = xs.length := (sortBy_perm cmp xs).length_eq

theorem mem_sortBy {xs : List α} {x : α} : x ∈ sortBy cmp xs ↔ x ∈ xs := (sortBy_perm cmp xs).mem_iff

variable {cmp}

theorem sortBy_sorted [TransCmp cmp] (xs : List α) : (sortBy cmp xs).Pairwise fun x y => (cmp x y).isLE := by
  have htotal : Std.Total fun x y => (cmp x y).isLE = true := by
    constructor
    intro x y
    rw [show cmp x y = (cmp y x).swap from OrientedCmp.eq_swap]
    cases cmp y x with
    | lt => exact Or.inr rfl
    | eq => exact Or.inl rfl
    | gt => exact Or.inl rfl
  have htrans : IsTrans α fun x y => (cmp x y).isLE = true := ⟨fun _ _ _ hxy hyz => TransCmp.isLE_trans hxy hyz⟩
  exact List.pairwise_insertionSort _ xs

theorem sortBy_congr [TransCmp cmp] {xs ys : List α} (hdistinct : Distinguishes cmp ys) (h : xs.Perm ys) : sortBy cmp xs = sortBy cmp ys :=
  sorted_unique hdistinct ((sortBy_perm cmp xs).trans h) (sortBy_perm cmp ys) (sortBy_sorted xs) (sortBy_sorted ys)

theorem map_sortBy {β : Type*} {cmp' : β → β → Ordering} (f : α → β) {xs : List α}
    (h : ∀ x ∈ xs, ∀ y ∈ xs, cmp x y = cmp' (f x) (f y)) : (sortBy cmp xs).map f = sortBy cmp' (xs.map f) := by
  apply List.map_insertionSort
  intro x hx y hy
  rw [h x hx y hy]

theorem head?_sortBy [TransCmp cmp] {xs : List α} {x : α} (h : Distinguishes cmp xs) (hx : x ∈ xs)
    (hfirst : ∀ y ∈ xs, (cmp x y).isLE) : (sortBy cmp xs).head? = some x := by
  have hsorted : (sortBy cmp xs).Pairwise fun x y => (cmp x y).isLE := sortBy_sorted xs
  rcases hsort : sortBy cmp xs with _ | ⟨y, ys⟩
  · have hmem := (mem_sortBy cmp).mpr hx
    rw [hsort] at hmem
    exact absurd hmem List.not_mem_nil
  · have hy : y ∈ xs := (mem_sortBy cmp).mp (hsort ▸ List.mem_cons_self)
    have hmem : x ∈ y :: ys := hsort ▸ (mem_sortBy cmp).mpr hx
    rw [List.head?_cons]
    rcases List.mem_cons.mp hmem with heq | hlater
    · rw [heq]
    · rw [hsort] at hsorted
      have hle := (List.pairwise_cons.mp hsorted).1 x hlater
      rw [h y hy x hx (eq_of_isLE hle (hfirst y hy))]

theorem transCmp_descending {β : Type*} [TransCmp cmp] (key : β → α) : TransCmp fun a b => cmp (key b) (key a) where
  eq_swap := OrientedCmp.eq_swap
  isLE_trans hab hbc := TransCmp.isLE_trans hbc hab

end

namespace SliceSort
variable {α : Type*} (s : SliceSort α) (cmp : α → α → Ordering)

/-- Of more than `k` elements the first `k` are selected; those are sorted. -/
def takeFirst (xs : List α) (k : Nat) : Option (List α) :=
  if xs.length > k then
    if k = 0 then none
    else
      match s.selectNth cmp xs (k - 1) with
      | none => none
      | some selected => some (s.sort cmp (selected.take k))
  else some (s.sort cmp xs)

variable {cmp}

theorem sort_append [TransCmp cmp] {first rest : List α} (h : ∀ x ∈ first, ∀ y ∈ rest, (cmp x y).isLE) :
    (s.sort cmp first ++ s.sort cmp rest).Pairwise fun x y => (cmp x y).isLE := by
  rw [List.pairwise_append]
  refine ⟨s.sorted cmp first, s.sorted cmp rest, fun x hx y hy => ?_⟩
  exact h x ((s.sort_perm cmp first).subset hx) y ((s.sort_perm cmp rest).subset hy)

theorem selectNth_eq [TransCmp cmp] {xs : List α} (hdistinct : Distinguishes cmp xs) {k : Nat} (hk : k ≠ 0) (hmore : k ≤ xs.length) :
    ∃ selected, s.selectNth cmp xs (k - 1) = some selected ∧ selected.Perm xs ∧ s.sort cmp (selected.take k) = (sortBy cmp xs).take k := by
  have hwhole : (sortBy cmp xs).Pairwise fun x y => (cmp x y).isLE := sortBy_sorted xs
  have hperm := sortBy_perm cmp xs
  obtain ⟨before, pivot, behind, hselect, hlength, hselected, hbefore, hbehind⟩ :=
    s.selects cmp (show k - 1 < xs.length by omega)
  have hk' : (before ++ [pivot]).length = k := by
    rw [List.length_append, List.length_singleton, hlength]
    omega
  have hsplit : before ++ pivot :: behind = (before ++ [pivot]) ++ behind := by
    rw [List.append_assoc, List.singleton_append]
  have hfirst : ∀ x ∈ before ++ [pivot], ∀ y ∈ behind, (cmp x y).isLE := by
    intro x hx y hy
    rcases List.mem_append.mp hx with hx | hx
    · exact TransCmp.isLE_trans (hbefore x hx) (hbehind y hy)
    · rw [List.mem_singleton.mp hx]
      exact hbehind y hy
  have harranged : (s.sort cmp (before ++ [pivot]) ++ s.sort cmp behind).Perm xs := by
    apply List.Perm.trans ((s.sort_perm cmp _).append (s.sort_perm cmp _))
    rw [← hsplit]
    exact hselected
  have heq := sorted_unique hdistinct harranged hperm (s.sort_append hfirst) hwhole
  have hsorted : (s.sort cmp (before ++ [pivot])).length = k := (s.sort_perm cmp _).length_eq.trans hk'
  refine ⟨_, hselect, hselected, ?_⟩
  rw [hsplit, List.take_left' hk', ← heq, List.take_left' hsorted]

theorem sort_eq [TransCmp cmp] {xs : List α} (hdistinct : Distinguishes cmp xs) : s.sort cmp xs = sortBy cmp xs :=
  sorted_unique hdistinct (s.sort_perm cmp xs) (sortBy_perm cmp xs) (s.sorted cmp xs) (sortBy_sorted xs)

/-- **Selecting and sorting** gives the first of the whole sort, whatever their number. -/
theorem takeFirst_eq [TransCmp cmp] {xs : List α} (hdistinct : Distinguishes cmp xs) {k : Nat} (hk : k ≠ 0) :
    s.takeFirst cmp xs k = some ((sortBy cmp xs).take k) := by
  rw [takeFirst]
  by_cases hmore : xs.length > k
  · obtain ⟨selected, hselect, -, hsorted⟩ := s.selectNth_eq hdistinct hk (Nat.le_of_lt hmore)
    rw [if_pos hmore, if_neg hk, hselect]
    dsimp only
    rw [hsorted]
  · rw [if_neg hmore, s.sort_eq hdistinct, List.take_of_length_le (by rw [length_sortBy]; omega)]

/-- One that sorts the whole. -/
def whole (α : Type*) : SliceSort α where
  selectNth cmp xs index := if index < xs.length then some (sortBy cmp xs) else none
  sort := sortBy
  selects cmp _ xs index h := by
    have hsorted : (sortBy cmp xs).Pairwise fun x y => (cmp x y).isLE := sortBy_sorted xs
    have hperm := sortBy_perm cmp xs
    generalize sortBy cmp xs = ys at hsorted hperm
    have hy : index < ys.length := hperm.length_eq ▸ h
    have hsplit : ys.take index ++ ys[index] :: ys.drop (index + 1) = ys := by
      rw [List.getElem_cons_drop, List.take_append_drop]
    refine ⟨ys.take index, ys[index], ys.drop (index + 1), ?_, List.length_take_of_le (Nat.le_of_lt hy), ?_, ?_, ?_⟩
    · rw [if_pos h, hsplit]
    · rw [hsplit]
      exact hperm
    · rw [← hsplit, List.pairwise_append] at hsorted
      exact fun x hx => hsorted.2.2 x hx _ List.mem_cons_self
    · rw [← hsplit, List.pairwise_append] at hsorted
      exact (List.pairwise_cons.mp hsorted.2.1).1
  sort_perm cmp _ xs := sortBy_perm cmp xs
  sorted _ _ xs := sortBy_sorted xs

end SliceSort

end Ranking
