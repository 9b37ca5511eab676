import Mathlib.Data.List.InsertIdx

/-!
# Removing elements of a list by their index

* `removing` : the elements at the indices a predicate leaves, in order;
* `retain` : one pass along a rising list of indices; `takeOut` : one removal for each index, back to front;
* `retain_eq`, `takeOut_eq` : both are `removing`;
* `putBack_takeOut` : putting the elements back at their indices restores the list;
* `find?_removing`, `latest_removing` : the first and the last element of a kind stay so when they are left;
* `removing_eq_append_cons` : what stands before and after an element that is left.
-/

namespace Removal

variable {α : Type*}

def removing (drop : Nat → Bool) : List α → List α
  | [] => []
  | x :: xs => if drop 0 then removing (fun i => drop (i + 1)) xs else x :: removing (fun i => drop (i + 1)) xs

/-- The last index whose element has the property. -/
def rposition (p : α → Bool) : List α → Option Nat
  | [] => none
  | x :: xs => ((rposition p xs).map (· + 1)).or (if p x then some 0 else none)

/-- The last element with the property. -/
def latest (p : α → Bool) : List α → Option α
  | [] => none
  | x :: xs => (latest p xs).or (if p x then some x else none)

/-- `Vec::retain` with a cursor on a list of indices: an element whose index is at the cursor goes. -/
def retain (i : Nat) : List Nat → List α → List α
  | _, [] => []
  | next, x :: xs => if next.head? = some i then retain (i + 1) next.tail xs else x :: retain (i + 1) next xs

/-- `Vec::remove` at each index, back to front: what is removed, in the order of the indices, and what is left. -/
def takeOut (idxs : List Nat) (xs : List α) : List α × List α :=
  idxs.foldr (fun i state => (state.2[i]?.toList ++ state.1, state.2.eraseIdx i)) ([], xs)

/-- `Vec::insert` at each index, front to back. -/
def putBack (idxs : List Nat) (taken left : List α) : List α :=
  (idxs.zip taken).foldl (fun xs entry => xs.insertIdx entry.1 entry.2) left

/-! ## What is left -/

section
variable (drop : Nat → Bool)

@[simp] theorem removing_nil : removing drop ([] : List α) = [] := rfl

theorem removing_cons (x : α) (xs : List α) :
    removing drop (x :: xs) =
      if drop 0 then removing (fun i => drop (i + 1)) xs else x :: removing (fun i => drop (i + 1)) xs := rfl

theorem removing_append (xs ys : List α) :
    removing drop (xs ++ ys) = removing drop xs ++ removing (fun i => drop (xs.length + i)) ys := by
  induction xs generalizing drop with
  | nil => simp
  | cons x xs ih =>
    have hshift : (fun i => drop (xs.length + i + 1)) = fun i => drop ((x :: xs).length + i) := by
      funext i
      rw [List.length_cons, Nat.add_right_comm]
    rw [List.cons_append, removing_cons, removing_cons, ih, hshift]
    split <;> rfl

theorem removing_congr {drop drop' : Nat → Bool} {xs : List α} (h : ∀ i < xs.length, drop i = drop' i) :
    removing drop xs = removing drop' xs := by
  induction xs generalizing drop drop' with
  | nil => rfl
  | cons x xs ih =>
    rw [removing_cons, removing_cons, h 0 (by simp), ih fun i hi => h (i + 1) (by simpa using hi)]

theorem removing_append_cons (pre : List α) (x : α) (post : List α) :
    removing drop (pre ++ x :: post) =
      removing drop pre ++ ((if drop pre.length then [] else [x]) ++ removing (fun i => drop (pre.length + 1 + i)) post) := by
  have hshift : (fun i => drop (pre.length + (i + 1))) = fun i => drop (pre.length + 1 + i) := by
    funext i
    rw [Nat.add_right_comm, Nat.add_assoc]
  rw [removing_append, removing_cons, Nat.add_zero, hshift]
  split <;> rfl

theorem removing_none (xs : List α) : removing (fun _ => false) xs = xs := by
  induction xs with
  | nil => rfl
  | cons x xs ih => rw [removing_cons, if_neg Bool.false_ne_true, ih]

theorem removing_all (xs : List α) : removing (fun _ => true) xs = [] := by
  induction xs with
  | nil => rfl
  | cons x xs ih => rw [removing_cons, if_pos rfl, ih]

variable {drop} in
theorem removing_eq_self {xs : List α} (h : ∀ i < xs.length, drop i = false) : removing drop xs = xs := by
  rw [removing_congr h, removing_none]

variable {drop} in
theorem removing_eq_nil {xs : List α} (h : ∀ i < xs.length, drop i = true) : removing drop xs = [] := by
  rw [removing_congr h, removing_all]

theorem exists_split {xs : List α} {i : Nat} (h : i < xs.length) :
    ∃ pre x post, xs = pre ++ x :: post ∧ pre.length = i := by
  refine ⟨xs.take i, xs[i], xs.drop (i + 1), ?_, List.length_take_of_le (Nat.le_of_lt h)⟩
  rw [List.getElem_cons_drop, List.take_append_drop]

theorem removing_sublist (xs : List α) : (removing drop xs).Sublist xs := by
  induction xs generalizing drop with
  | nil => exact .slnil
  | cons x xs ih =>
    rw [removing_cons]
    split
    · exact (ih _).cons x
    · exact (ih _).cons_cons x

theorem removing_perm (xs : List α) : (removing (fun i => !drop i) xs ++ removing drop xs).Perm xs := by
  induction xs generalizing drop with
  | nil => exact .nil
  | cons x xs ih =>
    rw [removing_cons, removing_cons]
    cases drop 0 with
    | true => exact (ih _).cons x
    | false => exact List.perm_middle.trans ((ih _).cons x)

theorem mem_of_mem_removing {xs : List α} {x : α} (h : x ∈ removing drop xs) : x ∈ xs :=
  (removing_sublist drop xs).subset h

theorem removing_eq_append_cons {drop : Nat → Bool} {xs before after : List α} {x : α} :
    removing drop xs = before ++ x :: after ↔
      ∃ pre post, xs = pre ++ x :: post ∧ drop pre.length = false ∧ before = removing drop pre ∧
        after = removing (fun i => drop (pre.length + 1 + i)) post := by
  constructor
  · intro h
    induction xs generalizing drop before with
    | nil => simp at h
    | cons y xs ih =>
      have hshift (n : Nat) : (fun i => drop (n + 1 + i + 1)) = fun i => drop (n + 1 + 1 + i) := by
        funext i
        rw [Nat.add_right_comm (n + 1)]
      rw [removing_cons] at h
      split at h
      case isTrue hgone =>
        obtain ⟨pre, post, rfl, hleft, rfl, rfl⟩ := ih h
        refine ⟨y :: pre, post, rfl, hleft, ?_, ?_⟩
        · rw [removing_cons, if_pos hgone]
        · rw [hshift, List.length_cons]
      case isFalse hstays =>
        rcases before with _ | ⟨z, before⟩
        · obtain ⟨rfl, rfl⟩ := List.cons.inj h
          refine ⟨[], xs, rfl, by simpa using hstays, rfl, ?_⟩
          congr 1
          funext i
          rw [List.length_nil, Nat.zero_add, Nat.add_comm]
        · obtain ⟨rfl, htail⟩ := List.cons.inj h
          obtain ⟨pre, post, rfl, hleft, rfl, rfl⟩ := ih htail
          refine ⟨y :: pre, post, rfl, hleft, ?_, ?_⟩
          · rw [removing_cons, if_neg hstays]
          · rw [hshift, List.length_cons]
  · rintro ⟨pre, post, rfl, hleft, rfl, rfl⟩
    rw [removing_append_cons, if_neg (by simp [hleft]), List.singleton_append]

theorem mem_removing {x : α} {xs : List α} :
    x ∈ removing drop xs ↔ ∃ i, xs[i]? = some x ∧ drop i = false := by
  rw [List.mem_iff_append]
  constructor
  · rintro ⟨before, after, h⟩
    obtain ⟨pre, post, rfl, hleft, -, -⟩ := removing_eq_append_cons.mp h
    exact ⟨pre.length, by simp, hleft⟩
  · rintro ⟨i, hi, hleft⟩
    obtain ⟨hlt, hx⟩ := List.getElem?_eq_some_iff.mp hi
    obtain ⟨pre, y, post, rfl, rfl⟩ := exists_split hlt
    obtain rfl : y = x := by simpa using hx
    exact ⟨_, _, removing_eq_append_cons.mpr ⟨pre, post, rfl, hleft, rfl, rfl⟩⟩

end

/-! ## The first and the last of a kind -/

section
variable {p : α → Bool} {drop : Nat → Bool} {xs : List α}

theorem latest_eq_none_iff : latest p xs = none ↔ ∀ x ∈ xs, p x = false := by
  induction xs with
  | nil => simp [latest]
  | cons x xs ih => cases hx : p x <;> simp [latest, ih, hx]

theorem rposition_eq_none_iff : rposition p xs = none ↔ ∀ x ∈ xs, p x = false := by
  induction xs with
  | nil => simp [rposition]
  | cons x xs ih => cases hx : p x <;> simp [rposition, ih, hx]

theorem rposition_append_cons {pre post : List α} {x : α} :
    rposition p (pre ++ x :: post) = some pre.length ↔ p x ∧ ∀ y ∈ post, p y = false := by
  induction pre with
  | nil =>
    rw [List.nil_append, rposition, List.length_nil, ← rposition_eq_none_iff]
    rcases hpost : rposition p post with _ | i <;> simp
  | cons z pre ih =>
    rw [List.cons_append, rposition, List.length_cons, ← ih]
    rcases hrest : rposition p (pre ++ x :: post) with _ | i
    · simp
    · simp

theorem rposition_lt {i : Nat} (h : rposition p xs = some i) : i < xs.length := by
  induction xs generalizing i with
  | nil => cases h
  | cons x xs ih =>
    rw [rposition, Option.or_eq_some_iff, Option.map_eq_some_iff] at h
    rcases h with ⟨j, hj, rfl⟩ | ⟨_, h⟩
    · exact Nat.succ_lt_succ (ih hj)
    · obtain ⟨_, hzero⟩ := Option.ite_none_right_eq_some.mp h
      obtain rfl := Option.some.inj hzero
      exact Nat.zero_lt_succ _

theorem rposition_eq_some_iff {i : Nat} :
    rposition p xs = some i ↔
      ∃ pre x post, xs = pre ++ x :: post ∧ pre.length = i ∧ p x ∧ ∀ y ∈ post, p y = false := by
  constructor
  · intro h
    obtain ⟨pre, x, post, rfl, rfl⟩ := exists_split (rposition_lt h)
    obtain ⟨hx, hpost⟩ := rposition_append_cons.mp h
    exact ⟨pre, x, post, rfl, rfl, hx, hpost⟩
  · rintro ⟨pre, x, post, rfl, rfl, h⟩
    exact rposition_append_cons.mpr h

theorem latest_removing (h : ∀ i, rposition p xs = some i → drop i = false) :
    latest p (removing drop xs) = latest p xs := by
  induction xs generalizing drop with
  | nil => rfl
  | cons x xs ih =>
    have hrest : latest p (removing (fun i => drop (i + 1)) xs) = latest p xs :=
      ih fun i hi => h (i + 1) (by simp [rposition, hi])
    rw [removing_cons, latest]
    split
    case isFalse => rw [latest, hrest]
    case isTrue hgone =>
      rw [hrest]
      -- the element that goes is not the last of its kind: it is of another kind, or a later one is of its kind
      rcases hlatest : latest p xs with _ | y
      · have hx : p x = false := by
          by_contra hx
          have hnone := rposition_eq_none_iff.mpr (latest_eq_none_iff.mp hlatest)
          have hstays := h 0 (by simp [rposition, hnone, hx])
          rw [hstays] at hgone
          exact Bool.false_ne_true hgone
        simp [hx]
      · rfl

theorem rposition_append (p : α → Bool) (xs ys : List α) :
    rposition p (xs ++ ys) = ((rposition p ys).map (· + xs.length)).or (rposition p xs) := by
  induction xs with
  | nil => simp [rposition]
  | cons x xs ih =>
    rw [List.cons_append, rposition, ih, rposition, List.length_cons]
    rcases rposition p ys with _ | i
    · simp
    · simp [Nat.add_assoc]

theorem rposition_insert {pre post : List α} {x : α} (hx : p x) :
    rposition p (pre ++ x :: post) = ((rposition p post).map (· + (pre.length + 1))).or (some pre.length) := by
  rw [rposition_append, rposition, hx]
  rcases rposition p post with _ | i
  · simp
  · simp
    omega

theorem removing_at {i : Nat} {x : α} (hx : xs[i]? = some x) (hleft : drop i = false) :
    removing drop xs = removing drop (xs.take i) ++ x :: removing (fun k => drop (i + 1 + k)) (xs.drop (i + 1)) := by
  obtain ⟨hlt, rfl⟩ := List.getElem?_eq_some_iff.mp hx
  have hlength : (xs.take i).length = i := List.length_take_of_le (Nat.le_of_lt hlt)
  conv_lhs => rw [← List.take_append_drop i xs, ← List.getElem_cons_drop hlt]
  rw [removing_append_cons, hlength, hleft]
  rfl

theorem getElem?_removing_length {i : Nat} {x : α} (hx : xs[i]? = some x) (hleft : drop i = false) :
    (removing drop xs)[(removing drop (xs.take i)).length]? = some x := by
  rw [removing_at hx hleft]
  simp

theorem getElem?_removing {k : Nat} {x : α} (h : (removing drop xs)[k]? = some x) :
    ∃ i, xs[i]? = some x ∧ drop i = false ∧ k = (removing drop (xs.take i)).length := by
  obtain ⟨hlt, hx⟩ := List.getElem?_eq_some_iff.mp h
  obtain ⟨before, y, after, hsplit, rfl⟩ := exists_split hlt
  obtain rfl : y = x := by
    rw [hsplit] at h
    simpa using h
  obtain ⟨pre, post, rfl, hleft, rfl, _⟩ := removing_eq_append_cons.mp hsplit
  exact ⟨pre.length, by simp, hleft, by simp⟩

theorem take_removing {i : Nat} {x : α} (hx : xs[i]? = some x) (hleft : drop i = false) :
    (removing drop xs).take (removing drop (xs.take i)).length = removing drop (xs.take i) := by
  rw [removing_at hx hleft, List.take_left]

theorem rposition_removing (h : ∀ i, rposition p xs = some i → drop i = false) {i : Nat} {x : α} (hx : xs[i]? = some x)
    (hleft : drop i = false) :
    rposition p (removing drop xs) = some (removing drop (xs.take i)).length ↔ rposition p xs = some i := by
  obtain ⟨hlt, rfl⟩ := List.getElem?_eq_some_iff.mp hx
  have hsplit : xs = xs.take i ++ xs[i] :: xs.drop (i + 1) := by
    rw [List.getElem_cons_drop, List.take_append_drop]
  have hlength : (xs.take i).length = i := List.length_take_of_le (Nat.le_of_lt hlt)
  have hlatest : latest p (removing (fun k => drop (i + 1 + k)) (xs.drop (i + 1))) = latest p (xs.drop (i + 1)) := by
    refine latest_removing fun k hk => h (i + 1 + k) ?_
    rw [hsplit, rposition_append, rposition, hk, hlength]
    simp
    omega
  have hwholeIff : rposition p xs = some i ↔ p xs[i] ∧ ∀ y ∈ xs.drop (i + 1), p y = false := by
    rw [← rposition_append_cons, ← hsplit, hlength]
  rw [removing_at hx hleft, rposition_append_cons, hwholeIff, ← latest_eq_none_iff, ← latest_eq_none_iff, hlatest]

end

/-! ## The loops that remove -/

theorem retain_eq (i : Nat) {next : List Nat} (hrising : next.Pairwise (· < ·)) (hfrom : ∀ j ∈ next, i ≤ j)
    (xs : List α) : retain i next xs = removing (fun k => decide (i + k ∈ next)) xs := by
  induction xs generalizing i next with
  | nil => cases next <;> rfl
  | cons x xs ih =>
    have hstep (k : Nat) : i + (k + 1) = i + 1 + k := by omega
    rw [retain, removing_cons, Nat.add_zero]
    rcases next with _ | ⟨j, next⟩
    · have hrest : retain (i + 1) [] xs = removing (fun k => decide (i + 1 + k ∈ [])) xs := ih (i + 1) .nil (by simp)
      simpa using hrest
    obtain ⟨hbefore, hrest⟩ := List.pairwise_cons.mp hrising
    rcases Nat.eq_or_lt_of_le (hfrom j List.mem_cons_self) with rfl | hlater
    · have hmem : ∀ k < xs.length, decide (i + (k + 1) ∈ i :: next) = decide (i + 1 + k ∈ next) := by
        intro k _
        rw [hstep, decide_eq_decide, List.mem_cons]
        have hne : i + 1 + k ≠ i := by omega
        simp [hne]
      rw [if_pos (by simp), if_pos (by simp), List.tail_cons, ih (i + 1) hrest fun j hj => hbefore j hj]
      exact (removing_congr hmem).symm
    · have hhead : i ∉ j :: next := by
        intro hi
        rcases List.mem_cons.mp hi with rfl | hi
        · exact Nat.lt_irrefl _ hlater
        · have := hbefore i hi
          omega
      have hne : (j :: next).head? ≠ some i := fun h => hhead (by simp [Option.some.inj h])
      have hfrom' : ∀ k ∈ j :: next, i + 1 ≤ k := by
        intro k hk
        rcases List.mem_cons.mp hk with rfl | hk
        · exact hlater
        · have := hbefore k hk
          omega
      rw [if_neg hne, if_neg (by simpa using hhead), ih (i + 1) hrising hfrom']
      exact congrArg (x :: ·) (removing_congr fun k _ => by rw [← hstep]).symm

theorem removing_first {pre : List α} {x : α} {post : List α} {idxs : List Nat} (hlater : ∀ j ∈ idxs, pre.length < j) :
    removing (fun k => decide (k ∈ pre.length :: idxs)) (pre ++ x :: post) =
      pre ++ removing (fun k => decide (pre.length + 1 + k ∈ idxs)) post := by
  have hpre : ∀ k < pre.length, k ∉ pre.length :: idxs := by
    intro k hk hmem
    rcases List.mem_cons.mp hmem with rfl | hmem
    · exact Nat.lt_irrefl _ hk
    · exact Nat.lt_asymm hk (hlater k hmem)
  have hne (k : Nat) : pre.length + 1 + k ≠ pre.length := by omega
  rw [removing_append_cons, removing_eq_self fun k hk => by simpa using hpre k hk]
  simp [hne]

theorem insertIdx_length (pre post : List α) (x : α) : (pre ++ post).insertIdx pre.length x = pre ++ x :: post := by
  induction pre with
  | nil => rfl
  | cons y pre ih => rw [List.cons_append, List.length_cons, List.insertIdx_succ_cons, ih, List.cons_append]

theorem takeOut_cons (i : Nat) (idxs : List Nat) (xs : List α) :
    takeOut (i :: idxs) xs =
      ((takeOut idxs xs).2[i]?.toList ++ (takeOut idxs xs).1, (takeOut idxs xs).2.eraseIdx i) := rfl

theorem takeOut_eq {idxs : List Nat} (hrising : idxs.Pairwise (· < ·)) {xs : List α} (hlt : ∀ i ∈ idxs, i < xs.length) :
    takeOut idxs xs =
      (removing (fun k => decide (k ∉ idxs)) xs, removing (fun k => decide (k ∈ idxs)) xs) := by
  induction idxs with
  | nil => simp [takeOut, removing_none, removing_all]
  | cons i idxs ih =>
    obtain ⟨hbefore, hrest⟩ := List.pairwise_cons.mp hrising
    rw [takeOut_cons, ih hrest fun j hj => hlt j (List.mem_cons_of_mem _ hj)]
    obtain ⟨pre, x, post, rfl, rfl⟩ := exists_split (hlt i List.mem_cons_self)
    -- nothing up to `i` has gone yet, so `i` is still the index of its element
    have hpre : ∀ k ≤ pre.length, k ∉ idxs := fun k hk hmem => by
      have := hbefore k hmem
      omega
    have hne : ∀ k < pre.length, k ≠ pre.length := fun k hk => Nat.ne_of_lt hk
    have hlater (k : Nat) : pre.length + 1 + k ≠ pre.length := by omega
    have hleft : removing (fun k => decide (k ∈ idxs)) (pre ++ x :: post) =
        pre ++ x :: removing (fun k => decide (pre.length + 1 + k ∈ idxs)) post := by
      rw [removing_append_cons, removing_eq_self fun k hk => by simpa using hpre k (Nat.le_of_lt hk)]
      simp [hpre]
    have htaken : removing (fun k => decide (k ∉ idxs)) (pre ++ x :: post) =
        removing (fun k => decide (pre.length + 1 + k ∉ idxs)) post := by
      rw [removing_append_cons, removing_eq_nil fun k hk => by simpa using hpre k (Nat.le_of_lt hk)]
      simp [hpre]
    have htaken' : removing (fun k => decide (k ∉ pre.length :: idxs)) (pre ++ x :: post) =
        x :: removing (fun k => decide (pre.length + 1 + k ∉ idxs)) post := by
      rw [removing_append_cons, removing_eq_nil fun k hk => by simp [hpre k (Nat.le_of_lt hk), hne k hk]]
      simp [hlater]
    rw [hleft, removing_first hbefore, htaken, htaken', List.eraseIdx_append_of_length_le (Nat.le_refl _), Nat.sub_self]
    simp

/-- **Roll back**: the removed elements, put back where they were. -/
theorem putBack_takeOut {idxs : List Nat} (hrising : idxs.Pairwise (· < ·)) {xs : List α}
    (hlt : ∀ i ∈ idxs, i < xs.length) : putBack idxs (takeOut idxs xs).1 (takeOut idxs xs).2 = xs := by
  induction idxs with
  | nil => rfl
  | cons i idxs ih =>
    obtain ⟨hbefore, hrest⟩ := List.pairwise_cons.mp hrising
    have hlt' : ∀ j ∈ idxs, j < xs.length := fun j hj => hlt j (List.mem_cons_of_mem _ hj)
    have hi : i < (takeOut idxs xs).2.length := by
      obtain ⟨pre, x, post, rfl, rfl⟩ := exists_split (hlt i List.mem_cons_self)
      have hstays : removing (fun k => decide (k ∈ idxs)) pre = pre := removing_eq_self fun k hk => by
        have hmem : k ∉ idxs := fun hmem => Nat.lt_asymm hk (hbefore k hmem)
        simpa using hmem
      have hself : pre.length ∉ idxs := fun hmem => Nat.lt_irrefl _ (hbefore _ hmem)
      rw [takeOut_eq hrest hlt']
      show pre.length < (removing (fun k => decide (k ∈ idxs)) (pre ++ x :: post)).length
      rw [removing_append_cons, hstays]
      simp [hself]
    rw [takeOut_cons, List.getElem?_eq_getElem hi]
    show putBack idxs (takeOut idxs xs).1 (((takeOut idxs xs).2.eraseIdx i).insertIdx i (takeOut idxs xs).2[i]) = xs
    rw [List.insertIdx_eraseIdx_getElem hi]
    exact ih hrest hlt'

end Removal
