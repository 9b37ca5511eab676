import Mathlib.Data.List.Basic

/-!
# Doubly linked lists of indices

The elements that are left of an array, linked by the index of the one before and the one behind.

* `Linked` : the links are those of the list;
* `Linked.at_split` : the links of one element;
* `Linked.unlink` : taking out the element behind another one;
* `Linked.range` : the links of an array whose elements are all left;
* `follow`, `Linked.follow_eq` : the list, from its first element on;
* `countP_modify`, `countP_modify_lt` : how many elements are left.
-/

/-- The links of these indices, behind the one that is before them. -/
def Linked (next prev : Nat → Option Nat) (before : Option Nat) : List Nat → Prop
  | [] => True
  | i :: rest => prev i = before ∧ next i = rest.head? ∧ Linked next prev (some i) rest

namespace Linked

variable {next prev : Nat → Option Nat} {before : Option Nat}

theorem at_split {front back : List Nat} {i : Nat} (h : Linked next prev before (front ++ i :: back)) :
    prev i = (front.getLast?).or before ∧ next i = back.head? := by
  induction front generalizing before with
  | nil => exact ⟨h.1, h.2.1⟩
  | cons j front ih =>
    obtain ⟨hprev, hnext⟩ := ih h.2.2
    refine ⟨?_, hnext⟩
    rw [hprev, List.getLast?_cons]
    cases front.getLast? <;> rfl

theorem congr {next' prev' : Nat → Option Nat} {live : List Nat} (h : Linked next prev before live)
    (hnext : ∀ i ∈ live, next' i = next i) (hprev : ∀ i ∈ live, prev' i = prev i) : Linked next' prev' before live := by
  induction live generalizing before with
  | nil => trivial
  | cons i live ih =>
    refine ⟨(hprev i List.mem_cons_self).trans h.1, (hnext i List.mem_cons_self).trans h.2.1, ih h.2.2 ?_ ?_⟩
    · exact fun j hj => hnext j (List.mem_cons_of_mem i hj)
    · exact fun j hj => hprev j (List.mem_cons_of_mem i hj)

/-- **Taking out** the element behind another one: the links over the gap are all that changes. -/
theorem unlink {front back : List Nat} {left right : Nat} (hnodup : (front ++ left :: right :: back).Nodup)
    (h : Linked next prev before (front ++ left :: right :: back)) :
    Linked (fun i => if i = left then next right else next i) (fun i => if some i = next right then some left else prev i) before
      (front ++ left :: back) := by
  induction front generalizing before with
  | nil =>
    obtain ⟨hprev, -, -, hnext, hback⟩ := h
    obtain ⟨hleft, hnodup⟩ := List.nodup_cons.mp hnodup
    have hnodup := (List.nodup_cons.mp hnodup).2
    have hout : some left ≠ back.head? := fun hhead =>
      hleft (List.mem_cons_of_mem _ (List.mem_of_mem_head? hhead.symm))
    refine ⟨(if_neg (hnext ▸ hout)).trans hprev, (if_pos rfl).trans hnext, ?_⟩
    rcases back with _ | ⟨j, back⟩
    · trivial
    · obtain ⟨-, hnextj, hback⟩ := hback
      have hne (i : Nat) (hi : i ∈ j :: back) : i ≠ left := fun heq => hleft (heq ▸ List.mem_cons_of_mem _ hi)
      refine ⟨if_pos hnext.symm, (if_neg (hne j List.mem_cons_self)).trans hnextj, hback.congr ?_ ?_⟩
      · exact fun i hi => if_neg (hne i (List.mem_cons_of_mem _ hi))
      · intro i hi
        rw [hnext]
        apply if_neg
        intro heq
        obtain rfl : i = j := Option.some.inj heq
        exact (List.nodup_cons.mp hnodup).1 hi
  | cons i front ih =>
    obtain ⟨hprev, hnexti, hrest⟩ := h
    obtain ⟨hi, hnodup⟩ := List.nodup_cons.mp hnodup
    have hnext := (at_split (by simpa using hrest : Linked next prev (some i) ((front ++ [left]) ++ right :: back))).2
    have hout : some i ≠ back.head? := fun hhead => hi (by simp [List.mem_of_mem_head? hhead.symm])
    refine ⟨(if_neg (hnext ▸ hout)).trans hprev, (if_neg fun heq => hi (by simp [heq])).trans (hnexti.trans ?_), ih hnodup hrest⟩
    cases front <;> rfl

theorem range {n : Nat} (hnext : ∀ i < n, next i = if i + 1 < n then some (i + 1) else none)
    (hprev : ∀ i < n, prev i = if i = 0 then none else some (i - 1)) : Linked next prev none (List.range n) := by
  have hrest (start k : Nat) (hn : start + k = n) :
      Linked next prev (if start = 0 then none else some (start - 1)) (List.range' start k) := by
    induction k generalizing start with
    | zero => trivial
    | succ k ih =>
      have htail := ih (start + 1) (by omega)
      rw [if_neg (Nat.succ_ne_zero start), Nat.add_sub_cancel] at htail
      refine ⟨hprev start (by omega), (hnext start (by omega)).trans ?_, htail⟩
      rcases k with _ | k
      · exact if_neg (by omega)
      · exact if_pos (by omega)
  rw [List.range_eq_range']
  exact hrest 0 n (Nat.zero_add n)

end Linked

/-- The elements from one on, at most so many. -/
def follow (next : Nat → Option Nat) : Nat → Option Nat → List Nat
  | n + 1, some i => i :: follow next n (next i)
  | _, _ => []

theorem Linked.follow_eq {next prev : Nat → Option Nat} {before : Option Nat} {live : List Nat} (h : Linked next prev before live)
    {n : Nat} (hn : live.length ≤ n) : follow next n live.head? = live := by
  induction live generalizing before n with
  | nil => cases n <;> rfl
  | cons i live ih =>
    obtain ⟨n, rfl⟩ := Nat.exists_eq_add_of_le' (Nat.lt_of_lt_of_le (Nat.succ_pos _) hn)
    rw [List.head?_cons, follow, h.2.1, ih h.2.2 (Nat.le_of_succ_le_succ hn)]

theorem getElem?_modify_map {T : Type*} (l : List T) (f : T → T) (i j : Nat) :
    (l.modify j f)[i]? = l[i]?.map fun x => if i = j then f x else x := by
  rw [List.getElem?_modify]
  simp only [eq_comm, Option.map_eq_map]

section
variable {T : Type*} (p : T → Bool) (f : T → T)

theorem countP_modify {l : List T} {i : Nat} (h : ∀ x, l[i]? = some x → p (f x) = p x) : (l.modify i f).countP p = l.countP p := by
  induction l generalizing i with
  | nil => rw [List.modify_nil]
  | cons a l ih =>
    cases i with
    | zero => rw [List.modify_zero_cons, List.countP_cons, List.countP_cons, h a rfl]
    | succ i => rw [List.modify_succ_cons, List.countP_cons, List.countP_cons, ih fun x hx => h x hx]

theorem countP_modify_lt {l : List T} {i : Nat} {x : T} (hx : l[i]? = some x) (h : p x = true) (hf : p (f x) = false) :
    (l.modify i f).countP p < l.countP p := by
  induction l generalizing i with
  | nil => exact nomatch hx
  | cons a l ih =>
    cases i with
    | zero =>
      obtain rfl := Option.some.inj hx
      rw [List.modify_zero_cons, List.countP_cons, List.countP_cons, h, hf]
      simp
    | succ i =>
      have hlt := ih hx
      rw [List.modify_succ_cons, List.countP_cons, List.countP_cons]
      omega

end
