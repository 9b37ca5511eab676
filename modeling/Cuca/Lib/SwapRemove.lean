import Mathlib.Data.List.Basic

/-!
# Removal by swapping with the last element

* `swapRemove` : the last element takes the place of the one removed;
* `swapRemove_perm` : nothing else goes;
* `swapRemove_append` : what is before the place stays where it is;
* `trailing_of_lt` : a list whose marked elements stand at the first places is the marked ones and then the others.
-/

namespace SwapRemove
variable {α : Type*}

/-- `Vec::swap_remove`, the list it leaves. -/
def swapRemove (xs : List α) (i : Nat) : List α :=
  match xs.getLast? with
  | none => []
  | some last => (xs.set i last).dropLast

theorem swapRemove_concat (ys : List α) (last : α) (i : Nat) : swapRemove (ys ++ [last]) i = ys.set i last := by
  rw [swapRemove, List.getLast?_concat]
  show ((ys ++ [last]).set i last).dropLast = ys.set i last
  rcases Nat.lt_or_ge i ys.length with hbefore | hlast
  · rw [List.set_append_left _ _ hbefore, List.dropLast_concat]
  · rw [List.set_append_right _ _ hlast, List.set_eq_of_length_le hlast]
    rcases Nat.eq_zero_or_pos (i - ys.length) with heq | hbeyond
    · rw [heq, List.set_cons_zero, List.dropLast_concat]
    · rw [List.set_eq_of_length_le hbeyond, List.dropLast_concat]

theorem swapRemove_perm {xs : List α} {i : Nat} {x : α} (h : xs[i]? = some x) : (x :: swapRemove xs i).Perm xs := by
  obtain rfl | ⟨ys, last, rfl⟩ := xs.eq_nil_or_concat'
  · simp at h
  rw [swapRemove_concat]
  rcases Nat.lt_or_ge i ys.length with hbefore | hlast
  · rw [List.getElem?_append_left hbefore] at h
    obtain ⟨hi, rfl⟩ := List.getElem?_eq_some_iff.mp h
    have hys : ys.take i ++ ys[i] :: ys.drop (i + 1) = ys := by
      rw [List.getElem_cons_drop, List.take_append_drop]
    have hset : ys.set i last = ys.take i ++ last :: ys.drop (i + 1) := by
      rw [List.set_eq_take_append_cons_drop, if_pos hi]
    have hswap : (ys[i] :: last :: (ys.take i ++ ys.drop (i + 1))).Perm (last :: ys) := by
      refine (List.Perm.swap ..).trans (.cons _ ?_)
      refine (List.perm_middle.symm).trans ?_
      rw [hys]
    rw [hset]
    exact ((List.perm_middle.cons _).trans hswap).trans (List.perm_append_singleton last ys).symm
  · rw [List.getElem?_append_right hlast] at h
    obtain ⟨_, hx⟩ := List.getElem?_eq_some_iff.mp h
    obtain rfl : last = x := by simpa using hx
    rw [List.set_eq_of_length_le hlast]
    exact (List.perm_append_singleton last ys).symm

theorem swapRemove_append (ys : List α) {zs : List α} {i : Nat} (hzs : zs ≠ []) (hi : ys.length ≤ i) :
    swapRemove (ys ++ zs) i = ys ++ swapRemove zs (i - ys.length) := by
  obtain rfl | ⟨zs, last, rfl⟩ := zs.eq_nil_or_concat'
  · exact absurd rfl hzs
  · rw [← List.append_assoc, swapRemove_concat, swapRemove_concat, List.set_append_right _ _ hi]

theorem trailing_of_lt {p : α → Bool} {xs : List α} (h : ∀ i x, xs[i]? = some x → p x → i < xs.countP p) :
    xs = xs.filter p ++ xs.filter (!p ·) := by
  set k := xs.countP p
  have hdrop : ∀ x ∈ xs.drop k, p x = false := by
    intro x hx
    obtain ⟨j, hj⟩ := List.mem_iff_getElem?.mp hx
    rw [List.getElem?_drop] at hj
    by_contra hp
    have hlt := h (k + j) x hj (by simpa using hp)
    omega
  have hcount : (xs.take k).countP p = k := by
    have hsplit : (xs.take k).countP p + (xs.drop k).countP p = k := by
      rw [← List.countP_append, List.take_append_drop]
    have hnone : (xs.drop k).countP p = 0 := List.countP_eq_zero.mpr fun x hx => by simp [hdrop x hx]
    omega
  have htake : ∀ x ∈ xs.take k, p x := by
    have hle : (xs.take k).length ≤ k := List.length_take_le ..
    have hcountle : (xs.take k).countP p ≤ (xs.take k).length := List.countP_le_length
    exact List.countP_eq_length.mp (by omega)
  have hkept : xs.filter p = xs.take k := by
    have hrest : (xs.drop k).filter p = [] := List.filter_eq_nil_iff.mpr fun x hx => by simp [hdrop x hx]
    conv_lhs => rw [← List.take_append_drop k xs, List.filter_append]
    rw [List.filter_eq_self.mpr htake, hrest, List.append_nil]
  have hgone : xs.filter (!p ·) = xs.drop k := by
    have hfirst : (xs.take k).filter (!p ·) = [] := List.filter_eq_nil_iff.mpr fun x hx => by simp [htake x hx]
    have hrest : (xs.drop k).filter (!p ·) = xs.drop k := List.filter_eq_self.mpr fun x hx => by simp [hdrop x hx]
    conv_lhs => rw [← List.take_append_drop k xs, List.filter_append]
    rw [hfirst, hrest, List.nil_append]
  rw [hkept, hgone, List.take_append_drop]

end SwapRemove
