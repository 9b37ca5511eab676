import Cuca.Lib.Assoc
import Mathlib.Algebra.Order.BigOperators.Group.List

/-!
# Totals over a map

The values of a map are summed up; a key without a value counts as `zero`.

* `valueAt`, `total` : one key, and the sum over all;
* `total_eq`, `total_insert` : one key and the rest;
* `total_le_total` : a bound at each key bounds the sums;
* `others` : how many other keys there are.
-/

namespace Buckets

variable {α β M : Type*} [DecidableEq α] [AddCommMonoid M]

def valueAt (zero : β) (m : AList (fun _ : α => β)) (key : α) : β := (m.lookup key).getD zero

def total (f : β → M) (m : AList (fun _ : α => β)) : M := (m.entries.map fun e => f e.2).sum

section
variable (f : β → M) (m : AList (fun _ : α => β)) (key : α)

theorem total_eq {zero : β} (hzero : f zero = 0) : total f m = f (valueAt zero m key) + total f (m.erase key) := by
  by_cases hmem : key ∈ m
  · obtain ⟨value, before, after, _, hentries, herase⟩ := List.exists_of_kerase (AList.mem_keys.mp hmem)
    have hlookup : m.lookup key = some value := by
      apply AList.mem_lookup_iff.mpr
      rw [hentries]
      exact List.mem_append_right _ List.mem_cons_self
    have hrest : (m.erase key).entries = before ++ after := herase
    rw [valueAt, hlookup, Option.getD_some, total, total, hrest, hentries, List.map_append, List.sum_append, List.map_cons,
      List.sum_cons, List.map_append, List.sum_append, add_left_comm]
  · have hnone : valueAt zero m key = zero := by rw [valueAt, AList.lookup_eq_none.mpr hmem, Option.getD_none]
    have hsame : m.erase key = m := by
      apply AList.ext
      exact List.kerase_of_notMem_keys hmem
    rw [hnone, hsame, hzero, zero_add]

theorem total_insert (value : β) : total f (m.insert key value) = f value + total f (m.erase key) := rfl

theorem valueAt_insert_self (zero value : β) : valueAt zero (m.insert key value) key = value := by
  rw [valueAt, AList.lookup_insert, Option.getD_some]

theorem valueAt_insert_ne (zero value : β) {other : α} (h : other ≠ key) :
    valueAt zero (m.insert key value) other = valueAt zero m other := by
  rw [valueAt, AList.lookup_insert_ne h, valueAt]

end

section
variable [PartialOrder M] [IsOrderedAddMonoid M]

theorem total_le_total {f g : β → M} {m : AList (fun _ : α => β)} (zero : β)
    (h : ∀ key, f (valueAt zero m key) ≤ g (valueAt zero m key)) : total f m ≤ total g m := by
  apply List.sum_le_sum
  intro e he
  have hvalue : valueAt zero m e.1 = e.2 := by
    rw [valueAt, AList.mem_lookup_iff.mpr he, Option.getD_some]
  have hkey := h e.1
  rwa [hvalue] at hkey

theorem valueAt_le_total {f : β → M} {m : AList (fun _ : α => β)} {zero : β} (hzero : f zero = 0) (hpos : ∀ value, 0 ≤ f value)
    (key : α) : f (valueAt zero m key) ≤ total f m := by
  rw [total_eq f m key hzero]
  apply le_add_of_nonneg_right
  apply List.sum_nonneg
  intro x hx
  obtain ⟨e, _, rfl⟩ := List.mem_map.mp hx
  exact hpos e.2

end

/-! ## Keys -/

def others (m : AList (fun _ : α => β)) (key : α) : Nat := (m.keys.erase key).length

section
variable (m : AList (fun _ : α => β)) (key other : α) (value : β)

theorem others_eq : others m key = m.keys.length - (if key ∈ m then 1 else 0) := by
  rw [others, List.length_erase]
  by_cases hmem : key ∈ m.keys
  · rw [if_pos hmem, if_pos (AList.mem_keys.mpr hmem)]
  · rw [if_neg hmem, if_neg fun h => hmem (AList.mem_keys.mp h)]
    rfl

theorem length_keys_le : m.keys.length ≤ others m key + 1 := by
  rw [others_eq]
  split_ifs <;> omega

theorem others_insert_self : others (m.insert key value) key = others m key := by
  rw [others, AList.keys_insert, List.erase_cons_head, others]

theorem others_insert_of_mem (h : other ∈ m) : others (m.insert other value) key = others m key := by
  have hperm : (m.insert other value).keys.Perm m.keys := by
    rw [AList.keys_insert]
    exact (List.perm_cons_erase (AList.mem_keys.mp h)).symm
  exact (hperm.erase key).length_eq

theorem others_insert_le : others (m.insert other value) key ≤ others m key + 1 := by
  by_cases hmem : other ∈ m
  · rw [others_insert_of_mem m key other value hmem]
    exact Nat.le_succ _
  · have hkeys : (m.insert other value).keys = other :: m.keys := by
      rw [AList.keys_insert, List.erase_of_not_mem (fun h => hmem (AList.mem_keys.mpr h))]
    rw [others, hkeys]
    by_cases hkey : other = key
    · rw [hkey, List.erase_cons_head]
      exact length_keys_le m key
    · rw [List.erase_cons_tail (by simpa using hkey), List.length_cons]
      exact le_rfl

theorem others_erase_le : others (m.erase other) key ≤ others m key := by
  rw [others, AList.keys_erase, List.erase_comm, others]
  exact List.length_erase_le

end

end Buckets
