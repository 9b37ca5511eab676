import Mathlib.Data.Finset.Sort
import Mathlib.Data.List.Destutter
import Mathlib.Data.Set.Finite.Basic

/-!
# Finite sets as sorted lists

* `sorted` : the elements of a finite set in rising order, and `eq_sorted` : the only such list;
* `insertionSort_eq_sorted` : sorting a list without duplicates;
* `dedup_eq_sorted` : sorting any list, and dropping neighbours that are equal;
* `insert`, `erase`, `popFirst`, `values`;
* `insert_last` : a key above all others goes to the end;
* `popFirst_some` : what is popped is least.
-/

namespace Sorted
variable {α : Type*} [LinearOrder α]

open Classical in
noncomputable def sorted (S : Set α) : List α := if h : S.Finite then h.toFinset.sort (· ≤ ·) else []

theorem mem_sorted {S : Set α} (hfinite : S.Finite) (a : α) : a ∈ sorted S ↔ a ∈ S := by
  rw [sorted, dif_pos hfinite, Finset.mem_sort, Set.Finite.mem_toFinset]

theorem pairwise_sorted (S : Set α) : (sorted S).Pairwise (· < ·) := by
  rw [sorted]
  split
  · exact (Finset.sortedLT_sort _).pairwise
  · exact List.Pairwise.nil

theorem eq_sorted {S : Set α} {xs : List α} (hrising : xs.Pairwise (· < ·)) (hmem : ∀ a, a ∈ xs ↔ a ∈ S) :
    xs = sorted S := by
  have hfinite : S.Finite := xs.finite_toSet.subset fun a ha => (hmem a).mpr ha
  refine hrising.eq_of_mem_iff (pairwise_sorted S) fun a => ?_
  rw [hmem, mem_sorted hfinite]

theorem insertionSort_eq_sorted {S : Set α} {xs : List α} (hnodup : xs.Nodup) (hmem : ∀ a, a ∈ xs ↔ a ∈ S) :
    xs.insertionSort (· ≤ ·) = sorted S := by
  refine eq_sorted ?_ fun a => by rw [List.mem_insertionSort, hmem]
  have hdistinct : (xs.insertionSort (· ≤ ·)).Pairwise (· ≠ ·) := (List.perm_insertionSort _ xs).nodup_iff.mpr hnodup
  exact ((List.pairwise_insertionSort _ xs).and hdistinct).imp fun h => lt_of_le_of_ne h.1 h.2

theorem mem_destutter_ne (xs : List α) (a : α) : a ∈ xs.destutter (· ≠ ·) ↔ a ∈ xs := by
  refine ⟨fun h => (List.destutter_sublist _ xs).subset h, fun h => ?_⟩
  have hfrom (xs : List α) : ∀ b, a ∈ b :: xs → a ∈ xs.destutter' (· ≠ ·) b := by
    induction xs with
    | nil => exact fun b h => h
    | cons c xs ih =>
      intro b h
      by_cases hbc : b = c
      · rw [List.destutter'_cons_neg _ (not_not.mpr hbc)]
        refine ih b ?_
        rcases List.mem_cons.mp h with rfl | h
        · exact List.mem_cons_self
        · rwa [hbc]
      · rw [List.destutter'_cons_pos _ hbc]
        rcases List.mem_cons.mp h with rfl | h
        · exact List.mem_cons_self
        · exact List.mem_cons_of_mem _ (ih c h)
  cases xs with
  | nil => exact h
  | cons b xs => exact hfrom xs b h

/-- **Sorting and dropping equal neighbours** gives the set of the elements. -/
theorem dedup_eq_sorted {S : Set α} {xs : List α} (hmem : ∀ a, a ∈ xs ↔ a ∈ S) :
    (xs.insertionSort (· ≤ ·)).destutter (· ≠ ·) = sorted S := by
  refine eq_sorted ?_ fun a => by rw [mem_destutter_ne, List.mem_insertionSort, hmem]
  have hle : ((xs.insertionSort (· ≤ ·)).destutter (· ≠ ·)).Pairwise (· ≤ ·) :=
    (List.pairwise_insertionSort _ xs).sublist (List.destutter_sublist _ _)
  have hne := List.isChain_destutter (· ≠ ·) (xs.insertionSort (· ≤ ·))
  have hchain := hle.isChain
  rw [List.isChain_iff_forall_rel_of_append_cons_cons] at hne hchain
  refine List.isChain_iff_pairwise.mp (List.isChain_iff_forall_rel_of_append_cons_cons.mpr ?_)
  exact fun _ _ _ _ h => lt_of_le_of_ne (hchain h) (hne h)

end Sorted

/-! ## Maps in key order

A finite map over a linear order, as the list of its entries in increasing key order.
-/

structure SortedMap (κ : Type*) (α : Type*) [LinearOrder κ] where
  entries : List (κ × α)
  sorted : entries.Pairwise fun a b => a.1 < b.1

namespace SortedMap
variable {κ α : Type*} [LinearOrder κ]

instance : EmptyCollection (SortedMap κ α) := ⟨⟨[], .nil⟩⟩

def values (m : SortedMap κ α) : List α := m.entries.map Prod.snd

def erase (m : SortedMap κ α) (k : κ) : SortedMap κ α :=
  ⟨m.entries.filter (·.1 ≠ k), m.sorted.filter _⟩

def insert (m : SortedMap κ α) (k : κ) (v : α) : SortedMap κ α where
  entries := m.entries.filter (·.1 < k) ++ (k, v) :: m.entries.filter (k < ·.1)
  sorted := by
    refine List.pairwise_append.mpr ⟨m.sorted.filter _, List.pairwise_cons.mpr ⟨?_, m.sorted.filter _⟩, ?_⟩
    · intro e he
      simpa using (List.mem_filter.mp he).2
    · intro e he e' he'
      have hbelow : e.1 < k := by simpa using (List.mem_filter.mp he).2
      rcases List.mem_cons.mp he' with rfl | he'
      · exact hbelow
      · have habove : k < e'.1 := by simpa using (List.mem_filter.mp he').2
        exact hbelow.trans habove

/-- The entry of the least key, and the map without it. -/
def popFirst (m : SortedMap κ α) : Option ((κ × α) × SortedMap κ α) :=
  match m with
  | ⟨[], _⟩ => none
  | ⟨e :: entries, h⟩ => some (e, ⟨entries, (List.pairwise_cons.mp h).2⟩)

@[ext] theorem ext {a b : SortedMap κ α} (h : a.entries = b.entries) : a = b := by
  cases a
  cases b
  cases h
  rfl

instance [DecidableEq α] : DecidableEq (SortedMap κ α) := fun a b =>
  decidable_of_iff (a.entries = b.entries) ⟨ext, congrArg entries⟩

@[simp] theorem entries_empty : (∅ : SortedMap κ α).entries = [] := rfl

@[simp] theorem entries_erase (m : SortedMap κ α) (k : κ) : (m.erase k).entries = m.entries.filter (·.1 ≠ k) := rfl

theorem insert_last {m : SortedMap κ α} {k : κ} (v : α) (h : ∀ e ∈ m.entries, e.1 < k) :
    (m.insert k v).entries = m.entries ++ [(k, v)] := by
  have hbelow : m.entries.filter (·.1 < k) = m.entries := List.filter_eq_self.mpr fun e he => by simpa using h e he
  have habove : m.entries.filter (k < ·.1) = [] :=
    List.filter_eq_nil_iff.mpr fun e he => by simpa using (h e he).le
  show _ ++ (k, v) :: _ = _
  rw [hbelow, habove]

theorem erase_insert_last {m : SortedMap κ α} {k k' : κ} (v : α) (h : ∀ e ∈ m.entries, e.1 < k) (hne : k ≠ k') :
    (m.insert k v).erase k' = (m.erase k').insert k v := by
  have herased : ∀ e ∈ (m.erase k').entries, e.1 < k := fun e he => h e (List.mem_of_mem_filter he)
  apply ext
  rw [entries_erase, insert_last v h, insert_last v herased, List.filter_append, entries_erase]
  simp [hne]

theorem popFirst_none {m : SortedMap κ α} : m.popFirst = none ↔ m.entries = [] := by
  obtain ⟨entries, h⟩ := m
  cases entries <;> simp [popFirst]

theorem popFirst_some {m next : SortedMap κ α} {e : κ × α} :
    m.popFirst = some (e, next) ↔ m.entries = e :: next.entries := by
  obtain ⟨entries, h⟩ := m
  obtain ⟨later, hlater⟩ := next
  cases entries <;> simp [popFirst]

theorem entries_foldl_erase (ks : List κ) (m : SortedMap κ α) :
    (ks.foldl erase m).entries = m.entries.filter (·.1 ∉ ks) := by
  induction ks generalizing m with
  | nil => simp
  | cons k ks ih =>
    rw [List.foldl_cons, ih, entries_erase, List.filter_filter]
    refine List.filter_congr fun e _ => ?_
    simp [Bool.and_comm]

end SortedMap
