import Mathlib.Data.List.AList
import Mathlib.Data.Set.Card

/-!
# Hash maps

Hash maps are association lists without a second entry for a key; no result depends on their order.

* `retain` : the entries that satisfy a predicate;
* `entries_erase`, `perm_erase` : what an erasure leaves;
* `Keyed` : every record of a hash map is under its id;
* `records` : the set of the records, where an insertion and an erasure are `records_insert` and `records_erase`;
* `countP_keys` : the size of a set of keys.
-/

namespace Assoc
variable {α : Type*} {β : α → Type*}

def retain (p : Sigma β → Bool) (m : AList β) : AList β :=
  ⟨m.entries.filter p, m.nodupKeys.sublist List.filter_sublist⟩

@[simp] theorem entries_retain (p : Sigma β → Bool) (m : AList β) : (retain p m).entries = m.entries.filter p := rfl

variable [DecidableEq α]

theorem kerase_eq_filter (a : α) {l : List (Sigma β)} (h : l.NodupKeys) : l.kerase a = l.filter (·.1 ≠ a) := by
  induction l with
  | nil => rfl
  | cons e l ih =>
    obtain ⟨hfresh, hrest⟩ := List.nodupKeys_cons.mp h
    by_cases he : a = e.1
    · have hkept : l.filter (·.1 ≠ a) = l := by
        refine List.filter_eq_self.mpr fun e' he' => ?_
        have hne : e'.1 ≠ a := fun heq => hfresh (he ▸ heq ▸ List.mem_keys_of_mem he')
        simpa using hne
      rw [List.kerase_cons_eq he, List.filter_cons_of_neg (by simpa using he.symm), hkept]
    · rw [List.kerase_cons_ne he, List.filter_cons_of_pos (by simpa using Ne.symm he), ih hrest]

theorem entries_erase (a : α) (m : AList β) : (m.erase a).entries = m.entries.filter (·.1 ≠ a) :=
  kerase_eq_filter a m.nodupKeys

theorem insert_erase (a : α) (b : β a) (m : AList β) : (m.erase a).insert a b = m.insert a b := by
  apply AList.ext
  show _ :: (m.entries.kerase a).kerase a = _ :: m.entries.kerase a
  rw [List.kerase_of_notMem_keys (List.notMem_keys_kerase a m.nodupKeys)]

theorem perm_erase {a : α} {b : β a} {m : AList β} (h : m.lookup a = some b) :
    m.entries.Perm (⟨a, b⟩ :: (m.erase a).entries) := by
  have hmem : a ∈ m.entries.keys := AList.lookup_isSome.mp (by rw [h]; rfl)
  obtain ⟨b', before, after, _, hsplit, herase⟩ := List.exists_of_kerase hmem
  obtain rfl : b' = b := by
    have hsame : m.lookup a = some b' := AList.mem_lookup_iff.mpr (by rw [hsplit]; simp)
    exact Option.some.inj (hsame.symm.trans h)
  have hleft : (m.erase a).entries = before ++ after := herase
  rw [hleft, hsplit]
  exact List.perm_middle

end Assoc

/-! ## Records stored under their own ids -/

namespace Assoc
variable {κ α : Type*} [DecidableEq κ] (id : α → κ)

def Keyed (m : AList (fun _ : κ => α)) : Prop := ∀ k x, m.lookup k = some x → id x = k

def records (m : AList (fun _ : κ => α)) : Set α := {x | m.lookup (id x) = some x}

variable {id} {m : AList (fun _ : κ => α)}

theorem Keyed.mem_records (h : Keyed id m) {k : κ} {x : α} (hx : m.lookup k = some x) : x ∈ records id m := by
  rw [records, Set.mem_ofPred_eq, h k x hx, hx]

theorem Keyed.image_records (h : Keyed id m) (k : κ) : k ∈ id '' records id m ↔ k ∈ m := by
  constructor
  · rintro ⟨x, hx, rfl⟩
    exact AList.lookup_isSome.mp (by rw [show m.lookup (id x) = some x from hx]; rfl)
  · intro hk
    obtain ⟨x, hx⟩ := Option.isSome_iff_exists.mp (AList.lookup_isSome.mpr hk)
    exact ⟨x, h.mem_records hx, h k x hx⟩

theorem records_injOn : (records id m).InjOn id := fun x hx y hy heq => by
  have hsame : some x = some y := by rw [← show m.lookup (id x) = some x from hx, heq, hy]
  exact Option.some.inj hsame

theorem records_finite : (records id m).Finite := by
  refine (m.entries.map (·.2)).finite_toSet.subset fun x hx => ?_
  exact List.mem_map.mpr ⟨⟨id x, x⟩, AList.mem_lookup_iff.mp hx, rfl⟩

theorem Keyed.insert (h : Keyed id m) (x : α) : Keyed id (m.insert (id x) x) := by
  intro k y hy
  by_cases hk : k = id x
  · subst hk
    rw [AList.lookup_insert] at hy
    rw [Option.some.inj hy]
  · rw [AList.lookup_insert_ne hk] at hy
    exact h k y hy

theorem records_insert (x : α) :
    records id (m.insert (id x) x) = insert x {y ∈ records id m | id y ≠ id x} := by
  ext y
  by_cases hy : id y = id x
  · constructor
    · intro hmem
      have hlookup : (m.insert (id x) x).lookup (id y) = some y := hmem
      rw [hy, AList.lookup_insert] at hlookup
      exact .inl (Option.some.inj hlookup).symm
    · rintro (rfl | ⟨-, hne⟩)
      · exact AList.lookup_insert m
      · exact absurd hy hne
  · have hlookup : (m.insert (id x) x).lookup (id y) = m.lookup (id y) := AList.lookup_insert_ne hy
    constructor
    · intro hmem
      exact .inr ⟨hlookup.symm.trans hmem, hy⟩
    · rintro (rfl | ⟨hmem, -⟩)
      · exact absurd rfl hy
      · exact hlookup.trans hmem

theorem Keyed.of_lookup (h : Keyed id m) {m' : AList (fun _ : κ => α)} (keeps : κ → Prop) [DecidablePred keeps]
    (hlookup : ∀ k, m'.lookup k = if keeps k then m.lookup k else none) :
    Keyed id m' ∧ records id m' = {x ∈ records id m | keeps (id x)} := by
  refine ⟨fun k x hx => ?_, ?_⟩
  · rw [hlookup] at hx
    split at hx
    · exact h k x hx
    · cases hx
  · ext x
    show m'.lookup (id x) = some x ↔ m.lookup (id x) = some x ∧ keeps (id x)
    rw [hlookup]
    by_cases hk : keeps (id x)
    · simp [hk]
    · simp [hk]

theorem countP_keys (m : AList (fun _ : κ => α)) (p : κ → Bool) {S : Set κ} (hS : ∀ k, k ∈ S ↔ k ∈ m ∧ p k) :
    m.keys.countP p = S.ncard := by
  have hset : S = ((m.keys.filter p).toFinset : Set κ) := by
    ext k
    rw [hS, Finset.mem_coe, List.mem_toFinset, List.mem_filter, AList.mem_keys]
  rw [hset, Set.ncard_coe_finset, List.toFinset_card_of_nodup (m.keys_nodup.filter p), List.countP_eq_length_filter]

end Assoc
