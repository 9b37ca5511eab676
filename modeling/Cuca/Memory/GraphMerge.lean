import Cuca.Memory.GraphIndex

/-!
# New ids of a merge

* `candidate_injective` : the candidates for an id differ;
* `probe_spec` : a probe gives the first one that is free;
* `Renaming`, `resolve_renaming` : the new ids are free and differ, and just the colliding ids get one;
* `finalId_fresh` : so the relationships of the other graph go under ids that are not in use, each under its own.
-/

namespace Cuca.Memory.MemoryGraph

theorem candidate_injective (orig : String) {m n : Nat} (h : candidate orig m = candidate orig n) : m = n := by
  have hdigits : Nat.toDigits 10 m = Nat.toDigits 10 n := by
    have hrepr : m.repr = n.repr := by simpa [candidate] using h
    rw [← Nat.toList_repr, ← Nat.toList_repr, hrepr]
  rw [← @Nat.ofDigitChars_ten_toDigits m, hdigits, Nat.ofDigitChars_ten_toDigits]

theorem probe_spec (orig : String) (used : String → Bool) (fuel n : Nat) :
    ∃ k ≤ fuel, probe orig used fuel n = candidate orig (n + k) ∧ (∀ j < k, used (candidate orig (n + j))) ∧
      (k < fuel → used (candidate orig (n + k)) = false) := by
  induction fuel generalizing n with
  | zero => exact ⟨0, Nat.le_refl _, rfl, fun j hj => absurd hj (Nat.not_lt_zero j), fun h => absurd h (Nat.lt_irrefl 0)⟩
  | succ fuel ih =>
    rw [probe]
    split
    · rename_i hused
      obtain ⟨k, hk, hprobe, hbefore, hstop⟩ := ih (n + 1)
      have hshift : n + 1 + k = n + (k + 1) := by omega
      refine ⟨k + 1, Nat.succ_le_succ hk, by rw [hprobe, hshift], fun j hj => ?_, fun hless => ?_⟩
      · rcases Nat.eq_zero_or_pos j with rfl | hpos
        · exact hused
        · have hearlier := hbefore (j - 1) (by omega)
          rwa [show n + 1 + (j - 1) = n + j by omega] at hearlier
      · rw [← hshift]
        exact hstop (by omega)
    · rename_i hfree
      exact ⟨0, Nat.zero_le _, rfl, fun j hj => absurd hj (Nat.not_lt_zero j), fun _ => by simpa using hfree⟩

theorem probe_free (orig : String) (used : String → Bool) {ids : List String} (hused : ∀ id, used id → id ∈ ids)
    {fuel : Nat} (hfuel : ids.length ≤ fuel) (n : Nat) : used (probe orig used fuel n) = false := by
  obtain ⟨k, hk, hprobe, hbefore, hstop⟩ := probe_spec orig used fuel n
  rcases Nat.lt_or_ge k fuel with hless | hlast
  · rw [hprobe]
    exact hstop hless
  by_contra hnot
  rw [hprobe, Bool.not_eq_false] at hnot
  have hall : ∀ j ≤ fuel, used (candidate orig (n + j)) := fun j hj => by
    rcases Nat.lt_or_ge j k with hj | hjk
    · exact hbefore j hj
    · rwa [show j = k by omega]
  have hnodup : ((List.range (fuel + 1)).map fun k => candidate orig (n + k)).Nodup := by
    refine (List.nodup_map_iff_inj_on List.nodup_range).mpr fun j _ k _ heq => ?_
    have := candidate_injective orig heq
    omega
  have hsub : ((List.range (fuel + 1)).map fun k => candidate orig (n + k)) ⊆ ids := by
    intro id hid
    obtain ⟨k, hk, rfl⟩ := List.mem_map.mp hid
    exact hused _ (hall k (Nat.le_of_lt_succ (List.mem_range.mp hk)))
  have hlength := (hnodup.subperm hsub).length_le
  rw [List.length_map, List.length_range] at hlength
  omega

/-- The new ids are free, and differ. -/
structure Renaming (taken assigned : List String) (rename : AList (fun _ : String => String)) : Prop where
  fresh : ∀ orig new, rename.lookup orig = some new → new ∉ taken
  assigned : ∀ orig new, rename.lookup orig = some new → new ∈ assigned
  injective : ∀ a b new, rename.lookup a = some new → rename.lookup b = some new → a = b

theorem Renaming.insert {taken assigned : List String} {rename : AList (fun _ : String => String)}
    (h : Renaming taken assigned rename) {orig free : String} (htaken : free ∉ taken) (hassigned : free ∉ assigned) :
    Renaming taken (free :: assigned) (rename.insert orig free) := by
  have hcases {a new : String} (ha : (rename.insert orig free).lookup a = some new) :
      (a = orig ∧ new = free) ∨ (a ≠ orig ∧ rename.lookup a = some new) := by
    by_cases heq : a = orig
    · subst heq
      rw [AList.lookup_insert] at ha
      exact .inl ⟨rfl, (Option.some.inj ha).symm⟩
    · rw [AList.lookup_insert_ne heq] at ha
      exact .inr ⟨heq, ha⟩
  refine ⟨fun a new ha => ?_, fun a new ha => ?_, fun a b new ha hb => ?_⟩
  · rcases hcases ha with ⟨-, rfl⟩ | ⟨-, hold⟩
    · exact htaken
    · exact h.fresh a new hold
  · rcases hcases ha with ⟨-, rfl⟩ | ⟨-, hold⟩
    · exact List.mem_cons_self
    · exact List.mem_cons_of_mem _ (h.assigned a new hold)
  · rcases hcases ha with ⟨rfl, rfl⟩ | ⟨-, holda⟩
    · rcases hcases hb with ⟨rfl, -⟩ | ⟨-, holdb⟩
      · rfl
      · exact absurd (h.assigned b _ holdb) hassigned
    · rcases hcases hb with ⟨rfl, rfl⟩ | ⟨-, holdb⟩
      · exact absurd (h.assigned a _ holda) hassigned
      · exact h.injective a b new holda holdb

/-- The new id of one more colliding id. -/
def assign (taken : List String) (s : List String × AList (fun _ : String => String)) (orig : String) :
    List String × AList (fun _ : String => String) :=
  let free := probe orig (fun id => id ∈ taken ∨ id ∈ s.1) (taken.length + s.1.length) 2
  (free :: s.1, s.2.insert orig free)

theorem resolve_eq (taken collisions : List String) : resolve taken collisions = collisions.foldl (assign taken) ([], ∅) :=
  rfl

theorem free_spec (orig : String) (taken assigned : List String) :
    probe orig (fun id => id ∈ taken ∨ id ∈ assigned) (taken.length + assigned.length) 2 ∉ taken ∧
      probe orig (fun id => id ∈ taken ∨ id ∈ assigned) (taken.length + assigned.length) 2 ∉ assigned := by
  have hfree := probe_free orig (fun id => id ∈ taken ∨ id ∈ assigned)
    (fun id hid => List.mem_append.mpr (by simpa using hid)) (by rw [List.length_append]) 2
  simpa using hfree

theorem resolve_renaming (taken collisions : List String) :
    Renaming taken (resolve taken collisions).1 (resolve taken collisions).2 ∧
      ∀ orig, orig ∈ (resolve taken collisions).2 ↔ orig ∈ collisions := by
  have hfold (s : List String × AList (fun _ : String => String)) (h : Renaming taken s.1 s.2) :
      Renaming taken (collisions.foldl (assign taken) s).1 (collisions.foldl (assign taken) s).2 ∧
        ∀ orig, orig ∈ (collisions.foldl (assign taken) s).2 ↔ orig ∈ s.2 ∨ orig ∈ collisions := by
    induction collisions generalizing s with
    | nil => exact ⟨h, fun orig => by simp⟩
    | cons id collisions ih =>
      obtain ⟨htaken, hassigned⟩ := free_spec id taken s.1
      obtain ⟨hrest, hmem⟩ := ih (assign taken s id) (h.insert htaken hassigned)
      refine ⟨hrest, fun orig => ?_⟩
      rw [List.foldl_cons, hmem, List.mem_cons]
      show orig ∈ s.2.insert id _ ∨ _ ↔ _
      rw [AList.mem_insert]
      tauto
  rw [resolve_eq]
  obtain ⟨hrenaming, hmem⟩ := hfold ([], ∅)
    ⟨fun _ _ h => by simp at h, fun _ _ h => by simp at h, fun _ _ _ h => by simp at h⟩
  exact ⟨hrenaming, fun orig => by simp [hmem]⟩

def finalId (rename : AList (fun _ : String => String)) (orig : String) : String := (rename.lookup orig).getD orig

theorem finalId_fresh {own others collisions : List String}
    (hcollisions : ∀ id, id ∈ collisions ↔ id ∈ others ∧ id ∈ own) :
    (∀ id ∈ others, finalId (resolve (own ++ others) collisions).2 id ∉ own) ∧
      ∀ a ∈ others, ∀ b ∈ others, finalId (resolve (own ++ others) collisions).2 a =
        finalId (resolve (own ++ others) collisions).2 b → a = b := by
  obtain ⟨hrenaming, hmem⟩ := resolve_renaming (own ++ others) collisions
  set rename := (resolve (own ++ others) collisions).2
  have hkept {id : String} (hid : id ∈ others) (hnone : rename.lookup id = none) : id ∉ own := fun hown =>
    AList.lookup_eq_none.mp hnone ((hmem id).mpr ((hcollisions id).mpr ⟨hid, hown⟩))
  constructor
  · intro id hid
    rw [finalId]
    rcases hnew : rename.lookup id with _ | new
    · exact hkept hid hnew
    · exact fun hown => hrenaming.fresh id new hnew (List.mem_append_left _ hown)
  · intro a ha b hb heq
    rw [finalId, finalId] at heq
    rcases hnewa : rename.lookup a with _ | newa <;> rcases hnewb : rename.lookup b with _ | newb
    · simpa [hnewa, hnewb] using heq
    · obtain rfl : a = newb := by simpa [hnewa, hnewb] using heq
      exact absurd (List.mem_append_right own ha) (hrenaming.fresh b a hnewb)
    · obtain rfl : newa = b := by simpa [hnewa, hnewb] using heq
      exact absurd (List.mem_append_right own hb) (hrenaming.fresh a newa hnewa)
    · obtain rfl : newa = newb := by simpa [hnewa, hnewb] using heq
      exact hrenaming.injective a b newa hnewa hnewb

end Cuca.Memory.MemoryGraph
