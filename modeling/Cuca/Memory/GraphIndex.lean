import Cuca.Memory.Graph

/-!
# What an index says of the relationships

`ends` gives the node of each stored relationship, in the direction of the index.

* `Index.Lists` : the lists have the stored relationships, and the positions their ids;
* `Index.Mirrors` : and each position is the slot;
* `unlink_eq` : an unlink takes the relationship out of its list and its position off the record, and moves no other
  position, whether the element it swapped has moved or not;
* `unlinkAll_mirrors` : so slots survive exactly the removals of what stands last.
-/

namespace Cuca.Memory
open SwapRemove

namespace Index

/-- Each stored relationship is listed once, under its node, and has a position; nothing else is and has. -/
structure Lists (x : Index) (ends : String → Option String) : Prop where
  nodup : ∀ node, (x.listAt node).Nodup
  mem : ∀ node id, id ∈ x.listAt node ↔ ends id = some node
  keys : ∀ id, id ∈ x.positions ↔ (ends id).isSome

/-- And each position is the slot in the list. -/
structure Mirrors (x : Index) (ends : String → Option String) : Prop extends Lists x ends where
  slots : ∀ id node i, ends id = some node → x.positions.lookup id = some i → (x.listAt node)[i]? = some id

theorem empty_mirrors : empty.Mirrors fun _ => none where
  nodup _ := List.nodup_nil
  mem _ _ := by simp [empty, listAt]
  keys _ := by simp [empty]
  slots _ _ _ hends := by simp at hends

theorem Lists.congr {x y : Index} {ends : String → Option String} (h : x.Lists ends) (hlists : y.listAt = x.listAt)
    (hpositions : y.positions = x.positions) : y.Lists ends := by
  refine ⟨?_, ?_, ?_⟩
  · rw [hlists]
    exact h.nodup
  · rw [hlists]
    exact h.mem
  · rw [hpositions]
    exact h.keys

theorem Mirrors.congr {x y : Index} {ends : String → Option String} (h : x.Mirrors ends)
    (hlists : y.listAt = x.listAt) (hpositions : y.positions = x.positions) : y.Mirrors ends := by
  refine ⟨h.toLists.congr hlists hpositions, ?_⟩
  rw [hlists, hpositions]
  exact h.slots

/-! ## Links -/

theorem listAt_insert (x : Index) (positions : AList (fun _ : String => Nat)) (node n : String)
    (list : List String) :
    (⟨x.lists.insert node list, positions⟩ : Index).listAt n = if n = node then list else x.listAt n := by
  by_cases h : n = node
  · rw [if_pos h, h, listAt, AList.lookup_insert, Option.getD_some]
  · rw [if_neg h, listAt, AList.lookup_insert_ne h, listAt]

theorem listAt_link (x : Index) (node id n : String) :
    (x.link node id).listAt n = if n = node then x.listAt node ++ [id] else x.listAt n := listAt_insert ..

section
variable {x : Index} {ends : String → Option String} {id node : String}

theorem Lists.link (h : x.Lists ends) (hfresh : ends id = none) (node : String) :
    (x.link node id).Lists (Function.update ends id (some node)) := by
  have hout : ∀ n, id ∉ x.listAt n := fun n hmem => by simp [(h.mem n id).mp hmem] at hfresh
  refine ⟨fun n => ?_, fun n e => ?_, fun e => ?_⟩
  · rw [listAt_link]
    split
    · exact (h.nodup node).append (List.nodup_singleton id) (List.disjoint_singleton.mpr (hout node))
    · exact h.nodup n
  · rw [listAt_link]
    by_cases he : e = id
    · subst he
      rw [Function.update_self]
      split
      · rename_i hn
        simp [hn]
      · rename_i hn
        simp [hout n, Ne.symm hn]
    · rw [Function.update_of_ne he, ← h.mem n e]
      split
      · rename_i hn
        simp [hn, he]
      · exact Iff.rfl
  · show e ∈ x.positions.insert id _ ↔ _
    rw [AList.mem_insert, h.keys]
    by_cases he : e = id
    · simp [he]
    · simp [he]

theorem link_mirrors (h : x.Lists ends) (hfresh : ends id = none) (node : String) :
    (x.link node id).Mirrors (Function.update ends id (some node)) ↔ x.Mirrors ends := by
  constructor
  · refine fun hlinked => ⟨h, fun e n i hends hi => ?_⟩
    have he : e ≠ id := fun heq => by simp [heq, hfresh] at hends
    have hslot := hlinked.slots e n i (by rw [Function.update_of_ne he, hends])
      (by rw [link, AList.lookup_insert_ne he, hi])
    rw [listAt_link] at hslot
    split at hslot
    · rename_i hn
      rw [List.getElem?_append] at hslot
      split at hslot
      · rwa [hn]
      · obtain rfl : id = e := List.mem_singleton.mp (List.mem_of_getElem? hslot) |>.symm
        exact absurd rfl he
    · exact hslot
  · refine fun hmirrors => ⟨h.link hfresh node, fun e n i hends hi => ?_⟩
    rw [listAt_link]
    by_cases he : e = id
    · subst he
      rw [Function.update_self] at hends
      rw [link, AList.lookup_insert] at hi
      obtain rfl : node = n := by simpa using hends
      obtain rfl : (x.listAt node).length = i := by simpa using hi
      simp
    · rw [Function.update_of_ne he] at hends
      rw [link, AList.lookup_insert_ne he] at hi
      have hslot := hmirrors.slots e n i hends hi
      split
      · rename_i hn
        subst hn
        exact List.getElem?_append_left (List.getElem?_eq_some_iff.mp hslot).1 ▸ hslot
      · exact hslot

/-! ## Unlinks -/

theorem slot_some (x : Index) {list : List String} (hmem : id ∈ list) :
    ∃ i, x.slot list id = some i ∧ list[i]? = some id := by
  rw [slot]
  rcases hrecord : (x.positions.lookup id).filter fun i => list[i]? = some id with _ | i
  · obtain ⟨i, hi⟩ := Option.isSome_iff_exists.mp (List.isSome_idxOf?.mpr hmem)
    refine ⟨i, by rw [Option.none_or, hi], ?_⟩
    obtain ⟨hlt, hat, -⟩ := List.idxOf?_eq_some_iff.mp hi
    exact List.getElem?_eq_some_iff.mpr ⟨hlt, hat⟩
  · refine ⟨i, rfl, ?_⟩
    simpa using (Option.filter_eq_some_iff.mp hrecord).2

theorem unlink_eq (h : x.Lists ends) (hends : ends id = some node) :
    ∃ i, (x.listAt node)[i]? = some id ∧
      x.unlink node id = ⟨x.lists.insert node (swapRemove (x.listAt node) i), x.positions.erase id⟩ := by
  have hmem := (h.mem node id).mpr hends
  rcases hlist : x.lists.lookup node with _ | list
  · simp [listAt, hlist] at hmem
  have hat : x.listAt node = list := by rw [listAt, hlist, Option.getD_some]
  rw [hat] at hmem ⊢
  obtain ⟨i, hslot, hi⟩ := x.slot_some hmem
  refine ⟨i, hi, ?_⟩
  simp only [unlink, hlist, hslot, hi]
  rw [if_neg (not_not.mpr rfl)]

theorem Lists.unlink (h : x.Lists ends) (hends : ends id = some node) :
    (x.unlink node id).Lists (Function.update ends id none) := by
  obtain ⟨i, hi, heq⟩ := unlink_eq h hends
  have hperm := swapRemove_perm hi
  have hnodup := hperm.nodup_iff.mpr (h.nodup node)
  rw [heq]
  refine ⟨fun n => ?_, fun n e => ?_, fun e => ?_⟩
  · rw [listAt_insert]
    split
    · exact (List.nodup_cons.mp hnodup).2
    · exact h.nodup n
  · rw [listAt_insert]
    have hlist : e ∈ swapRemove (x.listAt node) i ↔ e ≠ id ∧ e ∈ x.listAt node := by
      rw [← hperm.mem_iff, List.mem_cons]
      constructor
      · intro he
        exact ⟨fun heq => (List.nodup_cons.mp hnodup).1 (heq ▸ he), .inr he⟩
      · rintro ⟨hne, he⟩
        exact he.resolve_left hne
    by_cases he : e = id
    · subst he
      rw [Function.update_self]
      split
      · simp [hlist]
      · rename_i hn
        simp [h.mem, hends, Ne.symm hn]
    · rw [Function.update_of_ne he, ← h.mem n e]
      split
      · rename_i hn
        rw [hlist, hn]
        simp [he]
      · exact Iff.rfl
  · rw [AList.mem_erase, h.keys]
    by_cases he : e = id
    · simp [he]
    · simp [he]

/-! ## Several unlinks -/

def without (ends : String → Option String) (ids : List String) (id : String) : Option String :=
  if id ∈ ids then none else ends id

theorem without_nil (ends : String → Option String) : without ends [] = ends := by
  funext e
  simp [without]

theorem without_cons (ends : String → Option String) (id : String) (ids : List String) :
    without (Function.update ends id none) ids = without ends (id :: ids) := by
  funext e
  by_cases he : e = id
  · simp [without, he]
  · simp [without, he]

/-- The unlink of a relationship that may not be stored. -/
def drop (x : Index) (ends : String → Option String) (id : String) : Index :=
  match ends id with
  | none => x
  | some node => x.unlink node id

def unlinkAll (x : Index) (ends : String → Option String) : List String → Index
  | [] => x
  | id :: ids => (x.drop ends id).unlinkAll (Function.update ends id none) ids

theorem Lists.drop (h : x.Lists ends) (id : String) : (x.drop ends id).Lists (Function.update ends id none) := by
  rw [Index.drop]
  split
  · rename_i hends
    rwa [Function.update_eq_self_iff.mpr hends.symm]
  · rename_i node hends
    exact h.unlink hends

theorem Lists.unlinkAll (h : x.Lists ends) (ids : List String) :
    (x.unlinkAll ends ids).Lists (without ends ids) := by
  induction ids generalizing x ends with
  | nil => rwa [without_nil]
  | cons id ids ih => exact without_cons ends id ids ▸ ih (h.drop id)

theorem drop_positions (h : x.Lists ends) {e : String} (he : e ≠ id) :
    (x.drop ends id).positions.lookup e = x.positions.lookup e := by
  rw [drop]
  split
  · rfl
  · rename_i node hends
    obtain ⟨i, -, heq⟩ := unlink_eq h hends
    rw [heq, AList.lookup_erase_ne he]

theorem unlinkAll_positions (h : x.Lists ends) {ids : List String} {e : String} (he : e ∉ ids) :
    (x.unlinkAll ends ids).positions.lookup e = x.positions.lookup e := by
  induction ids generalizing x ends with
  | nil => rfl
  | cons id ids ih =>
    obtain ⟨hne, hrest⟩ := not_or.mp (List.mem_cons.not.mp he)
    exact (ih (h.drop id) hrest).trans (drop_positions h hne)

theorem drop_kept (h : x.Lists ends) {n : String} {kept gone : List String} (hlist : x.listAt n = kept ++ gone)
    (hkept : id ∉ kept) : ∃ gone', gone' ⊆ gone ∧ (x.drop ends id).listAt n = kept ++ gone' := by
  rw [drop]
  split
  · exact ⟨gone, List.Subset.refl _, hlist⟩
  rename_i node hends
  obtain ⟨i, hi, heq⟩ := unlink_eq h hends
  rw [heq, listAt_insert]
  split
  · rename_i hn
    subst hn
    rw [hlist] at hi ⊢
    have hbehind : kept.length ≤ i := by
      by_contra hbefore
      rw [List.getElem?_append_left (by omega)] at hi
      exact hkept (List.mem_of_getElem? hi)
    have hgone : gone ≠ [] := by
      rintro rfl
      rw [List.getElem?_append_right hbehind] at hi
      simp at hi
    refine ⟨_, ?_, swapRemove_append kept hgone hbehind⟩
    rw [List.getElem?_append_right hbehind] at hi
    exact fun e he => (swapRemove_perm hi).subset (List.mem_cons_of_mem _ he)
  · exact ⟨gone, List.Subset.refl _, hlist⟩

theorem unlinkAll_kept (h : x.Lists ends) {ids : List String} {n : String} {kept gone : List String}
    (hlist : x.listAt n = kept ++ gone) (hkept : ∀ e ∈ kept, e ∉ ids) :
    ∃ gone', gone' ⊆ gone ∧ (x.unlinkAll ends ids).listAt n = kept ++ gone' := by
  induction ids generalizing x ends gone with
  | nil => exact ⟨gone, List.Subset.refl _, hlist⟩
  | cons id ids ih =>
    obtain ⟨gone₁, hsub₁, hlist₁⟩ := drop_kept h hlist (fun hid => hkept id hid List.mem_cons_self)
    obtain ⟨gone₂, hsub₂, hlist₂⟩ := ih (h.drop id) hlist₁ fun e he hin => hkept e he (List.mem_cons_of_mem _ hin)
    exact ⟨gone₂, List.Subset.trans hsub₂ hsub₁, hlist₂⟩

/-- In a list, what is in `ids` stands behind all that is not. -/
def Trailing (ids list : List String) : Prop := list = list.filter (· ∉ ids) ++ list.filter (· ∈ ids)

instance (ids list : List String) : Decidable (Trailing ids list) := inferInstanceAs (Decidable (_ = _))

/-- **Which removals keep the slots**: those of what stands last in every list. -/
theorem unlinkAll_mirrors (h : x.Mirrors ends) (ids : List String) :
    (x.unlinkAll ends ids).Mirrors (without ends ids) ↔ ∀ n, Trailing ids (x.listAt n) := by
  have hlists := h.toLists.unlinkAll ids
  constructor
  · intro hleft n
    -- the final list has just what is kept, so the recorded slots of that are below its length
    have hperm : ((x.unlinkAll ends ids).listAt n).Perm ((x.listAt n).filter (· ∉ ids)) := by
      refine (List.perm_ext_iff_of_nodup (hlists.nodup n) ((h.nodup n).filter _)).mpr fun e => ?_
      rw [hlists.mem, List.mem_filter, h.mem, without]
      by_cases he : e ∈ ids
      · simp [he]
      · simp [he]
    have hcount : ((x.unlinkAll ends ids).listAt n).length = (x.listAt n).countP (· ∉ ids) := by
      rw [hperm.length_eq, List.countP_eq_length_filter]
    have hsplit := trailing_of_lt (p := fun e => decide (e ∉ ids)) fun i e he hstays => by
      have hends : ends e = some n := (h.mem n e).mp (List.mem_of_getElem? he)
      have hstays : e ∉ ids := by simpa using hstays
      obtain ⟨j, hj⟩ := Option.isSome_iff_exists.mp (AList.lookup_isSome.mpr ((h.keys e).mpr (by simp [hends])))
      have hslot := h.slots e n j hends hj
      obtain rfl : i = j := (List.getElem?_inj (List.getElem?_eq_some_iff.mp he).1 (h.nodup n)).mp (by rw [he, hslot])
      have hfinal := hleft.slots e n i (by rw [without, if_neg hstays, hends])
        (by rw [unlinkAll_positions h.toLists hstays, hj])
      obtain ⟨hlt, -⟩ := List.getElem?_eq_some_iff.mp hfinal
      omega
    simpa [Trailing] using hsplit
  · refine fun htrailing => ⟨hlists, fun e n i hends hi => ?_⟩
    have he : e ∉ ids := fun hmem => by simp [without, hmem] at hends
    rw [without, if_neg he] at hends
    rw [unlinkAll_positions h.toLists he] at hi
    have hslot := h.slots e n i hends hi
    obtain ⟨gone', -, hlist⟩ := unlinkAll_kept h.toLists (htrailing n) fun e he => by simpa using (List.mem_filter.mp he).2
    rw [htrailing n] at hslot
    rw [hlist]
    rw [List.getElem?_append] at hslot ⊢
    split at hslot
    · rename_i hlt
      rwa [if_pos hlt]
    · have hgone := List.mem_of_getElem? hslot
      exact absurd (by simpa using (List.mem_filter.mp hgone).2) he

end
end Index
end Cuca.Memory
