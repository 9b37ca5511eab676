import Mathlib.Data.List.Infix

/-!
# Cutting a list into groups

A list is cut behind the first element with which the group is ended, and again from there. The last group may be open.

* `cut` : the groups, the first of which is already begun;
* `IsCut` : groups that are ended one by one and no earlier, `cut_isCut` : the groups of `cut` are such;
* `cut_ended` : a group that is ended comes off, `IsCut.unique` : there is one way to cut.
-/

namespace Segments

variable {α : Type*} (ended : List α → Bool)

/-- The groups of a list, of which the first goes on with this one. -/
def cut : List α → List α → List (List α)
  | group, [] => if group.isEmpty then [] else [group]
  | group, x :: xs => if ended (group ++ [x]) then (group ++ [x]) :: cut [] xs else cut (group ++ [x]) xs

/-- The groups make up the list, none is empty, all but the last are ended, and none is ended before its end. -/
structure IsCut (groups : List (List α)) (xs : List α) : Prop where
  flatten : groups.flatten = xs
  nonempty : ∀ group ∈ groups, group ≠ []
  complete : ∀ group ∈ groups.dropLast, ended group = true
  minimal : ∀ group ∈ groups, ∀ part, part <+: group → part ≠ group → ended part = false

def Open (group : List α) : Prop := ∀ part, part <+: group → ended part = false

variable {ended}

theorem Open.concat {group : List α} (h : Open ended group) {x : α} (hx : ended (group ++ [x]) = false) :
    Open ended (group ++ [x]) := by
  intro part hpart
  rcases List.prefix_concat_iff.mp hpart with rfl | hbefore
  · exact hx
  · exact h part hbefore

theorem Open.minimal {group : List α} (h : Open ended group) (x : α) {part : List α} (hpart : part <+: group ++ [x])
    (hne : part ≠ group ++ [x]) : ended part = false := by
  rcases List.prefix_concat_iff.mp hpart with heq | hbefore
  · exact absurd heq hne
  · exact h part hbefore

theorem IsCut.cons {groups : List (List α)} {xs group : List α} (h : IsCut ended groups xs) (hne : group ≠ [])
    (hended : ended group = true) (hminimal : ∀ part, part <+: group → part ≠ group → ended part = false) :
    IsCut ended (group :: groups) (group ++ xs) := by
  refine ⟨?_, fun other hother => ?_, fun other hother => ?_, fun other hother => ?_⟩
  · rw [List.flatten_cons, h.flatten]
  · rcases List.mem_cons.mp hother with rfl | hrest
    · exact hne
    · exact h.nonempty other hrest
  · rcases groups with _ | ⟨next, groups⟩
    · exact absurd hother (List.not_mem_nil)
    · rw [List.dropLast_cons_cons] at hother
      rcases List.mem_cons.mp hother with rfl | hrest
      · exact hended
      · exact h.complete other hrest
  · rcases List.mem_cons.mp hother with rfl | hrest
    · exact hminimal
    · exact h.minimal other hrest

theorem cut_isCut {group : List α} (h : Open ended group) (xs : List α) : IsCut ended (cut ended group xs) (group ++ xs) := by
  induction xs generalizing group with
  | nil =>
    rw [cut, List.append_nil]
    rcases group with _ | ⟨x, group⟩
    · exact ⟨rfl, nofun, nofun, nofun⟩
    · refine ⟨List.flatten_singleton, fun other hother => ?_, nofun, fun other hother part hpart _ => ?_⟩
      · rw [List.mem_singleton.mp hother]
        exact List.cons_ne_nil x group
      · rw [List.mem_singleton.mp hother] at hpart
        exact h part hpart
  | cons x xs ih =>
    rw [cut, List.append_cons group x xs]
    rcases hended : ended (group ++ [x]) with _ | _
    · rw [if_neg Bool.false_ne_true]
      exact ih (h.concat hended)
    · rw [if_pos rfl]
      have hrest : IsCut ended (cut ended [] xs) xs := by
        have hempty : Open ended [] := fun part hpart => by
          rw [List.prefix_nil.mp hpart]
          exact h [] List.nil_prefix
        exact ih hempty
      exact hrest.cons (by simp) hended fun part hpart hne => h.minimal x hpart hne

theorem cut_ended {group : List α} (hne : group ≠ []) (hended : ended group = true)
    (hminimal : ∀ part, part <+: group → part ≠ group → ended part = false) (xs : List α) :
    cut ended [] (group ++ xs) = group :: cut ended [] xs := by
  -- the groups that begin with a part of this one, from the last part down
  suffices hparts : ∀ rest part, part ++ rest = group → rest ≠ [] → cut ended part (rest ++ xs) = group :: cut ended [] xs from
    hparts group [] rfl hne
  intro rest
  induction rest with
  | nil => exact fun part _ hrest => absurd rfl hrest
  | cons x rest ih =>
    intro part hgroup _
    rw [List.cons_append, cut]
    rcases eq_or_ne rest [] with rfl | hrest
    · rw [hgroup, if_pos hended, List.nil_append]
    · have hpart : part ++ [x] ++ rest = group := by rw [← hgroup, List.append_assoc, List.singleton_append]
      have hproper : part ++ [x] ≠ group := fun heq => hrest (List.append_right_eq_self.mp (hpart.trans heq.symm))
      rw [hminimal _ ⟨rest, hpart⟩ hproper, if_neg Bool.false_ne_true]
      exact ih (part ++ [x]) hpart hrest

theorem cut_open {group rest : List α} (hne : group ++ rest ≠ []) (h : ∀ part, part <+: group ++ rest → ended part = false) :
    cut ended group rest = [group ++ rest] := by
  induction rest generalizing group with
  | nil =>
    rw [List.append_nil] at hne ⊢
    rw [cut, if_neg (by rwa [List.isEmpty_iff])]
  | cons x rest ih =>
    rw [List.append_cons group x rest] at hne h ⊢
    rw [cut, h (group ++ [x]) ⟨rest, rfl⟩, if_neg Bool.false_ne_true]
    exact ih hne h

theorem IsCut.unique {groups : List (List α)} {xs : List α} (h : IsCut ended groups xs) : groups = cut ended [] xs := by
  induction groups generalizing xs with
  | nil => rw [← h.flatten, List.flatten_nil, cut, if_pos List.isEmpty_nil]
  | cons group groups ih =>
    have hne := h.nonempty group List.mem_cons_self
    have hminimal := h.minimal group List.mem_cons_self
    rw [← h.flatten, List.flatten_cons]
    have hrest : IsCut ended groups groups.flatten := by
      refine ⟨rfl, fun other hother => h.nonempty other (List.mem_cons_of_mem _ hother), fun other hother => ?_,
        fun other hother => h.minimal other (List.mem_cons_of_mem _ hother)⟩
      rcases groups with _ | ⟨next, groups⟩
      · exact absurd hother List.not_mem_nil
      · apply h.complete
        rw [List.dropLast_cons_cons]
        exact List.mem_cons_of_mem _ hother
    rcases hended : ended group with _ | _
    · rcases groups with _ | ⟨next, groups⟩
      · rw [List.flatten_nil, List.append_nil]
        refine (cut_open (by rwa [List.nil_append]) fun part hpart => ?_).symm
        rcases eq_or_ne part group with rfl | hproper
        · exact hended
        · exact hminimal part hpart hproper
      · have hcomplete := h.complete group (by rw [List.dropLast_cons_cons]; exact List.mem_cons_self)
        exact nomatch hended.symm.trans hcomplete
    · rw [cut_ended hne hended hminimal, ← ih hrest]

end Segments
