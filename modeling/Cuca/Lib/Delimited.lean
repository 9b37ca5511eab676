import Mathlib.Data.List.Basic

/-!
# Sections of a stream ended by a separator

`List.splitOnP p` cuts a list at the elements that satisfy `p`. Read as a stream, every piece but the last is a
section some separator ended and the last piece is still open:

* `complete p xs`, `pending p xs` : the ended sections, and the open one;
* `complete_append`, `pending_append` : what arrives later only sees the open section;
* `section_induction` : a stream is an open section, or an ended one and a shorter stream;
* `unlines sep`, `complete_unlines` : sections written back, each with its separator.
-/

namespace Delimited

variable {α : Type*} (p : α → Bool)

def complete (xs : List α) : List (List α) := (xs.splitOnP p).dropLast

def pending (xs : List α) : List α := (xs.splitOnP p).getLast (List.splitOnP_ne_nil p xs)

theorem splitOnP_eq (xs : List α) : xs.splitOnP p = complete p xs ++ [pending p xs] :=
  (List.dropLast_append_getLast (List.splitOnP_ne_nil p xs)).symm

theorem eq_of_splitOnP {xs : List α} {cs : List (List α)} {r : List α}
    (h : xs.splitOnP p = cs ++ [r]) : complete p xs = cs ∧ pending p xs = r := by
  have hsplit := splitOnP_eq p xs
  rw [h] at hsplit
  obtain ⟨hcs, hr⟩ := List.append_inj' hsplit rfl
  exact ⟨hcs.symm, (List.singleton_inj.mp hr).symm⟩

@[simp] theorem complete_nil : complete p [] = [] := rfl

@[simp] theorem pending_nil : pending p [] = [] := rfl

/-! ## A stream with and without a separator -/

theorem complete_of_forall {xs : List α} (h : ∀ x ∈ xs, p x = false) : complete p xs = [] :=
  (eq_of_splitOnP p (by rw [List.splitOnP_eq_singleton h, List.nil_append])).1

theorem pending_of_forall {xs : List α} (h : ∀ x ∈ xs, p x = false) : pending p xs = xs :=
  (eq_of_splitOnP p (by rw [List.splitOnP_eq_singleton h, List.nil_append])).2

theorem splitOnP_section {xs : List α} {sep : α} (h : ∀ x ∈ xs, p x = false) (hsep : p sep = true)
    (ys : List α) : (xs ++ sep :: ys).splitOnP p = (xs :: complete p ys) ++ [pending p ys] := by
  rw [List.splitOnP_append_cons_of_forall_mem h sep hsep, splitOnP_eq p ys, List.cons_append]

theorem complete_cons_section {xs : List α} {sep : α} (h : ∀ x ∈ xs, p x = false) (hsep : p sep = true)
    (ys : List α) : complete p (xs ++ sep :: ys) = xs :: complete p ys :=
  (eq_of_splitOnP p (splitOnP_section p h hsep ys)).1

theorem pending_cons_section {xs : List α} {sep : α} (h : ∀ x ∈ xs, p x = false) (hsep : p sep = true)
    (ys : List α) : pending p (xs ++ sep :: ys) = pending p ys :=
  (eq_of_splitOnP p (splitOnP_section p h hsep ys)).2

theorem section_induction {motive : List α → Prop}
    (opened : ∀ xs, (∀ x ∈ xs, p x = false) → motive xs)
    (ended : ∀ xs sep ys, (∀ x ∈ xs, p x = false) → p sep = true → motive ys → motive (xs ++ sep :: ys))
    (xs : List α) : motive xs := by
  suffices h : ∀ pre, (∀ x ∈ pre, p x = false) → motive (pre ++ xs) from h [] (by simp)
  induction xs with
  | nil => intro pre hpre; simpa using opened pre hpre
  | cons x xs ih =>
    intro pre hpre
    cases hx : p x with
    | true => exact ended pre x xs hpre hx (ih [] (by simp))
    | false =>
      have h := ih (pre ++ [x]) (by
        intro y hy
        rcases List.mem_append.mp hy with hy | hy
        · exact hpre y hy
        · rwa [List.mem_singleton.mp hy])
      simpa using h

theorem opened_or_ended (xs : List α) : (∀ x ∈ xs, p x = false) ∨
    ∃ s sep ys, (∀ x ∈ s, p x = false) ∧ p sep = true ∧ xs = s ++ sep :: ys := by
  induction xs using section_induction p with
  | opened xs h => exact Or.inl h
  | ended xs sep ys h hsep _ => exact Or.inr ⟨xs, sep, ys, h, hsep, rfl⟩

theorem pending_free (xs : List α) : ∀ x ∈ pending p xs, p x = false := by
  induction xs using section_induction p with
  | opened xs h => rwa [pending_of_forall p h]
  | ended xs sep ys h hsep ih => rwa [pending_cons_section p h hsep]

theorem complete_free (xs : List α) : ∀ s ∈ complete p xs, ∀ x ∈ s, p x = false := by
  induction xs using section_induction p with
  | opened xs h => simp [complete_of_forall p h]
  | ended xs sep ys h hsep ih =>
    rw [complete_cons_section p h hsep]
    intro s hs
    rcases List.mem_cons.mp hs with rfl | hs
    · exact h
    · exact ih s hs

theorem pending_subset (xs : List α) : ∀ x ∈ pending p xs, x ∈ xs := by
  induction xs using section_induction p with
  | opened xs h => rw [pending_of_forall p h]; exact fun x hx => hx
  | ended xs sep ys h hsep ih =>
    rw [pending_cons_section p h hsep]
    exact fun x hx => List.mem_append_right _ (List.mem_cons_of_mem _ (ih x hx))

/-! ## Arrival in pieces -/

theorem complete_append (xs ys : List α) :
    complete p (xs ++ ys) = complete p xs ++ complete p (pending p xs ++ ys) := by
  induction xs using section_induction p with
  | opened xs h => rw [complete_of_forall p h, pending_of_forall p h, List.nil_append]
  | ended xs sep zs h hsep ih =>
    rw [List.append_assoc, List.cons_append, complete_cons_section p h hsep, complete_cons_section p h hsep,
      pending_cons_section p h hsep, ih, List.cons_append]

theorem pending_append (xs ys : List α) : pending p (xs ++ ys) = pending p (pending p xs ++ ys) := by
  induction xs using section_induction p with
  | opened xs h => rw [pending_of_forall p h]
  | ended xs sep zs h hsep ih =>
    rw [List.append_assoc, List.cons_append, pending_cons_section p h hsep, pending_cons_section p h hsep, ih]

/-! ## Writing sections back -/

/-- Every section followed by the separator `sep`. -/
def unlines (sep : α) (ss : List (List α)) : List α := ss.flatMap (· ++ [sep])

@[simp] theorem unlines_nil (sep : α) : unlines sep [] = [] := rfl

@[simp] theorem unlines_append (sep : α) (ss ts : List (List α)) :
    unlines sep (ss ++ ts) = unlines sep ss ++ unlines sep ts := by
  simp [unlines]

@[simp] theorem unlines_singleton (sep : α) (s : List α) : unlines sep [s] = s ++ [sep] := by
  simp [unlines]

theorem unlines_cons (sep : α) (s : List α) (ss : List (List α)) :
    unlines sep (s :: ss) = s ++ sep :: unlines sep ss := by
  simp [unlines]

variable {p} in
theorem complete_unlines {sep : α} (hsep : p sep = true) (ss : List (List α))
    (hfree : ∀ s ∈ ss, ∀ x ∈ s, p x = false) (ys : List α) :
    complete p (unlines sep ss ++ ys) = ss ++ complete p ys := by
  induction ss with
  | nil => rfl
  | cons s ss ih =>
    rw [unlines_cons, List.append_assoc, List.cons_append,
      complete_cons_section p (hfree s (by simp)) hsep, ih (fun t ht => hfree t (by simp [ht])),
      List.cons_append]

variable {p} in
theorem pending_unlines {sep : α} (hsep : p sep = true) (ss : List (List α))
    (hfree : ∀ s ∈ ss, ∀ x ∈ s, p x = false) (ys : List α) :
    pending p (unlines sep ss ++ ys) = pending p ys := by
  induction ss with
  | nil => rfl
  | cons s ss ih =>
    rw [unlines_cons, List.append_assoc, List.cons_append,
      pending_cons_section p (hfree s (by simp)) hsep, ih (fun t ht => hfree t (by simp [ht]))]

end Delimited
