import Mathlib.Data.List.Basic
import Mathlib.Data.List.Induction

/-!
# Regular expressions by backtracking

A pattern is tried at the beginning of a text by backtracking. `ends` are the lengths of its matches in the order in which
they are tried: an alternative before the next one, more repetitions before fewer. The first of them is what is matched.

* `Pattern`, `Pattern.ends`, `Pattern.first` : patterns over any alphabet and their matches;
* `cut` : the leftmost matches of a text, and the gaps between them;
* `first_seq`, `first_alt`, `first_opt` : the first match of a compound pattern;
* `ends_star` : the repetitions of one class, from the longest on;
* `backtrack` : the trials from a length down, and `first_star_seq`, a pattern that follows repetitions.
-/

namespace Regex

variable {α : Type*}

inductive Pattern (α : Type*) where
  | nil
  | one (p : α → Bool)
  | seq (r r' : Pattern α)
  | alt (r r' : Pattern α)
  | star (r : Pattern α)
  /-- Negative look-ahead: the next element, if there is one, is not of the class. -/
  | notAhead (p : α → Bool)

/-- Repetitions that are not empty, so many at most. -/
def starEnds (ends : List α → List Nat) : Nat → List α → List Nat
  | 0, _ => [0]
  | bound + 1, s => ((ends s).filter (0 < ·)).flatMap (fun n => (starEnds ends bound (s.drop n)).map (n + ·)) ++ [0]

namespace Pattern

def ends : Pattern α → List α → List Nat
  | nil, _ => [0]
  | one p, s => if s.head?.any p then [1] else []
  | seq r r', s => (r.ends s).flatMap fun n => (r'.ends (s.drop n)).map (n + ·)
  | alt r r', s => r.ends s ++ r'.ends s
  | star r, s => starEnds r.ends s.length s
  | notAhead p, s => if s.head?.any p then [] else [0]

def first (r : Pattern α) (s : List α) : Option Nat := (r.ends s).head?

def opt (r : Pattern α) : Pattern α := alt r nil

def plus (r : Pattern α) : Pattern α := seq r (star r)

/-- `r{0,n}` -/
def upTo (r : Pattern α) : Nat → Pattern α
  | 0 => nil
  | n + 1 => opt (seq r (upTo r n))

/-- The first alternative that matches. -/
def any : List (Pattern α) → Pattern α
  | [] => one fun _ => false
  | r :: rs => alt r (any rs)

end Pattern

/-- The leftmost matches of a text and the gaps between them, with a gap that is open. An empty match is none. -/
def cut (r : Pattern α) (gap : List α) : List α → List (List α)
  | [] => if gap.isEmpty then [] else [gap]
  | c :: s =>
    match r.first (c :: s) with
    | some (n + 1) => (if gap.isEmpty then [] else [gap]) ++ (c :: s.take n) :: cut r [] (s.drop n)
    | _ => cut r (gap ++ [c]) s
termination_by s => s.length
decreasing_by
  · rw [List.length_drop, List.length_cons]
    omega
  · exact Nat.lt_succ_self _

/-! ## Compound patterns -/

namespace Pattern
variable {r r' : Pattern α} {p q : α → Bool} {s : List α}

@[simp] theorem first_nil : (nil : Pattern α).first s = some 0 := rfl

theorem first_one : (one p).first s = if s.head?.any p then some 1 else none := by
  rw [first, ends]
  split <;> rfl

theorem first_notAhead : (notAhead p).first s = if s.head?.any p then none else some 0 := by
  rw [first, ends]
  split <;> rfl

theorem first_seq : (seq r r').first s = (r.ends s).findSome? fun n => (r'.first (s.drop n)).map (n + ·) := by
  rw [first, ends, List.head?_flatMap]
  simp only [List.head?_map, first]

theorem first_alt : (alt r r').first s = (r.first s).or (r'.first s) := by
  rw [first, ends, List.head?_append]
  rfl

theorem first_any_nil : (any []).first s = none := by
  rw [any, first_one]
  rcases s with _ | ⟨c, s⟩ <;> rfl

theorem first_any_cons (rs : List (Pattern α)) : (any (r :: rs)).first s = (r.first s).or ((any rs).first s) := first_alt

theorem first_any (rs : List (Pattern α)) : (any rs).first s = rs.findSome? (·.first s) := by
  induction rs with
  | nil => exact first_any_nil
  | cons r rs ih =>
    rw [first_any_cons, List.findSome?_cons, ih]
    rcases r.first s with _ | n <;> rfl

theorem first_any_append (rs rs' : List (Pattern α)) :
    (any (rs ++ rs')).first s = ((any rs).first s).or ((any rs').first s) := by
  induction rs with
  | nil => rw [List.nil_append, first_any_nil, Option.none_or]
  | cons r rs ih => rw [List.cons_append, first_any_cons, first_any_cons, ih, Option.or_assoc]

theorem first_opt : r.opt.first s = some ((r.first s).getD 0) := by
  rw [opt, first_alt, first_nil]
  rcases r.first s with _ | n <;> rfl

theorem first_one_seq : (seq (one p) r).first s = if s.head?.any p then (r.first (s.drop 1)).map (1 + ·) else none := by
  rw [first_seq, ends]
  split
  · rw [List.findSome?_cons, List.findSome?_nil]
    rcases r.first (s.drop 1) with _ | n <;> rfl
  · rfl

theorem first_opt_one_seq : (seq (opt (one p)) r).first s =
    ((if s.head?.any p then (r.first (s.drop 1)).map (1 + ·) else none).or (r.first s)) := by
  rw [first_seq, opt, ends, ends, ends]
  have hzero : (r.first (s.drop 0)).map (0 + ·) = r.first s := by
    rw [List.drop_zero]
    simp
  split
  · rw [List.singleton_append, List.findSome?_cons, List.findSome?_cons, List.findSome?_nil, hzero]
    rcases r.first (s.drop 1) with _ | n
    · rcases r.first s with _ | m <;> rfl
    · rfl
  · rw [List.nil_append, List.findSome?_cons, List.findSome?_nil, hzero]
    rcases r.first s with _ | m <;> rfl

theorem seq_ends_assoc {r'' : Pattern α} : (seq (seq r r') r'').first s = (seq r (seq r' r'')).first s := by
  rw [first, first, ends, ends, ends, List.flatMap_assoc]
  apply congrArg List.head?
  apply List.flatMap_congr
  intro n _
  rw [ends, List.flatMap_map, List.map_flatMap]
  apply List.flatMap_congr
  intro m _
  rw [List.drop_drop, List.map_map]
  simp only [Function.comp_def, Nat.add_assoc]

end Pattern

/-! ## Repetitions of a class -/

def runLength (p : α → Bool) (s : List α) : Nat := (s.takeWhile p).length

section
variable {p q : α → Bool} {c : α} {s : List α}

theorem runLength_cons_of_pos (h : p c = true) : runLength p (c :: s) = runLength p s + 1 := by
  rw [runLength, List.takeWhile_cons_of_pos h, List.length_cons, runLength]

theorem runLength_cons_of_neg (h : ¬ p c = true) : runLength p (c :: s) = 0 := by
  rw [runLength, List.takeWhile_cons_of_neg h, List.length_nil]

theorem runLength_pos_iff : 0 < runLength p s ↔ s.head?.any p = true := by
  cases s with
  | nil => simp [runLength]
  | cons c s =>
    by_cases h : p c = true
    · simp [runLength_cons_of_pos h, h]
    · simp [runLength_cons_of_neg h, h]

theorem runLength_le : runLength p s ≤ s.length := (List.takeWhile_sublist p).length_le

theorem drop_runLength (p : α → Bool) (s : List α) : s.drop (runLength p s) = s.dropWhile p := by
  induction s with
  | nil => rfl
  | cons c s ih =>
    by_cases h : p c = true
    · rw [runLength_cons_of_pos h, List.drop_succ_cons, ih, List.dropWhile_cons_of_pos h]
    · rw [runLength_cons_of_neg h, List.drop_zero, List.dropWhile_cons_of_neg h]

theorem head?_drop_runLength (p : α → Bool) (s : List α) : (s.drop (runLength p s)).head?.any p = false := by
  rw [drop_runLength]
  rcases h : s.dropWhile p with _ | ⟨d, rest⟩
  · rfl
  · have hd := List.head_dropWhile_not p (l := s) (by rw [h]; exact List.cons_ne_nil _ _)
    simpa [h] using hd

theorem head?_drop_of_lt {k : Nat} (h : k < runLength p s) : (s.drop k).head?.any p = true := by
  induction s generalizing k with
  | nil => exact absurd h (Nat.not_lt_zero k)
  | cons c s ih =>
    by_cases hc : p c = true
    · rw [runLength_cons_of_pos hc] at h
      rcases k with _ | k
      · simpa using hc
      · exact ih (Nat.lt_of_succ_lt_succ h)
    · rw [runLength_cons_of_neg hc] at h
      exact absurd h (Nat.not_lt_zero k)

end

/-- The trials from `n - 1` down. -/
def backtrack {β : Type*} (f : Nat → Option β) (n : Nat) : Option β := (List.range n).reverse.findSome? f

section
variable {β : Type*} {f g : Nat → Option β} {n : Nat}

@[simp] theorem backtrack_zero (f : Nat → Option β) : backtrack f 0 = none := rfl

theorem backtrack_succ (f : Nat → Option β) (n : Nat) : backtrack f (n + 1) = (f n).or (backtrack f n) := by
  rw [backtrack, List.range_succ, List.reverse_append, List.reverse_singleton, List.singleton_append, List.findSome?_cons]
  rcases f n with _ | b <;> rfl

theorem backtrack_congr (h : ∀ k < n, f k = g k) : backtrack f n = backtrack g n := by
  induction n with
  | zero => rfl
  | succ n ih => rw [backtrack_succ, backtrack_succ, h n (Nat.lt_succ_self n), ih fun k hk => h k (Nat.lt_succ_of_lt hk)]

theorem backtrack_congr_last (h : ∀ k < n, (∀ j, k < j → j < n → g j = none) → f k = g k) : backtrack f n = backtrack g n := by
  induction n with
  | zero => rfl
  | succ n ih =>
    rw [backtrack_succ, backtrack_succ, h n (Nat.lt_succ_self n) fun j hlt hle => absurd hlt (by omega)]
    rcases hg : g n with _ | b
    · rw [ih]
      intro k hk hnone
      apply h k (Nat.lt_succ_of_lt hk)
      intro j hkj hj
      rcases Nat.lt_succ_iff_lt_or_eq.mp hj with hlt | rfl
      · exact hnone j hkj hlt
      · exact hg
    · rfl

end

namespace Pattern
variable {r r' : Pattern α} {p q : α → Bool} {s : List α}

theorem ends_star (p : α → Bool) (s : List α) : (star (one p)).ends s = (List.range (runLength p s + 1)).reverse := by
  rw [ends]
  induction s with
  | nil => rfl
  | cons c s ih =>
    rw [List.length_cons, starEnds, ends]
    by_cases h : p c = true
    · have hone : (if (c :: s).head?.any p then [1] else []).filter (0 < ·) = [1] := by simp [h]
      have hrange (n : Nat) : (List.range (n + 1)).reverse = (List.range n).reverse.map (1 + ·) ++ [0] := by
        rw [List.range_succ_eq_map, List.reverse_cons, ← List.map_reverse]
        simp only [Nat.add_comm]
      rw [hone, List.flatMap_singleton, List.drop_succ_cons, List.drop_zero, ih, runLength_cons_of_pos h,
        hrange (runLength p s + 1)]
    · have hnone : (if (c :: s).head?.any p then [1] else []).filter (0 < ·) = [] := by simp [h]
      rw [hnone, runLength_cons_of_neg h]
      rfl

theorem first_star : (star (one p)).first s = some (runLength p s) := by
  rw [first, ends_star, List.range_succ, List.reverse_append]
  rfl

/-- **A pattern behind repetitions** is tried behind the longest run first. -/
theorem first_star_seq : (seq (star (one p)) r).first s =
    backtrack (fun n => (r.first (s.drop n)).map (n + ·)) (runLength p s + 1) := by
  rw [first_seq, ends_star, backtrack]

theorem first_plus_seq : (seq (plus (one p)) r).first s =
    if s.head?.any p then (backtrack (fun n => (r.first (s.drop (n + 1))).map (n + 1 + ·)) (runLength p s)) else none := by
  rw [plus, seq_ends_assoc, first_one_seq]
  split
  · rename_i h
    cases s with
    | nil => cases h
    | cons c s =>
      have hc : p c = true := by simpa using h
      rw [List.drop_succ_cons, List.drop_zero, first_star_seq, runLength_cons_of_pos hc]
      generalize runLength p s + 1 = n
      induction n with
      | zero => rfl
      | succ n ih =>
        rw [backtrack_succ, backtrack_succ, ← ih, List.drop_succ_cons]
        rcases r.first (s.drop n) with _ | m
        · rfl
        · have hsum : 1 + (n + m) = n + 1 + m := by omega
          simp [hsum]
  · rfl

theorem first_plus : (plus (one p)).first s = if s.head?.any p then some (runLength p s) else none := by
  rw [plus, first_one_seq]
  split
  · rename_i h
    cases s with
    | nil => cases h
    | cons c s =>
      rw [List.drop_succ_cons, List.drop_zero, first_star, runLength_cons_of_pos (by simpa using h), Option.map_some, Nat.add_comm]
  · rfl

theorem first_upTo (n : Nat) (s : List α) : (upTo (one p) n).first s = some (runLength p (s.take n)) := by
  induction n generalizing s with
  | zero => rw [List.take_zero]; rfl
  | succ n ih =>
    rw [upTo, first_opt, first_one_seq]
    cases s with
    | nil => rfl
    | cons c s =>
      rw [List.take_succ_cons, List.drop_succ_cons, List.drop_zero, ih]
      by_cases h : p c = true
      · rw [runLength_cons_of_pos h]
        simp [h, Nat.add_comm]
      · rw [runLength_cons_of_neg h]
        simp [h]

/-- **Repetitions of a class, then of another**: behind the longest run, or else from its last element of the other. -/
theorem first_star_plus : (seq (star (one p)) (plus (one q))).first s =
    if (s.drop (runLength p s)).head?.any q then some (runLength p s + runLength q (s.drop (runLength p s)))
    else backtrack (fun k => if s[k]?.any q then some (k + 1) else none) (runLength p s) := by
  rw [first_star_seq, backtrack_succ, first_plus]
  split
  case isTrue => rfl
  case isFalse hlast =>
    rw [Option.map_none, Option.none_or]
    apply backtrack_congr_last
    intro k hk hnone
    rw [first_plus, List.head?_drop]
    split
    case isFalse => rfl
    case isTrue hq =>
      -- the element behind is not of the other class
      have hnext : (s.drop (k + 1)).head?.any q = false := by
        by_cases hend : k + 1 = runLength p s
        · rw [hend]
          exact Bool.eq_false_iff.mpr hlast
        · have hj := hnone (k + 1) (Nat.lt_succ_self k) (by omega)
          rw [List.head?_drop]
          by_contra htrue
          rw [if_pos (by simpa using htrue)] at hj
          cases hj
      have hone : runLength q (s.drop k) = 1 := by
        rw [← List.head?_drop] at hq
        rcases hdrop : s.drop k with _ | ⟨c, rest⟩
        · rw [hdrop] at hq
          cases hq
        · have hrest : s.drop (k + 1) = rest := by rw [← List.drop_drop, hdrop]; rfl
          rw [hdrop] at hq
          rw [hrest] at hnext
          have hzero : ¬ 0 < runLength q rest := by
            rw [runLength_pos_iff, hnext]
            exact Bool.false_ne_true
          rw [runLength_cons_of_pos (by simpa using hq)]
          omega
      rw [hone, Option.map_some]

/-- **A run that nothing else may follow**: all of it at the end of the text, else all but its last element. -/
theorem first_plus_notAhead : (seq (plus (one p)) (notAhead fun c => !p c)).first s =
    if runLength p s = 0 then none
    else if runLength p s = s.length then some (runLength p s)
    else if 1 < runLength p s then some (runLength p s - 1) else none := by
  rw [first_plus_seq]
  rcases hrun : runLength p s with _ | m
  · rw [if_pos rfl, if_neg]
    rw [← runLength_pos_iff, hrun]
    exact Nat.lt_irrefl 0
  · have hhead : s.head?.any p = true := runLength_pos_iff.mp (by omega)
    have hafter := head?_drop_runLength p s
    rw [hrun] at hafter
    rw [if_pos hhead, if_neg (Nat.succ_ne_zero m), backtrack_succ, first_notAhead]
    rcases hdrop : s.drop (m + 1) with _ | ⟨d, rest⟩
    · have hend : m + 1 = s.length := Nat.le_antisymm (hrun ▸ runLength_le) (List.drop_eq_nil_iff.mp hdrop)
      rw [if_pos hend]
      rfl
    · have hend : m + 1 ≠ s.length := by
        intro heq
        rw [heq, List.drop_length] at hdrop
        cases hdrop
      have hd : p d = false := by simpa [hdrop] using hafter
      have hahead : (d :: rest).head?.any (fun c => !p c) = true := by simp [hd]
      rw [if_neg hend, if_pos hahead, Option.map_none, Option.none_or]
      rcases m with _ | m
      · rfl
      · have hnext : (s.drop (m + 1)).head?.any (fun c => !p c) = false := by
          have hp := head?_drop_of_lt (p := p) (s := s) (k := m + 1) (by omega)
          rcases hs : s.drop (m + 1) with _ | ⟨c, more⟩
          · rfl
          · rw [hs] at hp
            simpa using hp
        rw [if_pos (by omega), backtrack_succ, first_notAhead, hnext]
        rfl

theorem first_seq_of_total (h : ∀ s, (r'.first s).isSome) :
    (seq r r').first s = (r.first s).bind fun n => (r'.first (s.drop n)).map (n + ·) := by
  rw [first_seq, first]
  rcases r.ends s with _ | ⟨n, ns⟩
  · rfl
  · obtain ⟨m, hm⟩ := Option.isSome_iff_exists.mp (h (s.drop n))
    rw [List.findSome?_cons, List.head?_cons, Option.bind_some, hm]
    rfl

end Pattern

end Regex
