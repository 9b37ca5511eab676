import Mathlib.Algebra.GroupWithZero.Nat
import Mathlib.Data.List.Basic

/-!
# Byte offsets into a text

A text is read at byte offsets. There is nothing to read at an offset inside of a character.

* `size`, `fromOffset`, `slice` : the bytes of a text, what begins at an offset and what is in a range;
* `At text pos s` : the text has `s` from the offset on;
* `Range`, `rangesFrom`, `Tiles` : ranges of bytes, those of consecutive words, and ranges that cover a text.
-/

namespace Offsets

def size (s : List Char) : Nat := (s.map Char.utf8Size).sum

/-- What begins at an offset. -/
def fromOffset : List Char → Nat → Option (List Char)
  | s, 0 => some s
  | [], _ + 1 => none
  | c :: s, pos + 1 => if pos + 1 < c.utf8Size then none else fromOffset s (pos + 1 - c.utf8Size)

/-- What ends at an offset. -/
def upTo : List Char → Nat → Option (List Char)
  | _, 0 => some []
  | [], _ + 1 => none
  | c :: s, pos + 1 => if pos + 1 < c.utf8Size then none else (upTo s (pos + 1 - c.utf8Size)).map (c :: ·)

structure Range where
  start : Nat
  stop : Nat
  deriving DecidableEq, Repr

def slice (text : List Char) (r : Range) : Option (List Char) :=
  if r.start ≤ r.stop then (fromOffset text r.start).bind fun rest => upTo rest (r.stop - r.start) else none

/-- The text has `s` from the offset on. -/
def At (text : List Char) (pos : Nat) (s : List Char) : Prop := ∃ before, text = before ++ s ∧ pos = size before

section
variable {text s a b : List Char} {c : Char} {pos n : Nat}

@[simp] theorem size_nil : size [] = 0 := rfl

@[simp] theorem size_cons : size (c :: s) = c.utf8Size + size s := by rw [size, List.map_cons, List.sum_cons, size]

@[simp] theorem size_append : size (a ++ b) = size a + size b := by rw [size, List.map_append, List.sum_append, size, size]

theorem size_pos (h : s ≠ []) : 0 < size s := by
  cases s with
  | nil => exact absurd rfl h
  | cons c s =>
    have hc := c.utf8Size_pos
    rw [size_cons]
    omega

theorem size_eq_zero_iff : size s = 0 ↔ s = [] := by
  constructor
  · intro h
    by_contra hne
    exact Nat.ne_of_gt (size_pos hne) h
  · rintro rfl
    rfl

theorem size_take_add_drop (n : Nat) (s : List Char) : size (s.take n) + size (s.drop n) = size s := by
  rw [← size_append, List.take_append_drop]

theorem size_take_eq_iff (h : n ≤ s.length) : size (s.take n) = size s ↔ n = s.length := by
  have hall := size_take_add_drop n s
  constructor
  · intro heq
    have hrest : size (s.drop n) = 0 := by omega
    have hlength := List.drop_eq_nil_iff.mp (size_eq_zero_iff.mp hrest)
    omega
  · rintro rfl
    rw [List.take_length]

theorem size_take_pos_iff (hs : s ≠ []) : 0 < size (s.take n) ↔ 0 < n := by
  rw [Nat.pos_iff_ne_zero, Nat.pos_iff_ne_zero, Ne, Ne, size_eq_zero_iff, List.take_eq_nil_iff]
  tauto

/-! ## Reading -/

theorem fromOffset_append (a b : List Char) : fromOffset (a ++ b) (size a) = some b := by
  induction a with
  | nil => simp [fromOffset]
  | cons c a ih =>
    have hc := c.utf8Size_pos
    obtain ⟨n, hn⟩ : ∃ n, size (c :: a) = n + 1 := ⟨size (c :: a) - 1, by rw [size_cons]; omega⟩
    rw [hn, List.cons_append, fromOffset, ← hn, size_cons, if_neg (by omega), Nat.add_sub_cancel_left]
    exact ih

theorem upTo_append (a b : List Char) : upTo (a ++ b) (size a) = some a := by
  induction a with
  | nil => simp [upTo]
  | cons c a ih =>
    have hc := c.utf8Size_pos
    obtain ⟨n, hn⟩ : ∃ n, size (c :: a) = n + 1 := ⟨size (c :: a) - 1, by rw [size_cons]; omega⟩
    rw [hn, List.cons_append, upTo, ← hn, size_cons, if_neg (by omega), Nat.add_sub_cancel_left, ih]
    rfl

namespace At

theorem start (text : List Char) : At text 0 text := ⟨[], rfl, rfl⟩

theorem fromOffset (h : At text pos s) : fromOffset text pos = some s := by
  obtain ⟨before, rfl, rfl⟩ := h
  exact fromOffset_append before s

theorem advance (h : At text pos (a ++ b)) : At text (pos + size a) b := by
  obtain ⟨before, rfl, rfl⟩ := h
  exact ⟨before ++ a, (List.append_assoc ..).symm, size_append.symm⟩

theorem drop (h : At text pos s) (n : Nat) : At text (pos + size (s.take n)) (s.drop n) :=
  advance ((List.take_append_drop n s).symm ▸ h)

theorem tail (h : At text pos (c :: s)) : At text (pos + c.utf8Size) s := advance (a := [c]) h

theorem size_eq (h : At text pos s) : pos + size s = size text := by
  obtain ⟨before, rfl, rfl⟩ := h
  exact size_append.symm

theorem lt_size_iff (h : At text pos s) : pos < size text ↔ s ≠ [] := by
  have hall := h.size_eq
  constructor
  · rintro hlt rfl
    rw [size_nil] at hall
    omega
  · intro hne
    have hpos := size_pos hne
    omega

theorem slice (h : At text pos (a ++ b)) : slice text ⟨pos, pos + size a⟩ = some a := by
  rw [Offsets.slice, if_pos (Nat.le_add_right pos (size a)), h.fromOffset, Option.bind_some]
  dsimp only
  rw [Nat.add_sub_cancel_left, upTo_append]

end At

end

/-! ## Ranges of words -/

/-- The ranges of consecutive words. -/
def rangesFrom (pos : Nat) : List (List Char) → List Range
  | [] => []
  | w :: ws => ⟨pos, pos + size w⟩ :: rangesFrom (pos + size w) ws

/-- From an offset to another, each range begins where the one before ends, and none is empty. -/
def Consecutive : Nat → Nat → List Range → Prop
  | pos, stop, [] => pos = stop
  | pos, stop, r :: rs => r.start = pos ∧ pos < r.stop ∧ Consecutive r.stop stop rs

/-- **Ranges that tile a text** are not empty, in order, without gaps, and begin and end at characters. -/
structure Tiles (text : List Char) (ranges : List Range) : Prop where
  consecutive : Consecutive 0 (size text) ranges
  boundaries : ∀ r ∈ ranges, (fromOffset text r.start).isSome ∧ (fromOffset text r.stop).isSome

section
variable {text : List Char} {words : List (List Char)} {pos : Nat}

theorem rangesFrom_append (pos : Nat) (ws ws' : List (List Char)) :
    rangesFrom pos (ws ++ ws') = rangesFrom pos ws ++ rangesFrom (pos + size ws.flatten) ws' := by
  induction ws generalizing pos with
  | nil => rfl
  | cons w ws ih =>
    rw [List.cons_append, rangesFrom, ih, rangesFrom, List.flatten_cons, size_append, Nat.add_assoc]
    rfl

theorem rangesFrom_consecutive (hwords : ∀ w ∈ words, w ≠ []) :
    Consecutive pos (pos + size words.flatten) (rangesFrom pos words) := by
  induction words generalizing pos with
  | nil => rfl
  | cons w ws ih =>
    have hw := size_pos (hwords w List.mem_cons_self)
    have hrest : Consecutive (pos + size w) (pos + size w + size ws.flatten) (rangesFrom (pos + size w) ws) :=
      ih fun w' hw' => hwords w' (List.mem_cons_of_mem _ hw')
    rw [List.flatten_cons, size_append, ← Nat.add_assoc]
    exact ⟨rfl, Nat.lt_add_of_pos_right hw, hrest⟩

theorem rangesFrom_boundaries (h : At text pos words.flatten) :
    ∀ r ∈ rangesFrom pos words, (fromOffset text r.start).isSome ∧ (fromOffset text r.stop).isSome := by
  induction words generalizing pos with
  | nil =>
    intro r hr
    cases hr
  | cons w ws ih =>
    rw [List.flatten_cons] at h
    intro r hr
    rw [rangesFrom, List.mem_cons] at hr
    rcases hr with rfl | hr
    · exact ⟨by rw [h.fromOffset]; rfl, by rw [h.advance.fromOffset]; rfl⟩
    · exact ih h.advance r hr

theorem rangesFrom_slices (h : At text pos words.flatten) : (rangesFrom pos words).map (slice text) = words.map some := by
  induction words generalizing pos with
  | nil => rfl
  | cons w ws ih =>
    rw [List.flatten_cons] at h
    rw [rangesFrom, List.map_cons, h.slice, ih h.advance, List.map_cons]

theorem rangesFrom_tiles (hwords : ∀ w ∈ words, w ≠ []) (h : words.flatten = text) : Tiles text (rangesFrom 0 words) where
  consecutive := by
    have hall : Consecutive 0 (0 + size words.flatten) (rangesFrom 0 words) := rangesFrom_consecutive hwords
    rwa [h, Nat.zero_add] at hall
  boundaries := rangesFrom_boundaries (h ▸ At.start text)

end

end Offsets
