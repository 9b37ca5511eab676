import Mathlib.Data.List.DropRight

/-!
# Rows of a flat arena

A list that is read and written in rows of one width, and the last elements of a list.

* `row` : the row at a slot; `writeRow` : the arena with another row there;
* `row_append`, `row_append_new`, `row_writeRow`, `row_writeRow_of_ne` : what is read after a row is put in.
-/

namespace Arena

variable {α : Type*}

def row (width : Nat) (arena : List α) (slot : Nat) : List α := (arena.drop (slot * width)).take width

/-- `copy_from_slice` : the row takes the place of what stands at its slot. -/
def writeRow (width : Nat) (arena : List α) (slot : Nat) (new : List α) : List α :=
  arena.take (slot * width) ++ (new ++ arena.drop (slot * width + width))

section
variable {width slot other : Nat} {arena new : List α}

theorem row_append (h : slot * width + width ≤ arena.length) (extra : List α) :
    row width (arena ++ extra) slot = row width arena slot := by
  rw [row, row, List.drop_append_of_le_length (by omega), List.take_append_of_le_length (by rw [List.length_drop]; omega)]

theorem row_append_new (harena : arena.length = slot * width) (hnew : new.length = width) :
    row width (arena ++ new) slot = new := by
  rw [row, ← harena, List.drop_left, ← hnew, List.take_length]

theorem length_writeRow (hslot : slot * width + width ≤ arena.length) (hnew : new.length = width) :
    (writeRow width arena slot new).length = arena.length := by
  rw [writeRow, List.length_append, List.length_append, List.length_take, List.length_drop, hnew]
  omega

theorem row_writeRow (hslot : slot * width + width ≤ arena.length) (hnew : new.length = width) :
    row width (writeRow width arena slot new) slot = new := by
  have htake : (arena.take (slot * width)).length = slot * width := List.length_take_of_le (by omega)
  rw [row, writeRow, List.drop_left' htake, ← hnew, List.take_left]

theorem row_writeRow_of_ne (hslot : slot * width + width ≤ arena.length) (hother : other * width + width ≤ arena.length)
    (hnew : new.length = width) (hne : other ≠ slot) : row width (writeRow width arena slot new) other = row width arena other := by
  have htake : (arena.take (slot * width)).length = slot * width := List.length_take_of_le (by omega)
  rcases Nat.lt_or_gt_of_ne hne with hlt | hgt
  · have hbefore : other * width + width ≤ slot * width := by
      calc other * width + width = (other + 1) * width := (Nat.succ_mul other width).symm
        _ ≤ slot * width := Nat.mul_le_mul_right width hlt
    rw [writeRow, row_append (by rw [htake]; exact hbefore), row, row, List.drop_take, List.take_take]
    congr 1
    omega
  · have hbehind : slot * width + width ≤ other * width := by
      calc slot * width + width = (slot + 1) * width := (Nat.succ_mul slot width).symm
        _ ≤ other * width := Nat.mul_le_mul_right width hgt
    have hlength : (arena.take (slot * width) ++ new).length = slot * width + width := by
      rw [List.length_append, htake, hnew]
    obtain ⟨k, hk⟩ := Nat.exists_eq_add_of_le hbehind
    rw [row, row, writeRow, ← List.append_assoc, hk, ← List.drop_drop, ← hlength, List.drop_left, List.drop_drop]

end

/-! ## The last elements -/

theorem rtake_of_length_le {n : Nat} {xs : List α} (h : xs.length ≤ n) : xs.rtake n = xs := by
  rw [List.rtake, Nat.sub_eq_zero_of_le h, List.drop_zero]

theorem length_rtake (n : Nat) (xs : List α) : (xs.rtake n).length = min n xs.length := by
  rw [List.rtake, List.length_drop]
  omega

theorem rtake_append_of_le {n : Nat} {ys : List α} (h : n ≤ ys.length) (xs : List α) : (xs ++ ys).rtake n = ys.rtake n := by
  rw [List.rtake, List.rtake, List.length_append, List.drop_append, List.drop_eq_nil_of_le (by omega), List.nil_append]
  congr 1
  omega

theorem rtake_rtake_append (n : Nat) (xs ys : List α) : (xs.rtake n ++ ys).rtake n = (xs ++ ys).rtake n := by
  rcases Nat.le_total xs.length n with hle | hge
  · rw [rtake_of_length_le hle]
  · rcases Nat.le_total n ys.length with hmany | hfew
    · rw [rtake_append_of_le hmany, rtake_append_of_le hmany]
    · rw [List.rtake, List.rtake, List.rtake, List.length_append, List.length_append, List.length_drop,
        List.drop_append_of_le_length (by rw [List.length_drop]; omega), List.drop_append_of_le_length (by omega),
        List.drop_drop]
      congr 2
      omega

end Arena
