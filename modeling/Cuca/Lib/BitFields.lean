import Mathlib.Data.List.Basic
import Mathlib.Tactic.Ring

/-!
# Fields of bits in words

Words hold fields of `w` bits, the first in the lowest bits. A field is put into a word by an OR, and read by a shift and a mask.

* `field` : the reader; `pack` : fields put into an empty word;
* `field_or_self`, `field_or_other`, `field_pack` : what is read of what was put;
* `putAt`, `fieldAt` : fields in a list of words, so many in a word;
* `putAll_spec` : fields put one by one into empty words.
-/

namespace BitFields

variable {n w : Nat}

def field (w : Nat) (word : BitVec n) (i : Nat) : BitVec n := (word >>> (w * i)) &&& BitVec.ofNat n (2 ^ w - 1)

def pack (w : Nat) (fields : Nat → BitVec n) (count : Nat) : BitVec n :=
  (List.range count).foldl (fun word i => word ||| fields i <<< (w * i)) 0#n

theorem getLsbD_field (word : BitVec n) (i b : Nat) : (field w word i).getLsbD b = (word.getLsbD (w * i + b) && (decide (b < n) && decide (b < w))) := by
  unfold field
  rw [BitVec.getLsbD_and, BitVec.getLsbD_ushiftRight, BitVec.getLsbD_ofNat, Nat.testBit_two_pow_sub_one]

theorem getLsbD_of_lt {v : BitVec n} (hv : v.toNat < 2 ^ w) {b : Nat} (hb : w ≤ b) : v.getLsbD b = false :=
  Nat.testBit_lt_two_pow (Nat.lt_of_lt_of_le hv (Nat.pow_le_pow_right (by decide) hb))

theorem field_or_self {word v : BitVec n} {i : Nat} (hv : v.toNat < 2 ^ w) (hi : w * (i + 1) ≤ n) :
    field w (word ||| v <<< (w * i)) i = field w word i ||| v := by
  apply BitVec.eq_of_getLsbD_eq
  intro b hb
  rw [BitVec.getLsbD_or, getLsbD_field, getLsbD_field, BitVec.getLsbD_or, BitVec.getLsbD_shiftLeft]
  by_cases hw : b < w
  · have hin : w * i + b < n := by
      rw [Nat.mul_succ] at hi
      omega
    simp [hb, hw, hin]
  · simp [hw, getLsbD_of_lt hv (Nat.le_of_not_lt hw)]

theorem field_or_other {word v : BitVec n} {i j : Nat} (hv : v.toNat < 2 ^ w) (hne : i ≠ j) :
    field w (word ||| v <<< (w * i)) j = field w word j := by
  apply BitVec.eq_of_getLsbD_eq
  intro b hb
  rw [getLsbD_field, getLsbD_field, BitVec.getLsbD_or, BitVec.getLsbD_shiftLeft]
  by_cases hw : b < w
  · rcases Nat.lt_or_gt_of_ne hne with hlt | hgt
    · have hrow := Nat.mul_le_mul_left w (show i + 1 ≤ j from hlt)
      rw [Nat.mul_succ] at hrow
      have hbehind : v.getLsbD (w * j + b - w * i) = false := getLsbD_of_lt hv (by omega)
      simp [hbehind]
    · have hrow := Nat.mul_le_mul_left w (show j + 1 ≤ i from hgt)
      rw [Nat.mul_succ] at hrow
      have hbefore : w * j + b < w * i := by omega
      simp [hbefore]
  · simp [hw]

theorem field_zero (i : Nat) : field w 0#n i = 0#n := by
  unfold field
  rw [BitVec.zero_ushiftRight, BitVec.zero_and]

/-- **What is read** of a packed word is what was put into it. -/
theorem field_pack {fields : Nat → BitVec n} {count : Nat} (hfields : ∀ i < count, (fields i).toNat < 2 ^ w) (hcount : w * count ≤ n) (i : Nat) :
    field w (pack w fields count) i = if i < count then fields i else 0#n := by
  unfold pack
  induction count with
  | zero => exact field_zero i
  | succ count ih =>
    have hrest := ih (fun j hj => hfields j (Nat.lt_succ_of_lt hj)) (Nat.le_trans (Nat.mul_le_mul_left w (Nat.le_succ count)) hcount)
    rw [List.range_succ, List.foldl_append, List.foldl_cons, List.foldl_nil]
    by_cases heq : count = i
    · subst heq
      rw [field_or_self (hfields count (Nat.lt_succ_self count)) hcount, hrest, if_neg (Nat.lt_irrefl _), if_pos (Nat.lt_succ_self _),
        BitVec.zero_or]
    · rw [field_or_other (hfields count (Nat.lt_succ_self count)) heq, hrest]
      by_cases hlt : i < count
      · rw [if_pos hlt, if_pos (Nat.lt_succ_of_lt hlt)]
      · rw [if_neg hlt, if_neg (by omega)]

/-! ## Words -/

/-- Field `i`, where a word holds `per` of them. -/
def fieldAt (w per : Nat) (words : List (BitVec n)) (i : Nat) : BitVec n := field w (words.getD (i / per) 0#n) (i % per)

/-- Field `i` put, or nothing behind the last word. -/
def putAt (w per : Nat) (words : List (BitVec n)) (i : Nat) (v : BitVec n) : Option (List (BitVec n)) :=
  if i / per < words.length then some (words.set (i / per) (words.getD (i / per) 0#n ||| v <<< (w * (i % per)))) else none

def putAll (w per : Nat) (fields : Nat → BitVec n) (words : List (BitVec n)) (count : Nat) : Option (List (BitVec n)) :=
  (List.range count).foldlM (fun words i => putAt w per words i (fields i)) words

theorem putAt_spec {per i : Nat} {v : BitVec n} {words : List (BitVec n)} (hper : 0 < per) (hfit : w * per ≤ n) (hv : v.toNat < 2 ^ w)
    (hi : i / per < words.length) : ∃ words', putAt w per words i v = some words' ∧ words'.length = words.length ∧
      ∀ j, fieldAt w per words' j = if j = i then fieldAt w per words i ||| v else fieldAt w per words j := by
  refine ⟨_, if_pos hi, List.length_set, fun j => ?_⟩
  have hslot : w * (i % per + 1) ≤ n := Nat.le_trans (Nat.mul_le_mul_left w (Nat.mod_lt i hper)) hfit
  unfold fieldAt
  by_cases hword : j / per = i / per
  · rw [hword, List.getD_eq_getElem?_getD, List.getElem?_set_self hi, Option.getD_some]
    by_cases heq : j = i
    · rw [if_pos heq, heq, field_or_self hv hslot]
    · have hne : i % per ≠ j % per := by
        intro hmod
        exact heq (by rw [← Nat.div_add_mod j per, ← Nat.div_add_mod i per, hword, hmod])
      rw [if_neg heq, field_or_other hv hne]
  · have hne : j ≠ i := fun h => hword (h ▸ rfl)
    rw [if_neg hne, List.getD_eq_getElem?_getD, List.getElem?_set_ne (Ne.symm hword), ← List.getD_eq_getElem?_getD]

theorem putAll_spec {per len count : Nat} {fields : Nat → BitVec n} (hper : 0 < per) (hfit : w * per ≤ n)
    (hfields : ∀ i < count, (fields i).toNat < 2 ^ w) (hcount : count ≤ len * per) :
    ∃ words, putAll w per fields (List.replicate len 0#n) count = some words ∧ words.length = len ∧
      ∀ i, fieldAt w per words i = if i < count then fields i else 0#n := by
  unfold putAll
  induction count with
  | zero =>
    refine ⟨_, rfl, List.length_replicate, fun i => ?_⟩
    unfold fieldAt
    rw [List.getD_eq_getElem?_getD, List.getElem?_replicate]
    split <;> exact field_zero _
  | succ count ih =>
    obtain ⟨words, hwords, hlength, hread⟩ := ih (fun i hi => hfields i (Nat.lt_succ_of_lt hi)) (Nat.le_of_succ_le hcount)
    obtain ⟨words', hput, hlength', hread'⟩ := putAt_spec hper hfit (hfields count (Nat.lt_succ_self count))
      (show count / per < words.length from hlength ▸ (Nat.div_lt_iff_lt_mul hper).mpr hcount)
    refine ⟨words', ?_, hlength'.trans hlength, fun i => ?_⟩
    · simp only [List.range_succ, List.foldlM_append, hwords, List.foldlM_cons, List.foldlM_nil, Option.bind_eq_bind, Option.bind_some, hput]
      rfl
    · rw [hread']
      by_cases heq : i = count
      · rw [if_pos heq, hread, if_neg (Nat.lt_irrefl _), BitVec.zero_or, if_pos (by omega), heq]
      · rw [if_neg heq, hread]
        by_cases hlt : i < count
        · rw [if_pos hlt, if_pos (Nat.lt_succ_of_lt hlt)]
        · rw [if_neg hlt, if_neg (by omega)]

end BitFields
