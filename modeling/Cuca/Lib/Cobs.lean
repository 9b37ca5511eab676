import Mathlib.Data.List.Basic

/-!
# Consistent overhead byte stuffing

A message becomes a text without zeros. It is cut at its zeros into blocks, and each block of `n` bytes, of which it holds
at most 254, gets the code `n + 1` in front; a full block has no zero behind it.

* `encode`, `decode`;
* `decode_encode` : the round trip;
* `zero_not_mem_encode` : no zeros.
-/

namespace Cobs

abbrev Bytes := List UInt8

def code (block : Bytes) : UInt8 := UInt8.ofNat (block.length + 1)

/-- Encodes what is left of the message, behind what is in the current block. -/
def encodeFrom (block : Bytes) : Bytes → Bytes
  | [] => code block :: block
  | b :: message =>
    if b = 0 then code block :: block ++ encodeFrom [] message
    else if block.length = 253 then 255 :: (block ++ [b]) ++ encodeFrom [] message
    else encodeFrom (block ++ [b]) message

def encode (message : Bytes) : Bytes := encodeFrom [] message

/-- Decodes with so many bytes left of the current block; `zero` tells whether a zero stands between it and the next. -/
def decodeFrom : Nat → Bool → Bytes → Option Bytes
  | 0, _, [] => some []
  | _ + 1, _, [] => none
  | 0, zero, b :: text => ((decodeFrom (b.toNat - 1) (b != 255) text).map fun message =>
      if zero then 0 :: message else message)
  | left + 1, zero, b :: text => (decodeFrom left zero text).map (b :: ·)

def decode (text : Bytes) : Option Bytes := decodeFrom 0 false text

theorem toNat_code {block : Bytes} (h : block.length < 254) : (code block).toNat = block.length + 1 := by
  rw [code, UInt8.toNat_ofNat']
  omega

theorem code_ne_full {block : Bytes} (h : block.length < 254) : (code block != 255) = true := by
  rw [bne_iff_ne]
  intro heq
  have hnat := congrArg UInt8.toNat heq
  rw [toNat_code h] at hnat
  have : (255 : UInt8).toNat = 255 := by rfl
  omega

theorem code_ne_zero {block : Bytes} (h : block.length < 254) : code block ≠ 0 := by
  intro heq
  have hnat := congrArg UInt8.toNat heq
  rw [toNat_code h] at hnat
  exact absurd hnat (Nat.succ_ne_zero _)

theorem decodeFrom_block (block : Bytes) (zero : Bool) (text : Bytes) :
    decodeFrom block.length zero (block ++ text) = (decodeFrom 0 zero text).map (block ++ ·) := by
  induction block with
  | nil => simp
  | cons b block ih =>
    rw [List.length_cons, List.cons_append, decodeFrom, ih, Option.map_map]
    rfl

theorem decodeFrom_zero (text message : Bytes) (hcode : text ≠ []) (h : decodeFrom 0 false text = some message) :
    decodeFrom 0 true text = some (0 :: message) := by
  obtain ⟨b, text, rfl⟩ := List.exists_cons_of_ne_nil hcode
  rw [decodeFrom] at h ⊢
  obtain ⟨rest, hrest, rfl⟩ := Option.map_eq_some_iff.mp h
  rw [hrest]
  rfl

theorem encodeFrom_ne_nil (block message : Bytes) : encodeFrom block message ≠ [] := by
  induction message generalizing block with
  | nil => exact List.cons_ne_nil _ _
  | cons b message ih =>
    rw [encodeFrom]
    split
    · exact List.cons_ne_nil _ _
    · split
      · exact List.cons_ne_nil _ _
      · exact ih _

theorem decodeFrom_encodeFrom (message block : Bytes) (h : block.length < 254) :
    decodeFrom 0 false (encodeFrom block message) = some (block ++ message) := by
  induction message generalizing block with
  | nil =>
    have hblock := decodeFrom_block block true []
    rw [List.append_nil] at hblock
    rw [encodeFrom, decodeFrom, toNat_code h, Nat.add_sub_cancel, code_ne_full h, hblock]
    simp [decodeFrom]
  | cons b message ih =>
    rw [encodeFrom]
    split
    case isTrue hzero =>
      have hnext := decodeFrom_zero _ _ (encodeFrom_ne_nil [] message) (ih [] (by decide))
      rw [List.cons_append, decodeFrom, toNat_code h, Nat.add_sub_cancel, code_ne_full h, decodeFrom_block, hnext]
      simp [hzero]
    case isFalse hzero =>
      split
      case isTrue hfull =>
        have hlength : (255 : UInt8).toNat - 1 = (block ++ [b]).length := by simp [hfull]
        rw [List.cons_append, decodeFrom, hlength, decodeFrom_block]
        have hnext := ih [] (by decide)
        simp [hnext]
      case isFalse hspace =>
        have hshort : (block ++ [b]).length < 254 := by
          rw [List.length_append, List.length_singleton]
          omega
        rw [ih (block ++ [b]) hshort, List.append_assoc, List.singleton_append]

/-- **The round trip.** -/
theorem decode_encode (message : Bytes) : decode (encode message) = some message :=
  decodeFrom_encodeFrom message [] (by decide)

theorem zero_not_mem_encodeFrom (message block : Bytes) (h : block.length < 254) (hblock : 0 ∉ block) :
    0 ∉ encodeFrom block message := by
  have hcode := (code_ne_zero h).symm
  induction message generalizing block with
  | nil => exact List.not_mem_cons_of_ne_of_not_mem hcode hblock
  | cons b message ih =>
    rw [encodeFrom]
    have hempty := ih [] (by decide) List.not_mem_nil (by decide)
    split
    case isTrue =>
      rw [List.cons_append]
      apply List.not_mem_cons_of_ne_of_not_mem hcode
      exact fun hmem => (List.mem_append.mp hmem).elim hblock hempty
    case isFalse hzero =>
      have hlonger : 0 ∉ block ++ [b] := fun hmem => by
        rcases List.mem_append.mp hmem with hin | hlast
        · exact hblock hin
        · exact hzero (List.mem_singleton.mp hlast).symm
      split
      case isTrue =>
        rw [List.cons_append]
        apply List.not_mem_cons_of_ne_of_not_mem (by decide)
        exact fun hmem => (List.mem_append.mp hmem).elim hlonger hempty
      case isFalse hspace =>
        have hshort : (block ++ [b]).length < 254 := by
          rw [List.length_append, List.length_singleton]
          omega
        exact ih _ hshort hlonger (code_ne_zero hshort).symm

theorem zero_not_mem_encode (message : Bytes) : 0 ∉ encode message :=
  zero_not_mem_encodeFrom message [] (by decide) List.not_mem_nil

end Cobs
