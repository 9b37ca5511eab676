import Cuca.Lib.PrefixCode
import Mathlib.Algebra.GroupWithZero.Nat

/-!
# The postcard wire format

The encoders `postcard` composes: fields of a structure are concatenated; a length or the index of a variant is a
varint; an option has a tag byte. Each can be read from the front.

* `varint`, `bool`, `f32`, `str`, `option`, `seq`;
* `delimits_varint` and so on : their values are determined;
* `delimits_variant` : so are those of an enum.
-/

namespace Cuca.Postcard
open PrefixCode

abbrev Bytes := List UInt8

/-- Base 128, least significant group first, a high bit on all groups but the last. -/
def varint (n : Nat) : Bytes :=
  if n < 128 then [UInt8.ofNat n] else UInt8.ofNat (n % 128 + 128) :: varint (n / 128)
termination_by n

def bool (b : Bool) : Bytes := [if b then 1 else 0]

/-- The bits of an `f32`, least significant byte first. -/
def f32 (bits : UInt32) : Bytes :=
  [bits.toUInt8, (bits >>> 8).toUInt8, (bits >>> 16).toUInt8, (bits >>> 24).toUInt8]

def str (s : String) : Bytes := varint s.toUTF8.size ++ s.toUTF8.data.toList

section
variable {α : Type*} (encode : α → Bytes)

def option : Option α → Bytes
  | none => [0]
  | some a => 1 :: encode a

def seq (items : List α) : Bytes := varint items.length ++ items.flatMap encode

end

/-! ## Numbers -/

theorem varint_small {n : Nat} (h : n < 128) : varint n = [UInt8.ofNat n] := by
  rw [varint, if_pos h]

theorem varint_large {n : Nat} (h : ¬ n < 128) : varint n = UInt8.ofNat (n % 128 + 128) :: varint (n / 128) := by
  rw [varint, if_neg h]

theorem ofNat_inj {m n : Nat} (hm : m < 256) (hn : n < 256) (h : UInt8.ofNat m = UInt8.ofNat n) : m = n := by
  have := congrArg UInt8.toNat h
  rw [UInt8.toNat_ofNat', UInt8.toNat_ofNat'] at this
  omega

theorem delimits_varint : Delimits Eq varint := by
  intro m
  induction m using Nat.strongRecOn with
  | ind m ih =>
    intro n x y h
    by_cases hm : m < 128 <;> by_cases hn : n < 128
    · rw [varint_small hm, varint_small hn] at h
      obtain ⟨hbyte, hrest⟩ := List.cons.inj h
      exact ⟨ofNat_inj (by omega) (by omega) hbyte, hrest⟩
    · rw [varint_small hm, varint_large hn] at h
      have := ofNat_inj (by omega) (by omega) (List.cons.inj h).1
      omega
    · rw [varint_large hm, varint_small hn] at h
      have := ofNat_inj (by omega) (by omega) (List.cons.inj h).1
      omega
    · rw [varint_large hm, varint_large hn] at h
      obtain ⟨hbyte, hrest⟩ := List.cons.inj h
      have hlow := ofNat_inj (by omega) (by omega) hbyte
      obtain ⟨hhigh, hend⟩ := ih (m / 128) (by omega) (n / 128) x y hrest
      exact ⟨by omega, hend⟩

theorem delimits_bool : Delimits Eq bool :=
  delimits_of_length (by decide) (fun _ _ => rfl)

theorem toNat_f32 (bits : UInt32) :
    bits.toNat = bits.toUInt8.toNat + 2 ^ 8 * (bits >>> 8).toUInt8.toNat + 2 ^ 16 * (bits >>> 16).toUInt8.toNat +
      2 ^ 24 * (bits >>> 24).toUInt8.toNat := by
  have hbits := bits.toNat_lt
  simp only [UInt32.toNat_toUInt8, UInt32.toNat_shiftRight, UInt32.reduceToNat, Nat.reduceMod, Nat.shiftRight_eq_div_pow]
  omega

theorem delimits_f32 : Delimits Eq f32 := by
  refine delimits_of_length (fun a b h => ?_) fun _ _ => rfl
  simp only [f32, List.cons.injEq] at h
  obtain ⟨h0, h1, h2, h3, -⟩ := h
  apply UInt32.toNat_inj.mp
  rw [toNat_f32 a, toNat_f32 b, h0, h1, h2, h3]

/-! ## Strings, options, sequences and enums -/

theorem delimits_str : Delimits Eq str := by
  intro s t x y h
  unfold str at h
  rw [List.append_assoc, List.append_assoc] at h
  obtain ⟨hsize, hrest⟩ := delimits_varint _ _ _ _ h
  obtain ⟨hbytes, hend⟩ := List.append_inj hrest hsize
  refine ⟨String.toByteArray_inj.mp (ByteArray.ext (Array.toList_inj.mp hbytes)), hend⟩

section
variable {α : Type*} {encode : α → Bytes} {r : α → α → Prop}

theorem delimits_option (h : Delimits r encode) : Delimits (Option.Rel r) (option encode) := by
  intro a b x y heq
  cases a with
  | none =>
    cases b with
    | none => exact ⟨.none, List.cons_injective heq⟩
    | some b => exact absurd (List.cons.inj heq).1 (by decide)
  | some a =>
    cases b with
    | none => exact absurd (List.cons.inj heq).1 (by decide)
    | some b =>
      obtain ⟨hrel, hend⟩ := h a b x y (List.cons.inj heq).2
      exact ⟨.some hrel, hend⟩

theorem delimits_seq (h : Delimits r encode) : Delimits (List.Forall₂ r) (seq encode) := by
  intro as bs x y heq
  unfold seq at heq
  rw [List.append_assoc, List.append_assoc] at heq
  obtain ⟨hlength, hrest⟩ := delimits_varint _ _ _ _ heq
  exact delimits_flatMap h as bs x y hlength hrest

/-- **Enums**: the index of the variant, then its fields. -/
theorem delimits_variant (tag : α → Nat) (payload : α → Bytes) (hencode : ∀ a, encode a = varint (tag a) ++ payload a)
    (hpayload : ∀ a b x y, tag a = tag b → payload a ++ x = payload b ++ y → r a b ∧ x = y) : Delimits r encode := by
  intro a b x y heq
  rw [hencode, hencode, List.append_assoc, List.append_assoc] at heq
  obtain ⟨htag, hrest⟩ := delimits_varint _ _ _ _ heq
  exact hpayload a b x y htag hrest

end

end Cuca.Postcard
