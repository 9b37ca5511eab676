import Cuca.Local.Model.Quant
import Mathlib.Algebra.BigOperators.Pi
import Mathlib.Algebra.BigOperators.Ring.Finset
import Mathlib.Tactic.IntervalCases

/-!
# What the kernel reads of a block

* `halfToF32_eq` : the kernel's half floats;
* `decode` : the elements of a matrix; `dequantRow_eq` : a row of them;
* `Placed`, `putValues_spec`, `halves_spec` : the words that the host put;
* `dotBlock_q4_0`, `dotBlock_q4_1`, `dotBlock_q8_0`, `dotBlock_f32` : the kernel's sums are those of the elements.
-/

namespace Cuca.Local.MoeKernel
open BitFields Chunks Quant Scatter

/-! ## Bits -/

theorem signed_byte (b : BitVec 8) : (((b.setWidth 32 &&& 0x7F#32).toNat : Int) - (b.setWidth 32 &&& 0x80#32).toNat) = b.toInt := by
  revert b
  decide +kernel

theorem le32_field (b : Bytes) (start : Nat) {i : Nat} (hi : i < 4) : field 8 (le32 b start) i = (byte b (start + i)).toBitVec.setWidth 32 := by
  unfold le32
  rw [field_pack (fun j _ => ?_) (by decide), if_pos hi]
  rw [BitVec.toNat_setWidth]
  exact Nat.lt_of_le_of_lt (Nat.mod_le _ _) (BitVec.isLt _)

theorem exponent_bits (h : BitVec 16) : (h.setWidth 32 >>> 10) &&& 0x1F#32 = (h.extractLsb' 10 5).setWidth 32 := by
  apply BitVec.eq_of_getLsbD_eq
  intro k hk
  interval_cases k <;> simp

theorem mantissa_bits (h : BitVec 16) : h.setWidth 32 &&& 0x3FF#32 = (h.extractLsb' 0 10).setWidth 32 := by
  apply BitVec.eq_of_getLsbD_eq
  intro k hk
  interval_cases k <;> simp

theorem sign_bits (h : BitVec 16) : (h.setWidth 32 &&& 0x8000#32) <<< 16 = if h.msb then 0x80000000#32 else 0#32 := by
  apply BitVec.eq_of_getLsbD_eq
  intro k hk
  rw [BitVec.msb_eq_getLsbD_last]
  interval_cases k <;> simp <;> split <;> simp_all

theorem float_bits (s : Bool) (e : BitVec 8) (m : BitVec 10) :
    let b := (if s then 0x80000000#32 else 0#32) ||| (e.setWidth 32 <<< 23) ||| (m.setWidth 32 <<< 13)
    b.msb = s ∧ b.extractLsb' 23 8 = e ∧ b.extractLsb' 0 23 = m.setWidth 23 <<< 13 := by
  refine ⟨?_, ?_, ?_⟩
  · rw [BitVec.msb_eq_getLsbD_last]
    cases s <;> simp
  · apply BitVec.eq_of_getLsbD_eq
    intro k hk
    interval_cases k <;> cases s <;> simp
  · apply BitVec.eq_of_getLsbD_eq
    intro k hk
    interval_cases k <;> cases s <;> simp

theorem mantissa_toNat (m : BitVec 10) : (m.setWidth 23 <<< 13).toNat = m.toNat * 2 ^ 13 := by
  have hm := m.isLt
  rw [BitVec.toNat_shiftLeft, BitVec.toNat_setWidth, Nat.shiftLeft_eq, Nat.mod_eq_of_lt (show m.toNat < 2 ^ 23 by omega), Nat.mod_eq_of_lt (by omega)]

theorem exponent_shift (e : BitVec 5) (hzero : e ≠ 0#5) (hfinite : e ≠ 31#5) :
    e.setWidth 32 + 112#32 = (e.setWidth 8 + 112#8).setWidth 32 ∧ e.setWidth 8 + 112#8 ≠ 0#8 ∧ e.setWidth 8 + 112#8 ≠ 255#8 ∧
      (e.setWidth 8 + 112#8).toNat = e.toNat + 112 := by
  revert e
  decide +kernel

variable {ops : Floats}

/-- **The kernel's half floats** are those of the format. -/
theorem halfToF32_eq (hops : ops.Exact) {h : BitVec 16} (hfinite : FiniteHalf h) : halfToF32 ops (h.setWidth 32) = ops.half h := by
  unfold halfToF32
  dsimp only
  rw [exponent_bits, mantissa_bits, sign_bits]
  by_cases hzero : h.extractLsb' 10 5 = 0#5
  · rw [hops.half_subnormal h hzero, hzero]
    have hman : ((h.extractLsb' 0 10).setWidth 32).toNat = (h.extractLsb' 0 10).toNat := BitVec.toNat_setWidth_of_le (by decide)
    rw [hman]
    cases h.msb <;> simp <;> ring
  · obtain ⟨hshift, hne, hne', hsum⟩ := exponent_shift (h.extractLsb' 10 5) hzero hfinite
    obtain ⟨hsign, hexponent, hmantissa⟩ := float_bits h.msb ((h.extractLsb' 10 5).setWidth 8 + 112#8) (h.extractLsb' 0 10)
    have hnonzero : (h.extractLsb' 10 5).setWidth 32 ≠ 0#32 := by
      intro heq
      apply hzero
      have hnat := congrArg BitVec.toNat heq
      rw [BitVec.toNat_setWidth, Nat.mod_eq_of_lt (by have := (h.extractLsb' 10 5).isLt; omega)] at hnat
      exact BitVec.eq_of_toNat_eq hnat
    rw [if_pos hnonzero, hshift, hops.normal _ (by rw [hexponent]; exact hne) (by rw [hexponent]; exact hne'), hsign, hexponent, hmantissa,
      hops.half_normal h hfinite hzero, hsum, mantissa_toNat]
    unfold ieee
    have hexp : (((h.extractLsb' 10 5).toNat + 112 : Nat) : ℤ) - (127 : Nat) = ((h.extractLsb' 10 5).toNat : ℤ) - (15 : Nat) := by
      push_cast
      ring
    rw [hexp]
    push_cast
    ring

/-! ## Decoding -/

/-- The elements of a block, or the one of a float. -/
def decodeUnit (ops : Floats) (dtype : GgmlDType) (b : Bytes) : List ℚ :=
  match dtype with
  | .f32 => [ops.fromBits (le32 b 0)]
  | .f16 => [ops.half (le16 b 0)]
  | .bf16 => [ops.bfloat (le16 b 0)]
  | dtype => decodeBlock ops dtype 1 b

/-- The data types that a kernel's format is, block by block or float by float. -/
def Held : GgmlDType → Prop
  | .f32 | .f16 | .bf16 | .q4_0 | .q4_1 | .q8_0 => True
  | _ => False

def decode (ops : Floats) (dtype : GgmlDType) (bytes : Bytes) : List ℚ := (chunks dtype.typeSize bytes).flatMap (decodeUnit ops dtype)

theorem length_nibbles (qs : Bytes) (value : UInt8 → ℚ) : (nibbles qs value).length = 2 * qs.length := by
  unfold nibbles
  rw [List.length_append, List.length_map, List.length_map, Nat.two_mul]

theorem length_decodeUnit {dtype : GgmlDType} (hheld : Held dtype) {b : Bytes} (hb : b.length = dtype.typeSize) :
    (decodeUnit ops dtype b).length = dtype.blockSize := by
  cases dtype <;> first | exact hheld.elim | rfl | skip
  · unfold decodeUnit decodeBlock
    rw [length_nibbles, List.length_take, List.length_drop, hb]
    rfl
  · unfold decodeUnit decodeBlock
    rw [length_nibbles, List.length_take, List.length_drop, hb]
    rfl
  · unfold decodeUnit decodeBlock
    rw [List.length_map, List.length_take, List.length_drop, hb]
    rfl

theorem dequantRow_decode {dtype : GgmlDType} (hheld : Held dtype) {bytes : Bytes} {out : List ℚ} (hblock : out.length % dtype.blockSize = 0)
    (hbytes : bytes.length = out.length / dtype.blockSize * dtype.typeSize) : dequantRow ops dtype bytes 1 out = .ok (decode ops dtype bytes) := by
  have hfits : ¬(out.length % dtype.blockSize ≠ 0 ∨ bytes.length ≠ out.length / dtype.blockSize * dtype.typeSize) := by omega
  have hflat {f : Bytes → ℚ} {g : Bytes → List ℚ} (h : ∀ b, g b = [f b]) (l : List Bytes) : l.map (fun b => f b * 1) = l.flatMap g := by
    induction l with
    | nil => rfl
    | cons b l ih => rw [List.map_cons, ih, List.flatMap_cons, h, mul_one, List.singleton_append]
  unfold dequantRow
  rw [if_neg hfits]
  unfold decode
  cases dtype <;> first | exact hheld.elim | rfl | skip
  · exact congrArg Except.ok (hflat (fun b => rfl) _)
  · exact congrArg Except.ok (hflat (fun b => rfl) _)
  · exact congrArg Except.ok (hflat (fun b => rfl) _)

theorem typeSize_pos (dtype : GgmlDType) : 0 < dtype.typeSize := by
  cases dtype <;> decide

theorem blockSize_pos (dtype : GgmlDType) : 0 < dtype.blockSize := by
  cases dtype <;> decide

variable (ops) in
/-- **A row** of a matrix is decoded to its part of the elements. -/
theorem dequantRow_eq {dtype : GgmlDType} (hheld : Held dtype) {source : Bytes} {rows cols r : Nat} (hcols : cols % dtype.blockSize = 0)
    (hsource : source.length = rows * (cols / dtype.blockSize * dtype.typeSize)) (hr : r < rows) {out : List ℚ} (hout : out.length = cols) :
    dequantRow ops dtype ((source.drop (r * (cols / dtype.blockSize * dtype.typeSize))).take (cols / dtype.blockSize * dtype.typeSize)) 1 out =
      .ok (((decode ops dtype source).drop (r * cols)).take cols) := by
  obtain ⟨n, hn⟩ : ∃ n, cols / dtype.blockSize = n := ⟨_, rfl⟩
  have hcols' : n * dtype.blockSize = cols := hn ▸ Nat.div_mul_cancel (Nat.dvd_of_mod_eq_zero hcols)
  have hrow := Nat.mul_le_mul_right (n * dtype.typeSize) (show r + 1 ≤ rows from hr)
  rw [Nat.succ_mul] at hrow
  rw [hn] at hsource ⊢
  rw [dequantRow_decode hheld (by rw [hout]; exact hcols) (by rw [hout, hn, List.length_take, List.length_drop]; omega)]
  unfold decode
  have hslice := @flatMap_slice _ _ (decodeUnit ops dtype) dtype.typeSize dtype.blockSize (r * n) n source
    (fun b hb => length_decodeUnit hheld (length_of_mem hb)) (typeSize_pos dtype) (by
      rw [hsource, ← Nat.mul_assoc, Nat.mul_div_cancel _ (typeSize_pos dtype), ← Nat.succ_mul]
      exact Nat.mul_le_mul_right n hr)
  rw [Nat.mul_assoc, Nat.mul_assoc, hcols'] at hslice
  rw [hslice]

/-! ## Words that were put -/

/-- The words are in the pool, from `base` on. -/
def Placed (pool : List Word) (base : Nat) (words : List Word) : Prop := ∃ before behind, pool = before ++ words ++ behind ∧ before.length = base

section
variable {pool words more : List Word} {base : Nat}

theorem Placed.length_le (h : Placed pool base words) : base + words.length ≤ pool.length := by
  obtain ⟨before, behind, rfl, rfl⟩ := h
  rw [List.length_append, List.length_append]
  exact Nat.le_add_right _ _

theorem Placed.getD_eq (h : Placed pool base words) {i : Nat} (hi : i < words.length) : pool.getD (base + i) 0#32 = words.getD i 0#32 := by
  obtain ⟨before, behind, rfl, rfl⟩ := h
  rw [List.getD_eq_getElem?_getD, List.getD_eq_getElem?_getD, List.append_assoc, List.getElem?_append_right (Nat.le_add_right _ _),
    Nat.add_sub_cancel_left, List.getElem?_append_left hi]

theorem Placed.left (h : Placed pool base (words ++ more)) : Placed pool base words := by
  obtain ⟨before, behind, rfl, rfl⟩ := h
  exact ⟨before, more ++ behind, by simp only [List.append_assoc], rfl⟩

theorem Placed.right (h : Placed pool base (words ++ more)) : Placed pool (base + words.length) more := by
  obtain ⟨before, behind, rfl, rfl⟩ := h
  exact ⟨before ++ words, behind, by simp only [List.append_assoc], List.length_append⟩

end

theorem putValues_spec {vw count : Nat} {bs : List Bytes} (word : Bytes → Nat → Word) (hcount : count = bs.length * vw) :
    ∃ values, putValues vw count bs word = some values ∧ values.length = count ∧
      ∀ b < bs.length, ∀ w < vw, values.getD (b * vw + w) 0#32 = word (bs.getD b []) w := by
  have hmem {write : Nat × Word} (hwrite : write ∈ (List.range bs.length).flatMap fun b =>
      (List.range vw).map fun w => (b * vw + w, word (bs.getD b []) w)) :
      ∃ b < bs.length, ∃ w < vw, write = (b * vw + w, word (bs.getD b []) w) := by
    obtain ⟨b, hb, hwrite⟩ := List.mem_flatMap.mp hwrite
    obtain ⟨w, hw, rfl⟩ := List.mem_map.mp hwrite
    exact ⟨b, List.mem_range.mp hb, w, List.mem_range.mp hw, rfl⟩
  obtain ⟨values, hvalues, hlength, hholds⟩ := scatter_holds
    (holds_empty (fun i => word (bs.getD (i / vw) []) (i % vw)) (List.replicate count 0#32)) _
    (fun write hwrite => by
      obtain ⟨b, hb, w, hw, rfl⟩ := hmem hwrite
      dsimp only
      rw [grid_div hw, grid_mod hw])
    (fun write hwrite => by
      obtain ⟨b, hb, w, hw, rfl⟩ := hmem hwrite
      rw [List.length_replicate, hcount]
      exact grid_lt hb hw)
  refine ⟨values, hvalues, hlength.trans List.length_replicate, fun b hb w hw => ?_⟩
  have hread := hholds (b * vw + w) (.inr ⟨_, List.mem_flatMap.mpr ⟨b, List.mem_range.mpr hb, List.mem_map.mpr ⟨w, List.mem_range.mpr hw, rfl⟩⟩, rfl⟩)
  rw [List.getD_eq_getElem?_getD, hread, Option.getD_some]
  dsimp only
  rw [grid_div hw, grid_mod hw]

theorem halves_spec {bs : List Bytes} (start : Nat) {count : Nat} (hcount : bs.length ≤ count * 2) :
    ∃ hs, halves bs start count = some hs ∧ hs.length = count ∧
      ∀ b < bs.length, fieldAt 16 2 hs b = (le16 (bs.getD b []) start).setWidth 32 := by
  obtain ⟨hs, hput, hlength, hread⟩ := @putAll_spec 32 16 2 count bs.length
    (fun b => (le16 (bs.getD b []) start).setWidth 32) (by decide) (by decide)
    (fun b _ => by
      rw [BitVec.toNat_setWidth]
      exact Nat.lt_of_le_of_lt (Nat.mod_le _ _) (BitVec.isLt _)) hcount
  refine ⟨hs, hput, hlength, fun b hb => ?_⟩
  rw [hread, if_pos hb]

theorem halfAt_eq (hops : ops.Exact) {pool hs : List Word} {base index : Nat} (hplaced : Placed pool base hs) (hindex : index / 2 < hs.length)
    {h : BitVec 16} (hread : fieldAt 16 2 hs index = h.setWidth 32) (hfinite : FiniteHalf h) : halfAt ops pool base index = ops.half h := by
  unfold halfAt
  dsimp only
  rw [hplaced.getD_eq hindex, Nat.mul_comm, ← halfToF32_eq hops hfinite, ← hread]
  rfl

/-! ## A block -/

/-- Element `e` of the nibbles of a block. -/
def nibble (qs : Bytes) (e : Nat) : UInt8 := if e < 16 then byte qs (e % 16) &&& 0x0F else byte qs (e % 16) >>> (4 : UInt8)

theorem nibble_lt (qs : Bytes) (e : Nat) : (nibble qs e).toNat < 2 ^ 4 := by
  unfold nibble
  have hbyte := (byte qs (e % 16)).toNat_lt
  split
  · rw [UInt8.toNat_and]
    exact Nat.and_lt_two_pow _ (by decide)
  · rw [UInt8.toNat_shiftRight, Nat.shiftRight_eq_div_pow]
    show (byte qs (e % 16)).toNat / 2 ^ 4 < 2 ^ 4
    omega

theorem nibbleWord_field (qs : Bytes) (w : Nat) {i : Nat} (hi : i < 8) :
    ((nibbleWord qs w >>> (i * 4)) &&& 0xF#32).toNat = (nibble qs (w * 8 + i)).toNat := by
  have hsmall (e : Nat) : (BitVec.ofNat 32 (nibble qs e).toNat).toNat = (nibble qs e).toNat := by
    have := nibble_lt qs e
    rw [BitVec.toNat_ofNat, Nat.mod_eq_of_lt (by omega)]
  have hfield := @field_pack 32 4 (fun i => BitVec.ofNat 32 (nibble qs (8 * w + i)).toNat) 8
    (fun j _ => by
      rw [hsmall]
      exact nibble_lt qs _) (by decide) i
  rw [if_pos hi, Nat.mul_comm 8 w] at hfield
  rw [← hsmall, ← hfield, Nat.mul_comm i 4, Nat.mul_comm w 8]
  rfl

theorem nibbles_getD {qs : Bytes} (hqs : qs.length = 16) (value : UInt8 → ℚ) {e : Nat} (he : e < 32) :
    (nibbles qs value).getD e 0 = value (nibble qs e) := by
  unfold nibbles nibble byte
  rw [List.getD_eq_getElem?_getD]
  by_cases hlow : e < 16
  · rw [List.getElem?_append_left (by rw [List.length_map]; omega), if_pos hlow, Nat.mod_eq_of_lt hlow, List.getElem?_map,
      List.getElem?_eq_getElem (by omega), List.getD_eq_getElem?_getD,
      List.getElem?_eq_getElem (by omega)]
    rfl
  · rw [List.getElem?_append_right (by rw [List.length_map]; omega), List.length_map, hqs, if_neg hlow, List.getElem?_map,
      show e % 16 = e - 16 by omega, List.getElem?_eq_getElem (by omega), List.getD_eq_getElem?_getD,
      List.getElem?_eq_getElem (by omega)]
    rfl

section
variable {pool : List Word} {matrix scales mins block : Nat} {x : List ℚ} {xo : Nat}

theorem nibble_sums {qs : Bytes} (hwords : ∀ w < 4, pool.getD (matrix + block * 4 + w) 0#32 = nibbleWord qs w) :
    ((List.range 4).foldl (fun sums w =>
      (List.range 8).foldl (fun (sums : ℚ × ℚ) i =>
        (sums.1 + ((((pool.getD (matrix + block * 4 + w) 0#32) >>> (i * 4)) &&& 0xF#32).toNat : ℚ) * x.getD (xo + w * 8 + i) 0,
          sums.2 + x.getD (xo + w * 8 + i) 0)) sums) ((0, 0) : ℚ × ℚ)) =
      (∑ e ∈ Finset.range 32, ((nibble qs e).toNat : ℚ) * x.getD (xo + e) 0, ∑ e ∈ Finset.range 32, x.getD (xo + e) 0) := by
  have hinner (w : Nat) (hw : w < 4) (sums : ℚ × ℚ) : (List.range 8).foldl (fun (sums : ℚ × ℚ) i =>
        (sums.1 + ((((pool.getD (matrix + block * 4 + w) 0#32) >>> (i * 4)) &&& 0xF#32).toNat : ℚ) * x.getD (xo + w * 8 + i) 0,
          sums.2 + x.getD (xo + w * 8 + i) 0)) sums =
      sums + ∑ i ∈ Finset.range 8, (((nibble qs (w * 8 + i)).toNat : ℚ) * x.getD (xo + (w * 8 + i)) 0, x.getD (xo + (w * 8 + i)) 0) := by
    rw [← foldl_add]
    refine List.foldl_ext _ _ _ fun sums i hi => ?_
    rw [hwords w hw, nibbleWord_field qs w (List.mem_range.mp hi), Nat.add_assoc]
    rfl
  rw [List.foldl_ext _ _ _ fun sums w hw => hinner w (List.mem_range.mp hw) sums, foldl_add, Prod.mk_zero_zero, zero_add,
    sum_grid (fun e => (((nibble qs e).toNat : ℚ) * x.getD (xo + e) 0, x.getD (xo + e) 0)) 4 8]
  exact Prod.ext Prod.fst_sum Prod.snd_sum

theorem dotBlock_q4_0 {b : Bytes} (hb : b.length = 18)
    (hwords : ∀ w < 4, pool.getD (matrix + block * 4 + w) 0#32 = nibbleWord (b.drop 2) w)
    (hscale : halfAt ops pool scales block = ops.half (le16 b 0)) :
    dotBlock ops pool matrix scales mins 0 block x xo =
      ∑ e ∈ Finset.range 32, (decodeUnit ops .q4_0 b).getD e 0 * x.getD (xo + e) 0 := by
  have hqs : (b.drop 2).length = 16 := by rw [List.length_drop, hb]
  unfold dotBlock
  rw [if_neg (by decide), if_neg (by decide), if_pos rfl, hscale]
  dsimp only
  rw [nibble_sums hwords, Finset.mul_sum, ← Finset.sum_sub_distrib, Finset.mul_sum]
  refine Finset.sum_congr rfl fun e he => ?_
  unfold decodeUnit decodeBlock
  dsimp only
  rw [List.take_of_length_le (Nat.le_of_eq hqs), nibbles_getD hqs _ (Finset.mem_range.mp he)]
  ring

theorem dotBlock_q4_1 {b : Bytes} (hb : b.length = 20)
    (hwords : ∀ w < 4, pool.getD (matrix + block * 4 + w) 0#32 = nibbleWord (b.drop 4) w)
    (hscale : halfAt ops pool scales block = ops.half (le16 b 0)) (hmin : halfAt ops pool mins block = ops.half (le16 b 2)) :
    dotBlock ops pool matrix scales mins 1 block x xo =
      ∑ e ∈ Finset.range 32, (decodeUnit ops .q4_1 b).getD e 0 * x.getD (xo + e) 0 := by
  have hqs : (b.drop 4).length = 16 := by rw [List.length_drop, hb]
  unfold dotBlock
  rw [if_neg (by decide), if_neg (by decide), if_neg (by decide), hscale, hmin]
  dsimp only
  rw [nibble_sums hwords, Finset.mul_sum, Finset.mul_sum, ← Finset.sum_add_distrib]
  refine Finset.sum_congr rfl fun e he => ?_
  unfold decodeUnit decodeBlock
  dsimp only
  rw [List.take_of_length_le (Nat.le_of_eq hqs), nibbles_getD hqs _ (Finset.mem_range.mp he)]
  ring

theorem dotBlock_q8_0 {b : Bytes} (hb : b.length = 34)
    (hwords : ∀ w < 8, pool.getD (matrix + block * 8 + w) 0#32 = le32 b (2 + 4 * w))
    (hscale : halfAt ops pool scales block = ops.half (le16 b 0)) :
    dotBlock ops pool matrix scales mins 2 block x xo =
      ∑ e ∈ Finset.range 32, (decodeUnit ops .q8_0 b).getD e 0 * x.getD (xo + e) 0 := by
  have hbyte (w : Nat) (hw : w < 8) (i : Nat) (hi : i < 4) :
      (pool.getD (matrix + block * 8 + w) 0#32 >>> (i * 8)) &&& 0xFF#32 = (byte b (2 + (w * 4 + i))).toBitVec.setWidth 32 := by
    rw [hwords w hw, Nat.mul_comm i 8, ← Nat.add_assoc, Nat.mul_comm w 4]
    exact le32_field b (2 + 4 * w) hi
  have hinner (w : Nat) (hw : w < 8) (s : ℚ) : (List.range 4).foldl (fun s i =>
        s + (((((pool.getD (matrix + block * 8 + w) 0#32 >>> (i * 8)) &&& 0xFF#32) &&& 0x7F#32).toNat -
          (((pool.getD (matrix + block * 8 + w) 0#32 >>> (i * 8)) &&& 0xFF#32) &&& 0x80#32).toNat : Int) : ℚ) * x.getD (xo + w * 4 + i) 0) s =
      s + ∑ i ∈ Finset.range 4, (((byte b (2 + (w * 4 + i))).toBitVec.toInt : Int) : ℚ) * x.getD (xo + (w * 4 + i)) 0 := by
    rw [← foldl_add]
    refine List.foldl_ext _ _ _ fun s i hi => ?_
    rw [hbyte w hw i (List.mem_range.mp hi), signed_byte, Nat.add_assoc]
  unfold dotBlock
  rw [if_neg (by decide), if_pos rfl, hscale]
  dsimp only
  rw [List.foldl_ext _ _ _ fun s w hw => hinner w (List.mem_range.mp hw) s, foldl_add, zero_add,
    sum_grid (fun e => (((byte b (2 + e)).toBitVec.toInt : Int) : ℚ) * x.getD (xo + e) 0) 8 4, Finset.mul_sum]
  refine Finset.sum_congr rfl fun e he => ?_
  have he' := Finset.mem_range.mp he
  unfold decodeUnit decodeBlock byte
  dsimp only
  rw [List.getD_eq_getElem?_getD (l := List.map _ _), List.getElem?_map, List.getElem?_take_of_lt he', List.getElem?_drop, List.getD_eq_getElem?_getD,
    List.getElem?_eq_getElem (show 2 + e < b.length by omega)]
  show ops.half (le16 b 0) * (((b[2 + e].toBitVec.toInt : Int) : ℚ) * _) = (((b[2 + e].toBitVec.toInt : Int) : ℚ) * (ops.half (le16 b 0) * 1)) * _
  ring

theorem dotBlock_f32 {elements : List ℚ}
    (hwords : ∀ i < 32, ops.fromBits (pool.getD (matrix + block * 32 + i) 0#32) = elements.getD (block * 32 + i) 0) :
    dotBlock ops pool matrix scales mins 3 block x xo =
      ∑ e ∈ Finset.range 32, elements.getD (block * 32 + e) 0 * x.getD (xo + e) 0 := by
  unfold dotBlock
  rw [if_pos rfl]
  dsimp only
  rw [foldl_add, zero_add]
  refine Finset.sum_congr rfl fun e he => ?_
  rw [hwords e (Finset.mem_range.mp he)]

end

end Cuca.Local.MoeKernel
