import Cuca.Lib.BitFields
import Cuca.Lib.Chunks
import Mathlib.Data.Rat.Floor

/-!
# Quantized rows

A weight is stored in blocks of one data type; a row of blocks is decoded to floats. The arithmetic on floats is exact.

* `GgmlDType`, `Floats`, `Floats.Exact` : data types, and floats as bits;
* `dequantRow` : the decoder;
* `quantizeQ80` : floats as Q8_0 blocks;
* `MatrixLayout`, `SlotLayout` : where everything is;
* `packMatrix`, `packExpert` : the packing;
* `dotRow` : the kernel.
-/

namespace Cuca.Local.Quant
open BitFields Chunks

abbrev Bytes := List UInt8

abbrev Word := BitVec 32

inductive GgmlDType where
  | f32
  | f16
  | bf16
  | q4_0
  | q4_1
  | q5_0
  | q5_1
  | q8_0
  | q8_1
  | q2k
  | q3k
  | q4k
  | q5k
  | q6k
  | q8k
  deriving DecidableEq, Repr

namespace GgmlDType

/-- Elements of a block. -/
def blockSize : GgmlDType → Nat
  | f32 | f16 | bf16 => 1
  | q4_0 | q4_1 | q5_0 | q5_1 | q8_0 | q8_1 => 32
  | q2k | q3k | q4k | q5k | q6k | q8k => 256

/-- Bytes of a block. -/
def typeSize : GgmlDType → Nat
  | f32 => 4
  | f16 | bf16 => 2
  | q4_0 => 18
  | q4_1 => 20
  | q5_0 => 22
  | q5_1 => 24
  | q8_0 => 34
  | q8_1 => 36
  | q2k => 84
  | q3k => 110
  | q4k => 144
  | q5k => 176
  | q6k => 210
  | q8k => 292

def name : GgmlDType → String
  | f32 => "F32"
  | f16 => "F16"
  | bf16 => "BF16"
  | q4_0 => "Q4_0"
  | q4_1 => "Q4_1"
  | q5_0 => "Q5_0"
  | q5_1 => "Q5_1"
  | q8_0 => "Q8_0"
  | q8_1 => "Q8_1"
  | q2k => "Q2K"
  | q3k => "Q3K"
  | q4k => "Q4K"
  | q5k => "Q5K"
  | q6k => "Q6K"
  | q8k => "Q8K"

end GgmlDType

/-- Floats as bits, and the decoder of the data types that are not decoded in place. -/
structure Floats where
  fromBits : Word → ℚ
  toBits : ℚ → Word
  /-- `f16::from_bits(h).to_f32()` -/
  half : BitVec 16 → ℚ
  /-- `bf16::from_bits(h).to_f32()` -/
  bfloat : BitVec 16 → ℚ
  /-- `f16::from_f32(v).to_bits()` -/
  fromHalf : ℚ → BitVec 16
  candle : GgmlDType → Bytes → Except String (List ℚ)

def ieee (sign : Bool) (exponent bias mantissa bits : Nat) : ℚ :=
  (if sign then -1 else 1) * (1 + mantissa / 2 ^ bits) * 2 ^ ((exponent : ℤ) - bias)

def FiniteHalf (h : BitVec 16) : Prop := h.extractLsb' 10 5 ≠ 31#5

/-- Bits are those of the formats, and every float comes back from its own. -/
structure Floats.Exact (ops : Floats) : Prop where
  normal : ∀ b : Word, b.extractLsb' 23 8 ≠ 0#8 → b.extractLsb' 23 8 ≠ 255#8 →
    ops.fromBits b = ieee b.msb (b.extractLsb' 23 8).toNat 127 (b.extractLsb' 0 23).toNat 23
  half_normal : ∀ h, FiniteHalf h → h.extractLsb' 10 5 ≠ 0#5 → ops.half h = ieee h.msb (h.extractLsb' 10 5).toNat 15 (h.extractLsb' 0 10).toNat 10
  half_subnormal : ∀ h, h.extractLsb' 10 5 = 0#5 → ops.half h = (if h.msb then -1 else 1) * (h.extractLsb' 0 10).toNat / 2 ^ 24
  fromBits_toBits : ∀ b, ops.fromBits (ops.toBits (ops.fromBits b)) = ops.fromBits b
  half_toBits : ∀ h, ops.fromBits (ops.toBits (ops.half h)) = ops.half h
  bfloat_toBits : ∀ h, ops.fromBits (ops.toBits (ops.bfloat h)) = ops.bfloat h

def byte (b : Bytes) (i : Nat) : UInt8 := b.getD i 0

/-- `u16::from_le_bytes([b[at], b[at + 1]])` -/
def le16 (b : Bytes) (start : Nat) : BitVec 16 := pack 8 (fun i => (byte b (start + i)).toBitVec.setWidth 16) 2

/-- `u32::from_le_bytes` of four bytes. -/
def le32 (b : Bytes) (start : Nat) : Word := pack 8 (fun i => (byte b (start + i)).toBitVec.setWidth 32) 4

variable (ops : Floats)

/-! ## Decoding -/

/-- `q5_pair` -/
def q5Pair (q : UInt8) (qh : Word) (j : Nat) : Int × Int :=
  let lo := (q &&& 0x0F).toBitVec ||| (((qh >>> j) <<< 4) &&& 0x10#32).setWidth 8
  let hi := (q >>> 4).toBitVec ||| ((qh >>> (j + 12)) &&& 0x10#32).setWidth 8
  (lo.toNat, hi.toNat)

def nibbles (qs : Bytes) (value : UInt8 → ℚ) : List ℚ := (qs.map fun q => value (q &&& 0x0F)) ++ qs.map fun q => value (q >>> (4 : UInt8))

/-- The elements of a block of 32. -/
def decodeBlock (dtype : GgmlDType) (scale : ℚ) (b : Bytes) : List ℚ :=
  let f16At start := ops.half (le16 b start) * scale
  let d := f16At 0
  match dtype with
  | .q4_0 => nibbles ((b.drop 2).take 16) fun q => ((q.toNat : ℚ) - 8) * d
  | .q4_1 => nibbles ((b.drop 4).take 16) fun q => (q.toNat : ℚ) * d + f16At 2
  | .q5_0 =>
    let pairs := ((b.drop 6).take 16).zipIdx.map fun q => q5Pair q.1 (le32 b 2) q.2
    (pairs.map fun pair => ((pair.1 - 16 : Int) : ℚ) * d) ++ pairs.map fun pair => ((pair.2 - 16 : Int) : ℚ) * d
  | .q5_1 =>
    let pairs := ((b.drop 8).take 16).zipIdx.map fun q => q5Pair q.1 (le32 b 4) q.2
    (pairs.map fun pair => (pair.1 : ℚ) * d + f16At 2) ++ pairs.map fun pair => (pair.2 : ℚ) * d + f16At 2
  | _ => ((b.drop 2).take 32).map fun q => (q.toInt8.toInt : ℚ) * d

/-- `dequant_row` into `out`. -/
def dequantRow (dtype : GgmlDType) (bytes : Bytes) (scale : ℚ) (out : List ℚ) : Except String (List ℚ) :=
  if out.length % dtype.blockSize ≠ 0 ∨ bytes.length ≠ out.length / dtype.blockSize * dtype.typeSize then
    .error s!"row of {bytes.length} bytes does not hold {out.length} {dtype.name} elements"
  else
    match dtype with
    | .f32 => .ok ((chunks 4 bytes).map fun w => ops.fromBits (le32 w 0) * scale)
    | .f16 => .ok ((chunks 2 bytes).map fun h => ops.half (le16 h 0) * scale)
    | .bf16 => .ok ((chunks 2 bytes).map fun h => ops.bfloat (le16 h 0) * scale)
    | .q4_0 | .q4_1 | .q5_0 | .q5_1 | .q8_0 => .ok ((chunks dtype.typeSize bytes).flatMap (decodeBlock ops dtype scale))
    | other =>
      match ops.candle other bytes with
      | .error message => .error message
      | .ok values => .ok (((values.map (· * scale)) ++ out.drop values.length).take out.length)

/-! ## Quantizing -/

/-- `round` : away from zero where two integers are as near. -/
def round (v : ℚ) : Int := if 0 ≤ v then ⌊v + 1 / 2⌋ else -⌊-v + 1 / 2⌋

/-- `quantize_q8_0` of one block. -/
def quantizeBlock (block : List ℚ) : Bytes :=
  let amax := block.foldl (fun m v => max m |v|) 0
  let scale := ops.fromHalf (amax / 127)
  let step := ops.half scale
  let inverse := if 0 < step then 1 / step else 0
  [UInt8.ofBitVec (scale.setWidth 8), UInt8.ofBitVec ((scale >>> 8).setWidth 8)] ++
    block.map fun v => (Int8.ofInt (max (-127) (min 127 (round (v * inverse))))).toUInt8

def quantizeQ80 (values : List ℚ) : Bytes := (chunks 32 values).flatMap (quantizeBlock ops)

end Cuca.Local.Quant

/-! ## The words of an expert

The kernels of a mixture of experts read the matrices of an expert from words of their own layout: the values of every block, the scales and
the minimums, the matrices one behind the other. The host packs the words from the file's bytes, and a kernel takes the dot product of a row
and activations from them. An index out of bounds and a division into chunks of no bytes are a panic: `none`.
-/

namespace Cuca.Local.MoeKernel
open BitFields Chunks Quant Scatter

/-- `BLOCK` -/
def blockLen : Nat := 32

/-! ## Layouts -/

inductive ExpertFormat where
  | q4_0
  | q4_1
  | q8_0
  | f32
  deriving DecidableEq, Repr

namespace ExpertFormat

def ofType : GgmlDType → ExpertFormat
  | .q4_0 => q4_0
  | .q4_1 => q4_1
  | .q8_0 => q8_0
  | .f32 | .f16 | .bf16 => f32
  | _ => q8_0

def code : ExpertFormat → Nat
  | q4_0 => 0
  | q4_1 => 1
  | q8_0 => 2
  | f32 => 3

def valueWords : ExpertFormat → Nat
  | q4_0 | q4_1 => 4
  | q8_0 => 8
  | f32 => blockLen

def hasScale (format : ExpertFormat) : Bool := format ≠ f32

def hasMin (format : ExpertFormat) : Bool := format = q4_1

end ExpertFormat

structure MatrixLayout where
  format : ExpertFormat
  rows : Nat
  cols : Nat
  /-- The first word in the slot. -/
  offset : Nat

namespace MatrixLayout
variable (m : MatrixLayout)

def blocks : Nat := m.rows * m.cols / blockLen

def halfWords : Nat := (m.blocks + 1) / 2

def scaleOffset : Nat := m.offset + m.blocks * m.format.valueWords

def minOffset : Nat := m.scaleOffset + m.halfWords

def words : Nat :=
  m.blocks * m.format.valueWords + (if m.format.hasScale then m.halfWords else 0) + if m.format.hasMin then m.halfWords else 0

end MatrixLayout

/-- Something of each matrix of an expert. -/
structure Matrices (α : Type) where
  gate : α
  up : α
  down : α

structure SlotLayout where
  matrices : Matrices MatrixLayout
  words : Nat

def SlotLayout.new (nEmbd ff : Nat) (dtypes : Matrices GgmlDType) : Except String SlotLayout :=
  if nEmbd % blockLen ≠ 0 ∨ ff % blockLen ≠ 0 then
    .error s!"expert matrices of {nEmbd} inputs and {ff} features are not whole {blockLen}-element blocks"
  else
    let gate : MatrixLayout := ⟨.ofType dtypes.gate, ff, nEmbd, 0⟩
    let up : MatrixLayout := ⟨.ofType dtypes.up, ff, nEmbd, gate.words⟩
    let down : MatrixLayout := ⟨.ofType dtypes.down, nEmbd, ff, gate.words + up.words⟩
    .ok ⟨⟨gate, up, down⟩, gate.words + up.words + down.words⟩

/-! ## Packing -/

variable (ops : Floats)

def matrixErr (message : String) : String := s!"expert matrix: {message}"

/-- `Display` of an error of the local provider. -/
def display (message : String) : String := s!"provider local failed: {message}"

def halves (bs : List Bytes) (start words : Nat) : Option (List Word) :=
  putAll 16 2 (fun b => (le16 (bs.getD b []) start).setWidth 32) (List.replicate words 0#32) bs.length

/-- Word `w` of the nibbles of a block. -/
def nibbleWord (qs : Bytes) (w : Nat) : Word :=
  pack 4 (fun i =>
    let e := 8 * w + i
    let b := byte qs (e % 16)
    BitVec.ofNat 32 (if e < 16 then b &&& 0x0F else b >>> (4 : UInt8)).toNat) 8

def putValues (vw count : Nat) (bs : List Bytes) (word : Bytes → Nat → Word) : Option (List Word) :=
  scatter (List.replicate count 0#32) ((List.range bs.length).flatMap fun b => (List.range vw).map fun w => (b * vw + w, word (bs.getD b []) w))

/-- A row decoded and quantized. -/
def requantRow (dtype : GgmlDType) (acc : List ℚ × Bytes) (row : Bytes) : Except String (List ℚ × Bytes) :=
  match dequantRow ops dtype row 1 acc.1 with
  | .error message => .error (matrixErr (display message))
  | .ok buf => .ok (buf, acc.2 ++ quantizeQ80 ops buf)

/-- A row decoded, its floats as bits. -/
def floatRow (m : MatrixLayout) (dtype : GgmlDType) (acc : List ℚ × Option (List Word)) (row : Bytes × Nat) :
    Except String (List ℚ × Option (List Word)) :=
  match dequantRow ops dtype row.1 1 acc.1 with
  | .error message => .error (matrixErr (display message))
  | .ok buf => .ok (buf, acc.2.bind fun values => scatter values (buf.zipIdx.map fun v => (row.2 * m.cols + v.2, ops.toBits v.1)))

/-- The Q8_0 blocks of a matrix: the file's own, or the rows decoded and quantized. -/
def q8Bytes (m : MatrixLayout) (dtype : GgmlDType) (raw : Bytes) : Except String (Option Bytes) :=
  if dtype = .q8_0 then .ok (some raw)
  else
    let rowBytes := m.cols / dtype.blockSize * dtype.typeSize
    if rowBytes * m.rows ≠ raw.length then .error (matrixErr s!"{raw.length} bytes of {dtype.name}")
    else if rowBytes = 0 then .ok none
    else
      match (chunks rowBytes raw).foldlM (requantRow ops dtype) (List.replicate m.cols 0, []) with
      | .error message => .error message
      | .ok acc => .ok (some acc.2)

def packMatrix (m : MatrixLayout) (dtype : GgmlDType) (raw : Bytes) (out : List Word) : Except String (Option (List Word)) :=
  match m.format with
  | .q4_0 | .q4_1 =>
    if (dtype ≠ .q4_0 ∧ dtype ≠ .q4_1) ∨ raw.length ≠ m.blocks * dtype.typeSize then
      .error (matrixErr s!"{raw.length} bytes of {dtype.name} for {m.blocks} blocks")
    else
      let head := if m.format.hasMin then 4 else 2
      let bs := chunks dtype.typeSize raw
      .ok do
        guard (bs = [] ∨ head + 16 ≤ dtype.typeSize)
        let scales ← halves bs 0 m.halfWords
        let mins ← if m.format.hasMin then halves bs 2 m.halfWords else some []
        let values ← putValues 4 (m.blocks * m.format.valueWords) bs fun block => nibbleWord (block.drop head)
        return out ++ (values ++ (scales ++ mins))
  | .q8_0 =>
    match q8Bytes ops m dtype raw with
    | .error message => .error message
    | .ok none => .ok none
    | .ok (some source) =>
      if source.length ≠ m.blocks * 34 then .error (matrixErr s!"{source.length} bytes of Q8_0 for {m.blocks} blocks")
      else
        let bs := chunks 34 source
        .ok do
          let scales ← halves bs 0 m.halfWords
          let values ← putValues 8 (m.blocks * m.format.valueWords) bs fun block w => le32 block (2 + 4 * w)
          return out ++ (values ++ scales)
  | .f32 =>
    let rowBytes := m.cols / dtype.blockSize * dtype.typeSize
    if rowBytes * m.rows ≠ raw.length then .error (matrixErr s!"{raw.length} bytes of {dtype.name}")
    else if rowBytes = 0 then .ok none
    else
      match (chunks rowBytes raw).zipIdx.foldlM (floatRow ops m dtype)
          (List.replicate m.cols 0, some (List.replicate (m.blocks * m.format.valueWords) 0#32)) with
      | .error message => .error message
      | .ok acc => .ok (acc.2.map fun values => out ++ values)

/-- The words of the matrices of an expert. -/
def packExpert (layout : SlotLayout) (dtypes : Matrices GgmlDType) (raw : Matrices Bytes) : Except String (Option (List Word)) :=
  match packMatrix ops layout.matrices.gate dtypes.gate raw.gate [] with
  | .error message => .error message
  | .ok none => .ok none
  | .ok (some words) =>
    match packMatrix ops layout.matrices.up dtypes.up raw.up words with
    | .error message => .error message
    | .ok none => .ok none
    | .ok (some words) => packMatrix ops layout.matrices.down dtypes.down raw.down words

/-! ## The kernel -/

def halfToF32 (h : Word) : ℚ :=
  let sign := (h &&& 0x8000#32) <<< 16
  let exp := (h >>> 10) &&& 0x1F#32
  let man := h &&& 0x3FF#32
  let out := (man.toNat : ℚ) * (1 / 2 ^ 24)
  let out := if sign ≠ 0#32 then -out else out
  if exp ≠ 0#32 then ops.fromBits (sign ||| ((exp + 112#32) <<< 23) ||| (man <<< 13)) else out

def halfAt (pool : List Word) (base index : Nat) : ℚ :=
  let word := pool.getD (base + index / 2) 0#32
  let shift := index % 2 * 16
  halfToF32 ops ((word >>> shift) &&& 0xFFFF#32)

/-- What a block adds; `xo` is where its activations are. -/
def dotBlock (pool : List Word) (matrix scales mins format block : Nat) (x : List ℚ) (xo : Nat) : ℚ :=
  if format = 3 then
    let wb := matrix + block * 32
    (List.range 32).foldl (fun s i => s + ops.fromBits (pool.getD (wb + i) 0#32) * x.getD (xo + i) 0) 0
  else if format = 2 then
    let wb := matrix + block * 8
    let s := (List.range 8).foldl (fun s w =>
      let word := pool.getD (wb + w) 0#32
      (List.range 4).foldl (fun s i =>
        let b := (word >>> (i * 8)) &&& 0xFF#32
        let q : Int := (b &&& 0x7F#32).toNat - (b &&& 0x80#32).toNat
        s + (q : ℚ) * x.getD (xo + w * 4 + i) 0) s) 0
    halfAt ops pool scales block * s
  else
    let wb := matrix + block * 4
    let sums := (List.range 4).foldl (fun sums w =>
      let word := pool.getD (wb + w) 0#32
      (List.range 8).foldl (fun (sums : ℚ × ℚ) i =>
        let q := (word >>> (i * 4)) &&& 0xF#32
        let xv := x.getD (xo + w * 8 + i) 0
        (sums.1 + (q.toNat : ℚ) * xv, sums.2 + xv)) sums) ((0, 0) : ℚ × ℚ)
    if format = 0 then halfAt ops pool scales block * (sums.1 - 8 * sums.2)
    else halfAt ops pool scales block * sums.1 + halfAt ops pool mins block * sums.2

/-- Whether what a block reads is inside. -/
def blockInside (pool : List Word) (matrix scales mins format block : Nat) (x : List ℚ) (xo : Nat) : Bool :=
  xo + 32 ≤ x.length &&
    if format = 3 then matrix + block * 32 + 32 ≤ pool.length
    else
      scales + block / 2 < pool.length &&
        if format = 2 then matrix + block * 8 + 8 ≤ pool.length
        else matrix + block * 4 + 4 ≤ pool.length && (format = 0 || mins + block / 2 < pool.length)

/-- `dot_row` -/
def dotRow (pool : List Word) (matrix scales mins format row blocksPerRow : Nat) (x : List ℚ) (xBase : Nat) : Option ℚ :=
  (List.range blocksPerRow).foldlM (fun acc b =>
    let block := row * blocksPerRow + b
    let xo := xBase + b * 32
    if blockInside pool matrix scales mins format block x xo then some (acc + dotBlock ops pool matrix scales mins format block x xo)
    else none) 0

end Cuca.Local.MoeKernel
