import Cuca.Lib.Claims
import Cuca.Lib.Chunks

/-!
# The row-batched quantized product

A weight of Q4_0 or Q8_0 blocks times rows of activations. Each weight block is read once for a tile of activation rows; tiles, weight rows
and column chunks that threads claim all write into buffers by index. An index out of bounds is a panic: `none`.

The operations on `f32` are any operations.

* `Format`, `Acts` : the blocks of a weight, and activations quantized in blocks;
* `tile`, `put`, `rowsOf`, `chunk` : the kernel;
* `run`, `forwardRows` : the chunks over threads, and the whole product;
* `rowDot` : the lane sum of one weight row and one activation row.
-/

namespace Cuca.Local.Qmm
open Scatter

/-! ## Blocks -/

structure Floats (F : Type) where
  zero : F
  one : F
  half : F
  /-- `127.0` -/
  quantMax : F
  add : F → F → F
  sub : F → F → F
  mul : F → F → F
  div : F → F → F
  max : F → F → F
  copysign : F → F → F
  abs : F → F
  trunc : F → F
  ge : F → F → Bool
  ne : F → F → Bool
  /-- `as i8` -/
  toI8 : F → Int8
  /-- `i32 as f32` -/
  ofI32 : Int → F
  /-- `f16::from_f32(x).to_f32()` -/
  roundF16 : F → F
  /-- `f16::from_le_bytes([a, b]).to_f32()` -/
  ofF16 : UInt8 → UInt8 → F

abbrev Bytes := List UInt8

/-- `QK` -/
def qk : Nat := 32

/-- `NR`, `MR` and `MIN_TILE` -/
def nr : Nat := 4

def mr : Nat := 4

def minTile : Nat := 3

/-- `SERIAL_BELOW` -/
def serialBelow : Nat := 2 ^ 17

abbrev Lane := Fin 16

/-- The quants of a block: its two halves. -/
abbrev Halves := Fin 2 → Lane → Int16

def noQuants : Halves := fun _ _ => 0

structure Format (F : Type) where
  /-- `size_of::<Block>()` -/
  size : Nat
  scale : Bytes → F
  halves : Bytes → Halves

/-- `row.as_chunks().0` -/
def Format.blocks {F : Type} (fmt : Format F) (row : Bytes) : List Bytes :=
  (List.range (row.length / fmt.size)).map fun b => (row.drop (b * fmt.size)).take fmt.size

def byte (block : Bytes) (i : Nat) : UInt8 := block.getD i 0

variable {F : Type} (ops : Floats F)

def q4_0 : Format F where
  size := 18
  scale block := ops.ofF16 (byte block 0) (byte block 1)
  halves block half i :=
    if half = 0 then Int16.ofNat (byte block (2 + i) &&& 0x0F).toNat - 8 else Int16.ofNat (byte block (2 + i) >>> 4).toNat - 8

def q8_0 : Format F where
  size := 34
  scale block := ops.ofF16 (byte block 0) (byte block 1)
  halves block half i := (byte block (2 + 16 * half + i)).toInt8.toInt16

/-! ## Activations -/

def roundAway (t : F) : F :=
  let whole := ops.trunc t
  if ops.ge (ops.abs (ops.sub t whole)) ops.half then ops.add whole (ops.copysign ops.one t) else whole

/-- The largest magnitude of a block, from eight running maxima. -/
def amax (src : List F) : F :=
  let maxima (i : Nat) := (List.range (src.length / 8)).foldl (fun m8 lane => ops.max m8 (ops.abs (src.getD (8 * lane + i) ops.zero))) ops.zero
  (List.range 8).foldl (fun a i => ops.max a (maxima i)) ops.zero

/-- A block of activations as quants and their scale. -/
def quantBlock (src : List F) : Halves × F :=
  let d := ops.div (amax ops src) ops.quantMax
  let id := if ops.ne d ops.zero then ops.div ops.one d else ops.zero
  (fun half l => (ops.toI8 (roundAway ops (ops.mul (src.getD (16 * half + l) ops.zero) id))).toInt16, ops.roundF16 d)

structure Acts (F : Type) where
  nb : Nat
  m : Nat
  stride : Nat
  qs : List Halves
  scales : List F

def actBlock (x : List F) (k j b : Nat) : List F := (x.drop (j * k + b * qk)).take qk

/-- `Acts::new`; `chunks_exact(0)` is a panic. -/
def Acts.new (x : List F) (m k : Nat) : Option (Acts F) :=
  if k = 0 then none
  else do
    let nb := k / qk
    let stride := max m minTile
    let cells := (List.range (min (x.length / k) m)).flatMap fun j => (List.range nb).map fun b => (j, b)
    let qs ← scatter (List.replicate (nb * stride) noQuants)
      (cells.map fun (j, b) => (b * stride + j, (quantBlock ops (actBlock x k j b)).1))
    let scales ← scatter (List.replicate (nb * stride) ops.zero)
      (cells.map fun (j, b) => (b * stride + j, (quantBlock ops (actBlock x k j b)).2))
    return ⟨nb, m, stride, qs, scales⟩

/-! ## The kernel -/

/-- `dot_block`; products and sums wrap. -/
def dotBlock (w x : Halves) : Lane → Int := fun l => (w 0 l * x 0 l + w 1 l * x 1 l).toInt

abbrev Lanes (F : Type) := Lane → F

/-- One block pair: `acc[l] += p[l] as f32 * (d * dx)`. -/
def addBlock (acc : Lanes F) (w : Halves) (d : F) (x : Halves) (dx : F) : Lanes F := fun l =>
  ops.add (acc l) (ops.mul (ops.ofI32 (dotBlock w x l)) (ops.mul d dx))

def hsum (a : Lanes F) : F :=
  let h (i : Nat) := ops.add (a (Fin.ofNat 16 i)) (a (Fin.ofNat 16 (i + 8)))
  ops.add (ops.add (ops.add (h 0) (h 4)) (ops.add (h 1) (h 5))) (ops.add (ops.add (h 2) (h 6)) (ops.add (h 3) (h 7)))

variable (fmt : Format F) (act : Acts F)

/-- A block of `rows` against that of the activation rows from `j0` on. -/
def tileStep (rows : List (List Bytes)) (tileRows j0 : Nat) (acc : Nat → Nat → Lanes F) (b : Nat) : Option (Nat → Nat → Lanes F) :=
  let start := b * act.stride + j0
  if start + tileRows ≤ act.qs.length ∧ start + tileRows ≤ act.scales.length ∧ rows.all (b < ·.length) then
    some fun r jj =>
      let w := (rows.getD r []).getD b []
      addBlock ops (acc r jj) (fmt.halves w) (fmt.scale w) (act.qs.getD (start + jj) noQuants) (act.scales.getD (start + jj) ops.zero)
  else none

/-- The dots of the weight rows with `tileRows` activation rows from `j0` on. -/
def tile (rows : List (List Bytes)) (tileRows j0 : Nat) : Option (List (List F)) := do
  let acc ← (List.range act.nb).foldlM (tileStep ops fmt act rows tileRows j0) fun _ _ _ => ops.zero
  return (List.range rows.length).map fun r => (List.range tileRows).map fun jj => hsum ops (acc r jj)

/-- A tile into the scratch, without the rows of padding. -/
def put (tile : List (List F)) (res : List F) (m rows r0 j0 : Nat) : Option (List F) :=
  scatter res (tile.zipIdx.flatMap fun (tileRow, i) => tileRow.zipIdx.filterMap fun (v, jj) =>
    if j0 + jj < m then some ((j0 + jj) * rows + r0 + i, v) else none)

/-- Full tiles from the activation row `j0` on; with the row behind them. -/
def fullTiles (rs : List (List Bytes)) (rows r j0 : Nat) (res : List F) : Option (Nat × List F) :=
  if mr ≤ act.m - j0 then
    match tile ops fmt act rs mr j0 with
    | none => none
    | some t =>
      match put t res act.m rows r j0 with
      | none => none
      | some res => fullTiles rs rows r (j0 + mr) res
  else some (j0, res)
termination_by act.m - j0
decreasing_by
  unfold mr at *
  omega

/-- The weight rows `rs` against every activation row. -/
def rowsOf (rs : List (List Bytes)) (rows r : Nat) (res : List F) : Option (List F) := do
  let (j0, res) ← fullTiles ops fmt act rs rows r 0 res
  if j0 < act.m then
    let j1 := act.m - minTile
    put (← tile ops fmt act rs minTile j1) res act.m rows r j1
  else return res

def weightRow (w : Bytes) (rowBytes r : Nat) : Option (List Bytes) := (slice w (r * rowBytes) ((r + 1) * rowBytes)).map fmt.blocks

/-- Weight rows four at a time; with the row behind them. -/
def quads (w : Bytes) (rowBytes rows r : Nat) (res : List F) : Option (Nat × List F) :=
  if r + nr ≤ rows then
    match (List.range nr).mapM fun i => weightRow fmt w rowBytes (r + i) with
    | none => none
    | some rs =>
      match rowsOf ops fmt act rs rows r res with
      | none => none
      | some res => quads w rowBytes rows (r + nr) res
  else some (r, res)
termination_by rows - r
decreasing_by
  unfold nr at *
  omega

/-- The other weight rows, one at a time. -/
def singles (w : Bytes) (rowBytes rows r : Nat) (res : List F) : Option (List F) :=
  if r < rows then
    match weightRow fmt w rowBytes r with
    | none => none
    | some row =>
      match rowsOf ops fmt act [row] rows r res with
      | none => none
      | some res => singles w rowBytes rows (r + 1) res
  else some res
termination_by rows - r

/-- The weight rows `w` against every activation row; a division by zero is a panic. -/
def chunk (w : Bytes) (res : List F) : Option (List F) := do
  let rowBytes := act.nb * fmt.size
  guard (rowBytes ≠ 0)
  let rows := w.length / rowBytes
  let (r, res) ← quads ops fmt act w rowBytes rows 0 res
  singles ops fmt act w rowBytes rows r res

/-! ## Chunks over threads -/

/-- The results of a chunk for one activation row. -/
structure Copy (F : Type) where
  row : Nat
  chunk : Nat
  values : List F

def rowsPerChunk (n threads : Nat) (serial : Bool) : Nat := if serial then n else max ((n / (threads * 4) + nr - 1) / nr) 1 * nr

def chunkRows (n perChunk c : Nat) : Nat := min perChunk (n - c * perChunk)

/-- The jobs of `run`: chunk `c` of the weight rows, into the scratch of the worker and then row by row into the output. -/
def jobs (data : Bytes) (n perChunk : Nat) : Claims.Jobs (List F) (Copy F) (List F) where
  count := (n + perChunk - 1) / perChunk
  prepare c scratch := do
    let rowBytes := act.nb * fmt.size
    let r0 := c * perChunk
    let rows := chunkRows n perChunk c
    let w ← slice data (r0 * rowBytes) ((r0 + rows) * rowBytes)
    let res ← slice scratch 0 (act.m * rows)
    let res ← chunk ops fmt act w res
    let copies ← (List.range act.m).mapM fun j => (slice res (j * rows) ((j + 1) * rows)).map (Copy.mk j c)
    return (res ++ scratch.drop (act.m * rows), copies)
  apply out copy :=
    if copy.values.length = chunkRows n perChunk copy.chunk then
      scatter out (copy.values.zipIdx.map fun (v, i) => (copy.row * n + copy.chunk * perChunk + i, v))
    else none

abbrev State (F : Type) := Claims.State (List F) (Copy F) (List F)

/-- The serial test and the chunks, and a schedule of the workers. -/
def run (data : Bytes) (n threads : Nat) (schedule : List Nat) : Except String (Option (State F)) :=
  let rowBytes := act.nb * fmt.size
  if data.length ≠ n * rowBytes then .error s!"qmm: weight holds {data.length} bytes, expected {n} rows of {rowBytes}"
  else
    let serial := decide (n * act.nb * qk < serialBelow) || threads == 1
    let perChunk := rowsPerChunk n threads serial
    let start := Claims.State.start (List.replicate (act.m * n) ops.zero) (List.replicate (act.m * perChunk) ops.zero)
      (if serial then 1 else threads)
    .ok (Claims.run (jobs ops fmt act data n perChunk) start schedule)

/-! ## Weights -/

inductive Kind where
  | q4_0
  | q8_0
  deriving DecidableEq, Repr

def Kind.format : Kind → Format F
  | .q4_0 => Qmm.q4_0 ops
  | .q8_0 => Qmm.q8_0 ops

def Kind.size : Kind → Nat
  | .q4_0 => 18
  | .q8_0 => 34

/-- A weight that `new` serves, with as many bytes as its shape asks for. -/
structure QmmWeight where
  kind : Kind
  n : Nat
  k : Nat
  data : Bytes
  rows : 0 < n
  blocks : k % qk = 0
  whole : data.length = n * (k / qk * kind.size)

/-- `QmmWeight::forward_rows` on so many threads. -/
def forwardRows (w : QmmWeight) (x : List F) (m rows threads : Nat) (schedule : List Nat) : Except String (Option (State F)) :=
  if x.length ≠ m * w.k then .error s!"qmm: activations hold {x.length} floats, expected {m} rows of {w.k}"
  else if rows = 0 ∨ rows > w.n then .error s!"qmm: {rows} weight rows of {w.n}"
  else if m = 0 then .ok (some ⟨0, [], [], []⟩)
  else
    let rowBytes := w.data.length / w.n
    let weights := if rows * rowBytes ≤ w.data.length then w.data.take (rows * rowBytes) else w.data
    match Acts.new ops x m w.k with
    | none => .ok none
    | some act => run ops (w.kind.format ops) act weights rows threads schedule

/-! ## One weight row and one activation row -/

/-- **The lane sum** of a weight row and an activation row, block by block. -/
def rowDot (row : Bytes) (x : List F) : F :=
  hsum ops ((List.range (x.length / qk)).foldl (fun acc b =>
    let w := (fmt.blocks row).getD b []
    let q := quantBlock ops ((x.drop (b * qk)).take qk)
    addBlock ops acc (fmt.halves w) (fmt.scale w) q.1 q.2) fun _ => ops.zero)

end Cuca.Local.Qmm
