import Cuca.Lib.Chunks
import Cuca.Local.Model.Layers

/-!
# The recurrence of a delta-net layer

A delta-net layer keeps the last inputs of a causal convolution and, for each value head, a matrix. A scan takes rows one
after the other: it decays the matrix of a head, corrects what it predicts for the key of the row and, where it is asked
to, reads an output row.

The numbers are of any type, with any operations. Heads run in any order, each on its own matrix and with buffers it
overwrites before it reads them, so they are a list here.

* `Window`, `convSlice` : the convolution, over the history and the new rows;
* `headStep`, `scanHead` : one row of a head, and all of them;
* `scan` : a call, none where it panics;
* `DeltaCell` : the state with what a rollback restores from.
-/

namespace Cuca.Local.Model.DeltaSpec
variable (d : DeltaSpec)

def keyDim : Nat := d.nKHeads * d.headKDim

def valueDim : Nat := d.nVHeads * d.headVDim

def convDim : Nat := 2 * d.keyDim + d.valueDim

def historyRows : Nat := d.convKernel - 1

end Cuca.Local.Model.DeltaSpec

namespace Cuca.Local.DeltaNet
open Blocks Model

/-! ## Numbers -/

/-- The operations on `f32`. -/
structure Scalar (α : Type) where
  zero : α
  one : α
  /-- What the sum of an iterator starts from. -/
  sumStart : α
  l2Eps : α
  ofNat : Nat → α
  add : α → α → α
  sub : α → α → α
  mul : α → α → α
  div : α → α → α
  neg : α → α
  exp : α → α
  sqrt : α → α

variable {α : Type} (ops : Scalar α)

namespace Scalar

def silu (x : α) : α := ops.div x (ops.add ops.one (ops.exp (ops.neg x)))

/-- `x.iter().map(|v| v * v).sum()` -/
def sumSq (xs : List α) : α := (xs.map fun v => ops.mul v v).foldl ops.add ops.sumStart

def zeros (n : Nat) : List α := List.replicate n ops.zero

/-- `x / sqrt(sum(x^2) + eps)` -/
def l2Normalise (xs : List α) : List α :=
  let inv := ops.div ops.one (ops.sqrt (ops.add (ops.sumSq xs) ops.l2Eps))
  xs.map fun v => ops.mul v inv

end Scalar

/-- `for (x, y) in xs.iter_mut().zip(ys)` : what becomes of `xs`. -/
def zipInto {β : Type} (f : α → β → α) : List α → List β → List α
  | x :: xs, y :: ys => f x y :: zipInto f xs ys
  | xs, _ => xs

/-! ## The state and its inputs -/

structure DeltaState (α : Type) where
  /-- The last convolution inputs, oldest first. -/
  conv : List α
  /-- The matrices, one after the other. -/
  s : List α

/-- The inputs of `t` consecutive rows. -/
structure Rows (α : Type) where
  t : Nat
  mixed : List α
  beta : List α
  decay : List α

structure DeltaKernel (α : Type) where
  spec : DeltaSpec
  /-- The taps, `convDim` numbers for each. -/
  conv : List α
  norm : List α
  eps : α

/-- The rows that a scan reads: the history, then the new rows. -/
structure Window (α : Type) where
  history : List α
  mixed : List α
  historyRows : Nat
  convDim : Nat

def Window.row (w : Window α) (r : Nat) : List α :=
  if r < w.historyRows then block w.convDim w.history r else block w.convDim w.mixed (r - w.historyRows)

/-- What one row gives a head: the rows under the taps, the write strength, the decay and, where an output is wanted, the
gate. -/
structure HeadRow (α : Type) where
  under : List (List α)
  beta : α
  decay : α
  gate : Option (List α)

variable (k : DeltaKernel α)

/-- The convolution of some channels, with `silu`. -/
def convSlice (under : List (List α)) (off len : Nat) : List α :=
  (under.zipIdx.foldl (fun dst tap =>
      let x := (tap.1.drop off).take len
      let w := (k.conv.drop (tap.2 * k.spec.convDim + off)).take len
      zipInto (fun o wx => ops.add o (ops.mul wx.1 wx.2)) dst (w.zip x)) (ops.zeros len)).map ops.silu

/-! ## One row of a head -/

/-- The rows of the matrix decay, from the `i`-th on, and what they predict for the key is added up. -/
def decayRows (dv : Nat) (decay : α) : List α → Nat → List α × List α → List α × List α
  | [], _, acc => acc
  | ki :: key, i, (matrix, kvMem) =>
    let row := block dv matrix i
    decayRows dv decay key (i + 1)
      (overwrite matrix (zipInto (fun sv _ => ops.mul sv decay) row kvMem) (i * dv),
        zipInto (fun m sv => ops.add m (ops.mul (ops.mul sv decay) ki)) kvMem row)

/-- The correction is written, and the output read. -/
def writeRead (dv : Nat) (delta : List α) : List (α × α) → Nat → List α × List α → List α × List α
  | [], _, acc => acc
  | (ki, qi) :: pairs, i, (matrix, o) =>
    let row := block dv matrix i
    writeRead dv delta pairs (i + 1)
      (overwrite matrix (zipInto (fun sv dj => ops.add sv (ops.mul ki dj.1)) row (delta.zip o)) (i * dv),
        zipInto (fun oj sv => ops.add oj (ops.mul (ops.add sv.1 (ops.mul ki sv.2)) qi)) o (row.zip delta))

/-- The correction is written. -/
def writeOnly (dv : Nat) (delta : List α) : List α → Nat → List α → List α
  | [], _, matrix => matrix
  | ki :: key, i, matrix =>
    writeOnly dv delta key (i + 1)
      (overwrite matrix (zipInto (fun sv dj => ops.add sv (ops.mul ki dj)) (block dv matrix i) delta) (i * dv))

/-- Gated RMSNorm: `rms(o) * weight * silu(z)`. -/
def gatedNorm (o gate : List α) : List α :=
  let meanSq := ops.div (ops.sumSq o) (ops.ofNat k.spec.headVDim)
  let scale := ops.div ops.one (ops.sqrt (ops.add meanSq k.eps))
  List.zipWith (fun ow g => ops.mul (ops.mul (ops.mul ow.1 scale) ow.2) (ops.silu g)) (o.zip k.norm) gate

/-- One row of value head `h`: its matrix, and its output if there is a gate. -/
def headStep (h : Nat) (matrix : List α) (row : HeadRow α) : List α × Option (List α) :=
  let d := k.spec
  let hk := h % d.nKHeads
  let key := ops.l2Normalise (convSlice ops k row.under (d.keyDim + hk * d.headKDim) d.headKDim)
  let v := convSlice ops k row.under (2 * d.keyDim + h * d.headVDim) d.headVDim
  let (matrix, kvMem) := decayRows ops d.headVDim row.decay key 0 (matrix, ops.zeros d.headVDim)
  let delta := zipInto (fun _ vm => ops.mul (ops.sub vm.1 vm.2) row.beta) (ops.zeros d.headVDim) (v.zip kvMem)
  match row.gate with
  | some gate =>
    let q := (ops.l2Normalise (convSlice ops k row.under (hk * d.headKDim) d.headKDim)).map fun x =>
      ops.div x (ops.sqrt (ops.ofNat d.headKDim))
    let (matrix, o) := writeRead ops d.headVDim delta (key.zip q) 0 (matrix, ops.zeros d.headVDim)
    (matrix, some (gatedNorm ops k o gate))
  | none => (writeOnly ops d.headVDim delta key 0 matrix, none)

/-- All rows of a head: its matrix, and its output rows. -/
def scanHead (h : Nat) : List (HeadRow α) → List α → List α × List (List α)
  | [], matrix => (matrix, [])
  | row :: rows, matrix =>
    let (matrix, out) := headStep ops k h matrix row
    let (matrix, outs) := scanHead h rows matrix
    (matrix, out.toList ++ outs)

/-! ## A scan -/

variable (d : DeltaSpec)

/-- What a head reads of row `ti`. -/
def headRow (w : Window α) (rows : Rows α) (z : Option (List α)) (h ti : Nat) : HeadRow α where
  under := (List.range d.convKernel).map fun i => w.row (ti + i)
  beta := rows.beta.getD (ti * d.nVHeads + h) ops.zero
  decay := rows.decay.getD (ti * d.nVHeads + h) ops.zero
  gate := z.map fun z => (z.drop (ti * d.valueDim + h * d.headVDim)).take d.headVDim

def headRows (w : Window α) (rows : Rows α) (z : Option (List α)) (h : Nat) : List (HeadRow α) :=
  (List.range rows.t).map (headRow ops d w rows z h)

def window (state : DeltaState α) (rows : Rows α) : Window α := ⟨state.conv, rows.mixed, d.historyRows, d.convDim⟩

def panics : Bool := d.headKDim * d.headVDim == 0 || (d.nKHeads == 0 && d.nVHeads != 0)

/-- Value head `h` of a scan. -/
def headOf (state : DeltaState α) (rows : Rows α) (z : Option (List α)) (h : Nat) : List α × List (List α) :=
  scanHead ops k h (headRows ops k.spec (window k.spec state rows) rows z h)
    (block (k.spec.headKDim * k.spec.headVDim) state.s h)

def nextHistory (state : DeltaState α) (rows : Rows α) : List α :=
  (List.range d.historyRows).flatMap fun i => (window d state rows).row (rows.t + i)

def outputRows (t : Nat) (outs : List (List (List α))) : List α :=
  (List.range t).flatMap fun ti => outs.flatMap fun out => out.getD ti []

/-- `DeltaKernel::scan` : the state after the rows, and the output rows if there are gates. -/
def scan (state : DeltaState α) (rows : Rows α) (z : Option (List α)) : Option (DeltaState α × Option (List α)) :=
  if panics k.spec then none
  else
    let heads := (List.range k.spec.nVHeads).map (headOf ops k state rows z)
    some (⟨nextHistory k.spec state rows, heads.flatMap Prod.fst⟩,
      z.map fun _ => outputRows rows.t (heads.map Prod.snd))

/-! ## Cells -/

def Rows.prefixRows (log : Rows α) (n : Nat) : Rows α :=
  ⟨n, log.mixed.take (n * d.convDim), log.beta.take (n * d.nVHeads), log.decay.take (n * d.nVHeads)⟩

/-- The live state of a layer with its snapshots. -/
structure DeltaCell (α : Type) where
  live : DeltaState α
  /-- The state before the call in the log. -/
  pre : DeltaState α
  log : Rows α
  checkpoint : DeltaState α

namespace DeltaCell
variable (c : DeltaCell α)

def beginRecord (rows : Rows α) : DeltaCell α := { c with pre := c.live, log := rows }

def scan (rows : Rows α) (z : Option (List α)) : Option (DeltaCell α × Option (List α)) :=
  (DeltaNet.scan ops k c.live rows z).map fun result => ({ c with live := result.1 }, result.2)

/-- The state after the first rows of the recorded call. -/
def restorePrefix (n : Nat) : Option (DeltaCell α) :=
  let c := { c with live := c.pre }
  if 0 < n then (c.scan ops k (c.log.prefixRows k.spec n) none).map Prod.fst else some c

end DeltaCell

end Cuca.Local.DeltaNet
