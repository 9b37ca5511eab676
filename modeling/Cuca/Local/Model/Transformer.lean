import Cuca.Lib.Transition
import Cuca.Local.Engine
import Cuca.Local.Model.Layers

/-!
# The caches of a model

A transformer on the CPU, reduced to its caches: keys and values by position, in slabs that a sliding-window layer moves along, and the
recurrent states of delta-net layers, with what is kept to go back to earlier positions. What the layers compute is a parameter: a pass
comes with the rows it stores, and the layer at which it fails, if it does.

Positions are numbers; the length of a window comes from the file, and its sums wrap as those of `usize`.

* `kvSlots`, `Slab` : slabs, how they make room, what is stored and what is read;
* `Cell` : a recurrent state with its copies;
* `Cpu.forwardExt`, `Cpu.truncateCache`, `Cpu.takeCheckpoint` : the operations;
* `Cpu.Called`, `Cpu.forwardExt_called` : what a call can do;
* `Traced.step` : runs, with the sequence that is retained.
-/

namespace Cuca.Local.Model

/-! ## Slabs -/

/-- `a + b` on `usize`. -/
def addUsize (a b : Nat) : Nat := (a + b) % 2 ^ 64

/-- `a - b` on `usize`. -/
def subUsize (a b : Nat) : Nat := (a + 2 ^ 64 - b) % 2 ^ 64

/-- `RING_ROLLBACK` -/
def ringRollback : Nat := 1024

/-- `RING_ROWS` -/
def ringRows : Nat := 256

/-- `MAX_VERIFY_ROWS` -/
def maxVerifyRows : Nat := 17

def kvSlots (window : Option Nat) (contextLength : Nat) : Nat :=
  match window with
  | some w => min contextLength (addUsize (addUsize (w - 1) ringRollback) ringRows)
  | none => contextLength

/-- The rows of a layer; slot 0 holds position `base`. -/
structure Slab (Row : Type) where
  kv : Nat → Row
  base : Nat
  slots : Nat

def tensorErr : CucaError := err "tensor operation out of bounds"

def slot (index base : Nat) : Except CucaError Nat :=
  if index < base then .error (err s!"position {index} was evicted from a sliding-window cache that starts at {base}") else .ok (index - base)

/-- The first key that a query attends to. -/
def windowLo (window : Option Nat) (query hi : Nat) : Nat :=
  match window with
  | some w => min (query - (w - 1)) (hi - 1)
  | none => 0

/-- A row that a layer reads. -/
structure Read (Row : Type) where
  layer : Nat
  query : Nat
  position : Nat
  row : Row
  deriving DecidableEq, Repr

namespace Slab
variable {Row : Type}

/-- The last rows before `start` move to the front. -/
def compact (slab : Slab Row) (keep start : Nat) : Slab Row :=
  let offset := subUsize (subUsize start keep) slab.base
  { slab with kv := fun s => if s < keep then slab.kv (offset + s) else slab.kv s, base := subUsize start keep }

/-- `make_room` for one layer of window `w`. -/
def makeRoom (slab : Slab Row) (w start t : Nat) : Slab Row × Option CucaError :=
  if start + t ≤ slab.base + slab.slots then (slab, none)
  else
    let keep := min (addUsize (w - 1) ringRollback) (subUsize start slab.base)
    let offset := subUsize (subUsize start keep) slab.base
    if offset > 0 ∧ keep > 0 ∧ slab.slots < offset + keep then (slab, some tensorErr)
    else
      let slab := if offset > 0 then slab.compact keep start else slab
      if start + t > slab.base + slab.slots then
        (slab, some (err s!"a bounded sliding-window cache takes at most {ringRows} rows per call, got {t}"))
      else (slab, none)

def write (slab : Slab Row) (start n : Nat) (rows : Nat → Row) : Slab Row :=
  { slab with kv := fun s => if start - slab.base ≤ s ∧ s < start - slab.base + n then rows (s - (start - slab.base)) else slab.kv s }

/-- `store_kv` -/
def storeKv (slab : Slab Row) (start t : Nat) (rows : Nat → Row) : Except CucaError (Slab Row) := do
  let at' ← slot start slab.base
  if at' + t > slab.slots then throw tensorErr else pure (slab.write start t rows)

/-- The slots of the positions from `lo` to `hi` are there. -/
def span (slab : Slab Row) (lo hi : Nat) : Except CucaError Unit := do
  let from' ← slot lo slab.base
  if from' + (hi - lo) > slab.slots then throw tensorErr else pure ()

/-- What a query reads. -/
def readsOf (slab : Slab Row) (il : Nat) (window : Option Nat) (query : Nat) : List (Read Row) :=
  let lo := windowLo window query (query + 1)
  (List.range' lo (query + 1 - lo)).map fun p => ⟨il, query, p, slab.kv (p - slab.base)⟩

/-- The rows that the queries of a call read, one after the other if it is exact. -/
def attend (slab : Slab Row) (il : Nat) (window : Option Nat) (start t : Nat) (exact : Bool) : Except CucaError (List (Read Row)) := do
  if exact && t > 1 then
    (List.range t).forM fun i => slab.span (windowLo window (start + i) (start + i + 1)) (start + i + 1)
  else slab.span (windowLo window start (start + t)) (start + t)
  pure ((List.range t).flatMap fun i => slab.readsOf il window (start + i))

end Slab

/-! ## Recurrent states -/

/-- The recurrences of the delta-net layers. -/
structure Kernel (St Row : Type) where
  /-- `DeltaState::zeros` -/
  zero : Nat → St
  /-- `DeltaState::default` -/
  blank : St
  step : Nat → St → Row → St

def Kernel.scan {St Row : Type} (k : Kernel St Row) (il : Nat) (state : St) (rows : List Row) : St := rows.foldl (k.step il) state

/-- `DeltaCell` -/
structure Cell (St Row : Type) where
  live : St
  /-- The state before the call that is in the log. -/
  pre : St
  log : List Row
  checkpoint : St

namespace Cell
variable {St Row : Type}

def new (k : Kernel St Row) (il : Nat) : Cell St Row := ⟨k.zero il, k.blank, [], k.blank⟩

def saveCheckpoint (c : Cell St Row) : Cell St Row := { c with checkpoint := c.live }

def restoreCheckpoint (c : Cell St Row) : Cell St Row := { c with live := c.checkpoint }

def reset (k : Kernel St Row) (il : Nat) (c : Cell St Row) : Cell St Row := { c with live := k.zero il }

def beginRecord (c : Cell St Row) (rows : List Row) : Cell St Row := { c with pre := c.live, log := rows }

def restorePrefix (k : Kernel St Row) (il : Nat) (c : Cell St Row) (n : Nat) : Cell St Row :=
  { c with live := k.scan il c.pre (c.log.take n) }

/-- `DeltaWeights::forward` -/
def forward (k : Kernel St Row) (il : Nat) (c : Cell St Row) (rows : List Row) (record : Bool) : Cell St Row :=
  let c := if record then c.beginRecord rows else c
  { c with live := k.scan il c.live rows }

end Cell

/-! ## The transformer -/

structure Config where
  layers : List LayerSpec
  contextLength : Nat
  contextLength_lt : contextLength < 2 ^ 64
  /-- It has no token embedding. -/
  drafter : Bool

def Config.hybrid (c : Config) : Bool := isHybrid c.layers

/-- Where a pass fails: the layer, how many of its rows it has stored, and why. -/
structure Failure where
  layer : Nat
  stored : Nat
  error : CucaError

/-- What a pass computes: the rows by layer, each from the first position of the call on. -/
structure Pass (Row DRow : Type) where
  kv : Nat → Nat → Row
  delta : Nat → Nat → DRow
  /-- A row of the embeddings cannot be read. -/
  embedding : Option CucaError
  fails : Option Failure

def Pass.deltaRows {Row DRow : Type} (pass : Pass Row DRow) (il t : Nat) : List DRow := (List.range t).map (pass.delta il)

/-- The state of a `Transformer`. -/
structure Cpu (Row St DRow : Type) where
  len : Nat
  slabs : Nat → Option (Slab Row)
  cells : Nat → Cell St DRow
  verify : Option (Nat × Nat)
  checkpoint : Option Nat

namespace Cpu
variable {Row St DRow : Type} (c : Config) (k : Kernel St DRow)

def empty (blank : Row) : Cpu Row St DRow where
  len := 0
  slabs il := (c.layers[il]?.filter (·.ownsKv il)).map fun spec => ⟨fun _ => blank, 0, kvSlots spec.window c.contextLength⟩
  cells := Cell.new k
  verify := none
  checkpoint := none

/-- `make_room`, from layer `il` on. -/
def makeRoom (start t : Nat) : List LayerSpec → Nat → (Nat → Option (Slab Row)) → (Nat → Option (Slab Row)) × Option CucaError
  | [], _, slabs => (slabs, none)
  | spec :: specs, il, slabs =>
    match slabs il, spec.window with
    | some slab, some w =>
      match slab.makeRoom w start t with
      | (slab, none) => makeRoom start t specs (il + 1) (Function.update slabs il (some slab))
      | (slab, some e) => (Function.update slabs il (some slab), some e)
    | _, _ => makeRoom start t specs (il + 1) slabs

def noCache (il : Nat) : CucaError := err s!"layer {il} owns no K/V cache"

/-- The slabs with the rows of an owner. -/
def stored (spec : LayerSpec) (il : Nat) (slabs : Nat → Option (Slab Row)) (start t : Nat) (rows : Nat → Row) :
    Except CucaError (Nat → Option (Slab Row)) :=
  if spec.ownsKv il then
    match slabs il with
    | none => .error (noCache il)
    | some slab => (slab.storeKv start t rows).map fun slab => Function.update slabs il (some slab)
  else .ok slabs

/-- What a layer reads. -/
def readFrom (spec : LayerSpec) (il : Nat) (slabs : Nat → Option (Slab Row)) (start t : Nat) (exact : Bool) :
    Except CucaError (List (Read Row)) :=
  match spec.kvSource with
  | none => .error (err "a drafter layer needs the target's K/V")
  | some src =>
    match slabs src with
    | none => .error (noCache src)
    | some slab => slab.attend il spec.window start t exact

/-- An attention layer; the slabs stay as they are left. -/
def attention (spec : LayerSpec) (il : Nat) (slabs : Nat → Option (Slab Row)) (start t : Nat) (exact : Bool) (rows : Nat → Row) :
    (Nat → Option (Slab Row)) × Except CucaError (List (Read Row)) :=
  match stored spec il slabs start t rows with
  | .error e => (slabs, .error e)
  | .ok slabs => (slabs, readFrom spec il slabs start t exact)

/-- A call under way. -/
structure Call (Row DRow : Type) where
  start : Nat
  t : Nat
  exact : Bool
  record : Bool
  pass : Pass Row DRow

/-- What a delta-net layer leaves after `n` rows. -/
def recurrent (call : Call Row DRow) (il n : Nat) (s : Cpu Row St DRow) : Cpu Row St DRow :=
  { s with cells := Function.update s.cells il ((s.cells il).forward k il (call.pass.deltaRows il n) call.record) }

/-- What an attention layer leaves that has stored `n` rows and then failed. -/
def cutShort (call : Call Row DRow) (il n : Nat) (s : Cpu Row St DRow) : Cpu Row St DRow :=
  let store (slab : Slab Row) := (slab.storeKv call.start n (call.pass.kv il)).toOption.getD slab
  { s with slabs := Function.update s.slabs il ((s.slabs il).map store) }

/-- One layer, which fails after it has stored some rows, or does not fail. -/
def layer (call : Call Row DRow) (spec : LayerSpec) (il : Nat) (s : Cpu Row St DRow) :
    Cpu Row St DRow × Except CucaError (List (Read Row)) :=
  match call.pass.fails.filter (·.layer = il) with
  | some failure =>
    if spec.isDelta then (recurrent k call il (min failure.stored call.t) s, .error failure.error)
    else (cutShort call il (min failure.stored call.t) s, .error failure.error)
  | none =>
    if spec.isDelta then (recurrent k call il call.t s, .ok [])
    else
      let r := attention spec il s.slabs call.start call.t call.exact (call.pass.kv il)
      ({ s with slabs := r.1 }, r.2)

/-- `forward_layers`, from layer `il` on; what follows the last layer fails too. -/
def forwardLayers (call : Call Row DRow) : List LayerSpec → Nat → Cpu Row St DRow → Cpu Row St DRow × Except CucaError (List (Read Row))
  | [], il, s =>
    match call.pass.fails.filter (il ≤ ·.layer) with
    | some failure => (s, .error failure.error)
    | none => (s, .ok [])
  | spec :: specs, il, s =>
    match layer k call spec il s with
    | (s, .error e) => (s, .error e)
    | (s, .ok reads) =>
      match forwardLayers call specs (il + 1) s with
      | (s, .error e) => (s, .error e)
      | (s, .ok more) => (s, .ok (reads ++ more))

/-- `discard_state`: an empty cache and the zero state. -/
def discardState (s : Cpu Row St DRow) : Cpu Row St DRow :=
  if c.hybrid then { s with len := 0, cells := fun il => (s.cells il).reset k il, verify := none, checkpoint := none } else s

/-- Why a call is rejected. -/
def rejection (len t start : Nat) : Option CucaError :=
  if t = 0 then some (err "forward requires at least one token")
  else if start ≠ len then some (err s!"forward start {start} does not match the cache length {len}")
  else
    let hi := start + t
    let most := c.contextLength
    if hi > c.contextLength then some (err s!"{hi} positions exceed the context length {most}") else none

def drafterErr : CucaError := err "a drafter has no token embedding; use `draft`"

def unembedded (pass : Pass Row DRow) : Option CucaError := if c.drafter then some drafterErr else pass.embedding

def recorded (t : Nat) (want : Want) : Bool := c.hybrid && want = .all && (2 ≤ t && t ≤ maxVerifyRows)

/-- `forward_ext`; returns what is read. -/
def forwardExt (s : Cpu Row St DRow) (t start : Nat) (want : Want) (exact : Bool) (pass : Pass Row DRow) :
    Cpu Row St DRow × Except CucaError (List (Read Row)) :=
  match rejection c s.len t start with
  | some e => (s, .error e)
  | none =>
    match makeRoom start t c.layers 0 s.slabs with
    | (slabs, some e) => ({ s with slabs }, .error e)
    | (slabs, none) =>
      match unembedded c pass with
      | some e => ({ s with slabs }, .error e)
      | none =>
        let record := recorded c t want
        match forwardLayers k ⟨start, t, exact, record, pass⟩ c.layers 0 { s with slabs, verify := none } with
        | (s, .error e) => (discardState c k s, .error e)
        | (s, .ok reads) => ({ s with len := start + t, verify := if record then some (start, t) else s.verify }, .ok reads)

/-- `ring_floor`, over the layers from `il` on. -/
def ringFloor (slabs : Nat → Option (Slab Row)) : List LayerSpec → Nat → Nat
  | [], _ => 0
  | spec :: specs, il =>
    match slabs il, spec.window with
    | some slab, some w =>
      if slab.base > 0 then max (subUsize (addUsize slab.base w) 1) (ringFloor slabs specs (il + 1)) else ringFloor slabs specs (il + 1)
    | _, _ => ringFloor slabs specs (il + 1)

/-- The position to go back to. -/
def keptAt (s : Cpu Row St DRow) (len : Nat) : Nat :=
  match s.verify.filter fun v => v.1 ≤ len ∧ len < v.1 + v.2 with
  | some _ => len
  | none => (s.checkpoint.filter (· ≤ len)).getD 0

/-- `truncate_positions` -/
def truncatePositions (s : Cpu Row St DRow) (len : Nat) : Cpu Row St DRow × Nat :=
  if c.hybrid ∧ len = 0 then (discardState c k s, 0)
  else if len ≥ s.len then (s, s.len)
  else if !c.hybrid then ({ s with len }, len)
  else
    let kept := keptAt s len
    let s := match s.verify.filter fun v => v.1 ≤ kept ∧ kept < v.1 + v.2 with
      | some v => { s with cells := fun il => (s.cells il).restorePrefix k il (kept - v.1) }
      | none =>
        if s.checkpoint = some kept then { s with cells := fun il => (s.cells il).restoreCheckpoint, verify := none }
        else { s with cells := fun il => (s.cells il).reset k il, verify := none }
    ({ s with checkpoint := s.checkpoint.filter (· ≤ kept), len := kept }, kept)

/-- `truncate_cache`; returns how many positions are retained. -/
def truncateCache (s : Cpu Row St DRow) (len : Nat) : Cpu Row St DRow × Nat :=
  let len := if len < ringFloor s.slabs c.layers 0 then 0 else len
  let r := truncatePositions c k s len
  if r.2 = 0 then ({ r.1 with slabs := fun il => (r.1.slabs il).map fun slab => { slab with base := 0 } }, 0) else r

/-- `checkpoint` -/
def takeCheckpoint (s : Cpu Row St DRow) : Cpu Row St DRow :=
  if !c.hybrid ∨ s.len = 0 then s
  else { s with cells := fun il => (s.cells il).saveCheckpoint, checkpoint := some s.len }

/-! ### What a call does -/

def callOf (t start : Nat) (want : Want) (exact : Bool) (pass : Pass Row DRow) : Call Row DRow :=
  ⟨start, t, exact, recorded c t want, pass⟩

/-- The outcomes of a call. -/
inductive Called (s : Cpu Row St DRow) (t start : Nat) (want : Want) (exact : Bool) (pass : Pass Row DRow) :
    Cpu Row St DRow × Except CucaError (List (Read Row)) → Prop where
  | rejected {e} (h : rejection c s.len t start = some e) : Called s t start want exact pass (s, .error e)
  | noRoom {slabs e} (h : rejection c s.len t start = none) (hroom : makeRoom start t c.layers 0 s.slabs = (slabs, some e)) :
    Called s t start want exact pass ({ s with slabs }, .error e)
  | unread {slabs e} (h : rejection c s.len t start = none) (hroom : makeRoom start t c.layers 0 s.slabs = (slabs, none))
    (hembed : unembedded c pass = some e) : Called s t start want exact pass ({ s with slabs }, .error e)
  | failed {slabs s' e} (h : rejection c s.len t start = none) (hroom : makeRoom start t c.layers 0 s.slabs = (slabs, none))
    (hembed : unembedded c pass = none)
    (hpass : forwardLayers k (callOf c t start want exact pass) c.layers 0 { s with slabs, verify := none } = (s', .error e)) :
    Called s t start want exact pass (discardState c k s', .error e)
  | passed {slabs s' reads} (h : rejection c s.len t start = none) (hroom : makeRoom start t c.layers 0 s.slabs = (slabs, none))
    (hembed : unembedded c pass = none)
    (hpass : forwardLayers k (callOf c t start want exact pass) c.layers 0 { s with slabs, verify := none } = (s', .ok reads)) :
    Called s t start want exact pass
      ({ s' with len := start + t, verify := if recorded c t want then some (start, t) else s'.verify }, .ok reads)

theorem forwardExt_called (s : Cpu Row St DRow) (t start : Nat) (want : Want) (exact : Bool) (pass : Pass Row DRow) :
    Called c k s t start want exact pass (forwardExt c k s t start want exact pass) := by
  unfold forwardExt
  split
  · rename_i e h
    exact .rejected h
  · rename_i h
    split
    · rename_i slabs e hroom
      exact .noRoom h hroom
    · rename_i slabs hroom
      split
      · rename_i e hembed
        exact .unread h hroom hembed
      · rename_i hembed
        dsimp only
        split
        · rename_i s' e hpass
          exact .failed h hroom hembed hpass
        · rename_i s' reads hpass
          exact .passed h hroom hembed hpass

theorem of_rejection {len t start : Nat} (h : rejection c len t start = none) : 0 < t ∧ start = len ∧ start + t ≤ c.contextLength := by
  unfold rejection at h
  split at h
  · exact nomatch h
  · split at h
    · exact nomatch h
    · dsimp only at h
      split at h
      · exact nomatch h
      · omega

end Cpu

/-! ## Runs -/

/-- A retained position: its token, and the rows that were made of it. -/
structure Entry (Row DRow : Type) where
  token : Token
  kv : Nat → Row
  delta : Nat → DRow

def entries {Row DRow : Type} (tokens : List Token) (pass : Pass Row DRow) : List (Entry Row DRow) :=
  tokens.mapIdx fun i token => ⟨token, fun il => pass.kv il i, fun il => pass.delta il i⟩

inductive Event (Row DRow : Type) where
  | forward (tokens : List Token) (start : Nat) (want : Want) (exact : Bool) (pass : Pass Row DRow)
  | truncate (len : Nat)
  | checkpoint

/-- A transformer with the sequence it has retained. -/
structure Traced (Row St DRow : Type) where
  cpu : Cpu Row St DRow
  history : List (Entry Row DRow)
  /-- The first position and the rows of the last call that succeeded, if it was recorded. -/
  record : Option (Nat × Nat)

namespace Traced
variable {Row St DRow : Type} (c : Config) (k : Kernel St DRow)

def init (blank : Row) : Traced Row St DRow := ⟨Cpu.empty c k blank, [], none⟩

def step (s : Traced Row St DRow) : Event Row DRow → Traced Row St DRow
  | .forward tokens start want exact pass =>
    let r := Cpu.forwardExt c k s.cpu tokens.length start want exact pass
    match r.2 with
    | .ok _ =>
      let record := if Cpu.recorded c tokens.length want then some (start, tokens.length) else none
      ⟨r.1, s.history ++ entries tokens pass, record⟩
    | .error _ => ⟨r.1, s.history.take r.1.len, s.record⟩
  | .truncate len =>
    let r := Cpu.truncateCache c k s.cpu len
    ⟨r.1, s.history.take r.2, s.record⟩
  | .checkpoint => { s with cpu := Cpu.takeCheckpoint c s.cpu }

end Traced

end Cuca.Local.Model
