import Cuca.Lib.Assoc
import Cuca.Lib.Chunks
import Cuca.Lib.Selection
import Cuca.Local.Model.Layers

/-!
# The experts of a layer on the device

The experts of a mixture-of-experts layer are slots of one flat pool. A resident bank holds all of them, expert `e` in
slot `e`. A tiered bank has fewer slots: a table says which expert is in which, and a pass computes its experts in groups
that fit, for each group loading what is missing into free slots or those of victims.

The words of an expert and what the kernels make of them are parameters. So are the heat of the experts and the reads
below the device, each of which may fail.

* `SlotTable` : the table, its clock and its victim;
* `takeSlot`, `load`, `group`, `groups`, `run` : a pass of a tiered bank, `residentRun` : that of a resident one;
* `warm` : the start with the hottest experts.
-/

namespace Cuca.Local.Experts
open Blocks Model

/-! ## The table -/

structure Entry where
  value : Nat
  lastUse : Nat

/-- The resident experts of one layer, each with its slot. -/
structure SlotTable where
  entries : AList fun _ : Nat => Entry
  tick : Nat

namespace SlotTable

def new : SlotTable := ⟨∅, 0⟩

def len (table : SlotTable) : Nat := table.entries.entries.length

def contains (table : SlotTable) (e : Nat) : Bool := e ∈ table.entries

/-- The slot of an expert, which is marked used. -/
def get (table : SlotTable) (e : Nat) : Option Nat × SlotTable :=
  match table.entries.lookup e with
  | some entry => (some entry.value, ⟨table.entries.insert e { entry with lastUse := table.tick + 1 }, table.tick + 1⟩)
  | none => (none, { table with tick := table.tick + 1 })

def insert (table : SlotTable) (e value : Nat) : SlotTable := ⟨table.entries.insert e ⟨value, table.tick + 1⟩, table.tick + 1⟩

def remove (table : SlotTable) (e : Nat) : Option Nat × SlotTable :=
  ((table.entries.lookup e).map (·.value), { table with entries := table.entries.erase e })

/-- `(heat, last_use, e)` : the colder, then the longer unused, then the lower. -/
def colder (heat : List Nat) (a b : Sigma fun _ : Nat => Entry) : Bool :=
  decide (toLex (heat.getD a.1 0, toLex (a.2.lastUse, a.1)) < toLex (heat.getD b.1 0, toLex (b.2.lastUse, b.1)))

/-- The expert to evict: the coldest of those not needed, else the last. -/
def victim (table : SlotTable) (heat neededLater : List Nat) : Option Nat :=
  ((Selection.firstLeast (colder heat) (table.entries.entries.filter fun entry => entry.1 ∉ neededLater)).map (·.1)).or
    table.entries.keys.max?

end SlotTable

/-! ## Banks -/

/-- `α` is a word. -/
structure TieredBank (α : Type) where
  il : Nat
  nExpert : Nat
  /-- `layout.words` -/
  words : Nat
  deviceSlots : Nat
  storedBytes : Nat
  /-- The words of each expert. -/
  packed : Nat → List α
  pos : 0 < deviceSlots
  length_packed : ∀ e, (packed e).length = words

structure TierState (α : Type) where
  pool : Option (List α)
  table : SlotTable
  /-- The next slot to take first. -/
  free : List Nat

/-- The counters that the layers share. -/
structure TierShared where
  lookups : Nat
  deviceHits : Nat
  deviceResidentBytes : Nat

/-- The walk of the tiers below over the experts they are to deliver. -/
structure Pass where
  needed : List Nat
  cursor : Nat

/-- `H` and `R` are what the two kernels make of a pair, `O` is the output. A pair is a token and one of its experts. -/
structure Kernels (α H R O : Type) where
  up : Nat → List α → H
  down : Nat → List α → H → R
  sum : List R → O

/-- What a pass computes: the expert of each pair, what is in the scratch before, and what may happen on the way. -/
structure Call (α H R O : Type) where
  /-- The router output, `n_used` experts for each token. -/
  experts : List Nat
  kernels : Kernels α H R O
  scratch : List R
  heat : List Nat
  /-- The reads that fail. -/
  fails : Nat → Option CucaError

/-- A call for a bank: its experts exist, and the scratch has a place for each pair. -/
structure Call.Valid {α H R O : Type} (b : TieredBank α) (c : Call α H R O) : Prop where
  experts : ∀ e ∈ c.experts, e < b.nExpert
  scratch : c.scratch.length = c.experts.length

section kernels
variable {α H R O : Type} (k : Kernels α H R O) (words : Nat)

def up (list : List (Nat × Nat)) (pool : List α) : List H := list.map fun entry => k.up entry.1 (block words pool entry.2)

/-- The results of the pairs, written into the scratch. -/
def down (hidden : List H) (list : List (Nat × Nat)) (pool : List α) (scratch : List R) : List R :=
  (list.zip hidden).foldl (fun scratch entry =>
    scratch.set entry.1.1 (k.down entry.1.1 (block words pool entry.1.2) entry.2)) scratch

end kernels

variable {α H R O : Type} (b : TieredBank α) (c : Call α H R O)

/-- A pass of a resident bank. -/
def residentRun : O :=
  let pool := (List.range b.nExpert).flatMap b.packed
  let list := (List.range c.experts.length).filterMap fun pair => c.experts[pair]?.map fun e => (pair, e)
  c.kernels.sum (down c.kernels b.words (up c.kernels b.words list pool) list pool c.scratch)

/-! ## A pass of a tiered bank -/

/-- The state of a pass. The last two are what it has done: the reads it asked for, and each kernel call's list and pool. -/
structure Walk (α R : Type) where
  tier : TierState α
  shared : TierShared
  lower : Pass
  pending : List Nat
  scratch : List R
  asked : List Nat
  launches : List (List (Nat × Nat) × List α)

/-- `Pass::next` : the words of the expert that is next. -/
def Pass.next (lower : Pass) (e : Nat) : Except CucaError (List α) × Pass :=
  match (lower.needed.drop lower.cursor).findIdx? (· == e) with
  | none => (.error (err s!"expert {e} is not next in layer {b.il}"), lower)
  | some position =>
    let lower := { lower with cursor := lower.cursor + position + 1 }
    match c.fails e with
    | some error => (.error error, lower)
    | none => (.ok (b.packed e), lower)

/-- A slot for a new expert, free or a victim's. -/
def takeSlot (heat keep : List Nat) (tier : TierState α) (shared : TierShared) :
    Except CucaError (Nat × TierState α × TierShared) :=
  match tier.free with
  | slot :: free => .ok (slot, { tier with free := free }, shared)
  | [] =>
    match tier.table.victim heat keep with
    | some victim =>
      if victim ∈ keep then .error (err s!"layer {b.il}: no device slot free for a new expert")
      else
        match tier.table.remove victim with
        | (some slot, table) => .ok (slot, { tier with table := table },
            { shared with deviceResidentBytes := shared.deviceResidentBytes - b.storedBytes })
        | (none, _) => .error (err "the device tier lost its victim")
    | none => .error (err s!"layer {b.il}: no device slot free for a new expert")

def write (slot : Nat) (packed : List α) (tier : TierState α) : TierState α :=
  match tier.pool with
  | some pool => { tier with pool := some (overwrite pool packed (slot * b.words)) }
  | none => tier

/-- The words of an expert go to a slot, which is listed. -/
def install (e slot : Nat) (packed : List α) (tier : TierState α) (shared : TierShared) : TierState α × TierShared :=
  let tier := write b slot packed tier
  ({ tier with table := tier.table.insert e slot },
    { shared with deviceResidentBytes := shared.deviceResidentBytes + b.storedBytes })

/-- One expert of a group that is missing. -/
def load (keep : List Nat) (e : Nat) (w : Walk α R) : Option CucaError × Walk α R :=
  let w := { w with asked := w.asked ++ [e] }
  match w.lower.next b c e with
  | (.error error, lower) => (some error, { w with lower := lower })
  | (.ok packed, lower) =>
    match takeSlot b c.heat keep w.tier w.shared with
    | .error error => (some error, { w with lower := lower })
    | .ok (slot, tier, shared) =>
      let (tier, shared) := install b e slot packed tier shared
      (none, { w with lower := lower, tier := tier, shared := shared })

def loadAll (keep : List Nat) : List Nat → Walk α R → Option CucaError × Walk α R
  | [], w => (none, w)
  | e :: es, w =>
    match load b c keep e w with
    | (some error, w) => (some error, w)
    | (none, w) => loadAll keep es w

/-- The slots of the experts of a group, which are marked used. -/
def gather : List Nat → SlotTable → List (Nat × Nat) × SlotTable
  | [], table => ([], table)
  | e :: es, table =>
    let (slot, table) := table.get e
    let (slots, table) := gather es table
    ((slot.map (e, ·)).toList ++ slots, table)

/-- The pairs of a group, each with its slot. -/
def pairsOf (slots : List (Nat × Nat)) : List (Nat × Nat) :=
  (List.range c.experts.length).filterMap fun pair =>
    (c.experts[pair]?.bind fun e => slots.lookup e).map fun slot => (pair, slot)

/-- The experts of the next group: the hits first, then what there is room for, in ascending order. -/
def groupOf (w : Walk α R) : List Nat × List Nat :=
  let hits := w.pending.filter w.tier.table.contains
  let new := (w.pending.filter fun e => !w.tier.table.contains e).take (b.deviceSlots - hits.length)
  (new, (hits ++ new).mergeSort)

/-- The body of the group loop. -/
def group (w : Walk α R) : Option CucaError × Walk α R :=
  let (new, group) := groupOf b w
  match loadAll b c group new w with
  | (some error, w) => (some error, w)
  | (none, w) =>
    let (slots, table) := gather group w.tier.table
    let w := { w with tier := { w.tier with table := table } }
    let list := pairsOf c slots
    match w.tier.pool with
    | none => (some (err "the expert pool is being written"), w)
    | some pool =>
      let hidden := up c.kernels b.words list pool
      (none, { w with
        scratch := down c.kernels b.words hidden list pool w.scratch
        pending := w.pending.filter (· ∉ group)
        launches := w.launches ++ [(list, pool)] })

/-- The group loop, of so many rounds at most: none when they do not suffice. -/
def groups : Nat → Walk α R → Option (Option CucaError × Walk α R)
  | rounds, w =>
    if w.pending.isEmpty then some (none, w)
    else
      match rounds with
      | 0 => none
      | rounds + 1 =>
        match group b c w with
        | (some error, w) => some (some error, w)
        | (none, w) => groups rounds w

def needed : List Nat := (List.range b.nExpert).filter (· ∈ c.experts)

def missing (tier : TierState α) : List Nat := (needed b c).filter fun e => !tier.table.contains e

/-- A pass up to its group loop. -/
def opening (tier : TierState α) (shared : TierShared) : Walk α R where
  tier := tier
  shared := { shared with
    lookups := shared.lookups + (needed b c).length
    deviceHits := shared.deviceHits + ((needed b c).length - (missing b c tier).length) }
  lower := ⟨missing b c tier, 0⟩
  pending := needed b c
  scratch := c.scratch
  asked := []
  launches := []

/-- `TieredBank::run` : its answer, and the state of the pass at its end. -/
def run (tier : TierState α) (shared : TierShared) : Option (Except CucaError O × Walk α R) :=
  (groups b c (needed b c).length (opening b c tier shared)).map fun
    | (some error, w) => (.error error, w)
    | (none, w) => (.ok (c.kernels.sum w.scratch), w)

/-! ## The start -/

/-- The experts with a heat above zero, hottest first. -/
def ranked (counts : List Nat) : List Nat :=
  ((List.range counts.length).filter fun e => counts.getD e 0 > 0).mergeSort fun x y =>
    decide (toLex (counts.getD y 0, x) ≤ toLex (counts.getD x 0, y))

def TierState.fresh [Inhabited α] : TierState α :=
  ⟨some (List.replicate (b.deviceSlots * b.words) default), .new, List.range b.deviceSlots⟩

/-- `fetch` : the words of experts, or the first error. -/
def fetch (fails : Nat → Option CucaError) : List Nat → Except CucaError (List (List α))
  | [] => .ok []
  | e :: es =>
    match fails e with
    | some error => .error error
    | none =>
      match fetch fails es with
      | .error error => .error error
      | .ok built => .ok (b.packed e :: built)

def warmAll (heat : List Nat) : List (Nat × List α) → TierState α → TierShared → Except CucaError (TierState α × TierShared)
  | [], tier, shared => .ok (tier, shared)
  | (e, packed) :: rest, tier, shared =>
    match takeSlot b heat [] tier shared with
    | .error error => .error error
    | .ok (slot, tier, shared) =>
      let (tier, shared) := install b e slot packed tier shared
      warmAll heat rest tier shared

/-- `GpuExpertBank::warm` of a tiered bank, with the heat of its layer. -/
def warm (fails : Nat → Option CucaError) (counts : List Nat) (tier : TierState α) (shared : TierShared) :
    Except CucaError (TierState α × TierShared) :=
  let ids := (ranked counts).take b.deviceSlots
  match fetch b fails ids with
  | .error error => .error error
  | .ok built => warmAll b counts (ids.zip built) tier shared

end Cuca.Local.Experts
