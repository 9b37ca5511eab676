import Cuca.Lib.Rounds
import Cuca.Local.Model.ExpertsRuns

/-!
# The experts of a layer in memory

The RAM tier keeps built experts of a layer in a table of so many slots and reads the others from the file. A pass walks
the experts that a layer needs in ascending order. Those that are missing are requested of the loader threads ahead of
time, as far as the slots and the reads in flight allow, and the table gives up victims for them.

What a request is answered is a parameter, by the number of the request and its expert; so is when the threads stop. An
expert that is built stands for itself as a number, the handle that is shared.

* `ExpertStore`, `Loader` : what a pass reads from;
* `Pass`, `issue`, `next` : a pass, its prefetching and its steps;
* `walk` : a whole pass.
-/

namespace Cuca.Local.RamTier
open Experts Model

/-! ## The store -/

/-- The built expert and the bytes that were read. -/
abbrev Reply := Except CucaError (Nat × Nat)

structure Loader where
  /-- The answer to the request of a number, for an expert. -/
  reply : Nat → Nat → Reply
  /-- The number of the first request that no thread takes any more. -/
  stops : Option Nat

def Loader.stopped (loader : Loader) (number : Nat) : Bool := loader.stops.any (· ≤ number)

/-- What the store says of one layer, `il`. -/
structure ExpertStore where
  il : Nat
  /-- Slots of the layer; none without a RAM tier. -/
  ramSlots : Nat
  /-- The threads that were asked for. -/
  threads : Nat
  storedBytes : Nat
  heat : List Nat
  loader : Loader

def ExpertStore.loaderThreads (s : ExpertStore) : Nat := max s.threads 1

/-- The counters that the layers share. -/
structure TierShared where
  ramHits : Nat
  diskReads : Nat
  bytesRead : Nat
  ramResidentBytes : Nat

/-! ## A pass -/

/-- What is resident, what is in flight, and the bytes that are counted. -/
structure Moment where
  resident : List Nat
  inFlight : List Nat
  bytes : Nat

/-- A pass. The last two say what it has done: each state of the tier it went through, and its requests, each with the
state it was made in. -/
structure Pass where
  needed : List Nat
  cursor : Nat
  /-- Missing experts not yet requested, ascending. -/
  pending : List Nat
  /-- Requested experts with their replies, in request order. -/
  inFlight : List (Nat × Reply)
  /-- A request that could not be sent. -/
  failed : Option CucaError
  table : SlotTable
  shared : TierShared
  moments : List Moment
  asked : List (Nat × Moment)

namespace Pass
variable (w : Pass)

def flying : List Nat := w.inFlight.map Prod.fst

def moment : Moment := ⟨w.table.entries.keys, w.flying, w.shared.ramResidentBytes⟩

def seen : Pass := { w with moments := w.moments ++ [w.moment] }

def later : List Nat := w.needed.drop w.cursor

end Pass

variable (s : ExpertStore)

def stoppedError : CucaError := err "expert loader thread stopped"

def notNext (e : Nat) : CucaError := err s!"expert {e} is not next in layer {s.il}"

def neverRequested (e : Nat) : CucaError := err s!"expert {e} of layer {s.il} was never requested"

def request (e : Nat) (w : Pass) : Pass :=
  let asked := w.asked ++ [(e, w.moment)]
  if s.loader.stopped w.asked.length then { w with asked := asked, failed := some stoppedError }
  else { w with asked := asked, inFlight := w.inFlight ++ [(e, s.loader.reply w.asked.length e)] }.seen

/-- A resident expert leaves the table. -/
def evict (victim : Nat) (w : Pass) : Pass :=
  { w with
    table := (w.table.remove victim).2
    shared := { w.shared with ramResidentBytes := w.shared.ramResidentBytes - s.storedBytes } }.seen

/-- One round of the loop of `issue`, if it does not stop. -/
def issueStep (w : Pass) : Option Pass :=
  match w.pending with
  | [] => none
  | next :: rest =>
    if s.ramSlots = 0 then
      if w.inFlight.length < min s.loaderThreads (2 * s.loaderThreads) then some (request s next { w with pending := rest })
      else none
    else if w.inFlight.length ≥ 2 * s.loaderThreads then none
    else if w.table.len + w.inFlight.length ≥ s.ramSlots then
      match w.table.victim s.heat w.later with
      | none => none
      | some victim =>
        -- every resident expert is needed before the one to fetch
        if victim ∈ w.later ∧ victim < next then none
        else
          let pending := if victim ∈ w.later then w.pending.orderedInsert (· ≤ ·) victim else w.pending
          some (request s next { evict s victim w with pending := pending.tail })
    else some (request s next { w with pending := rest })

/-- `Pass::issue` : a request takes one from what is pending, or one from the table. -/
def issue (w : Pass) : Option Pass := Rounds.rounds (issueStep s) (w.pending.length + w.table.len) w

/-- A finished read is counted, and its expert is resident where there is a RAM tier. -/
def arrive (e value bytes : Nat) (w : Pass) : Pass :=
  let shared := { w.shared with diskReads := w.shared.diskReads + 1, bytesRead := w.shared.bytesRead + bytes }
  if 0 < s.ramSlots then
    { w with
      table := w.table.insert e value
      shared := { shared with ramResidentBytes := shared.ramResidentBytes + s.storedBytes } }.seen
  else { w with shared := shared }.seen

def land (e : Nat) (w : Pass) : Pass := { w with inFlight := w.inFlight.eraseP (·.1 == e) }.seen

/-- The end of `next` : the reply of an expert in flight. -/
def receive (e : Nat) (w : Pass) : Option (Except CucaError Nat × Pass) :=
  match w.inFlight.lookup e with
  | none => some (.error (neverRequested s e), w)
  | some reply =>
    match reply with
    | .error error => some (.error error, land e w)
    | .ok (value, bytes) => (issue s (arrive s e value bytes (land e w))).map (.ok value, ·)

/-- What `next` does with an expert that is not resident. -/
def fetch (e : Nat) (w : Pass) : Option (Except CucaError Nat × Pass) :=
  if e ∈ w.flying then receive s e w
  else
    -- evicted for a fetch after the pass started
    (issue s { w with pending := e :: w.pending.erase e }).bind fun w =>
      match w.failed with
      | some error => some (.error error, { w with failed := none })
      | none => receive s e w

/-- `Pass::next` -/
def next (e : Nat) (w : Pass) : Option (Except CucaError Nat × Pass) :=
  match w.failed with
  | some error => some (.error error, { w with failed := none })
  | none =>
    match w.later.findIdx? (· == e) with
    | none => some (.error (notNext s e), w)
    | some position =>
      let w := { w with cursor := w.cursor + (position + 1) }
      if 0 < s.ramSlots then
        let (hit, table) := w.table.get e
        let w := { w with table := table }
        match hit with
        | some value => (issue s { w with shared := { w.shared with ramHits := w.shared.ramHits + 1 } }).map (.ok value, ·)
        | none => fetch s e w
      else fetch s e w

/-- A pass before its first requests. -/
def opening (needed : List Nat) (table : SlotTable) (shared : TierShared) : Pass :=
  Pass.seen {
    needed := needed
    cursor := 0
    pending := if s.ramSlots = 0 then needed else needed.filter fun e => !table.contains e
    inFlight := []
    failed := none
    table := table
    shared := shared
    moments := []
    asked := [] }

/-- `ExpertStore::pass` -/
def pass (needed : List Nat) (table : SlotTable) (shared : TierShared) : Option Pass := issue s (opening s needed table shared)

/-- `next` once for each expert. -/
def nextAll : List Nat → Pass → Option (List (Except CucaError Nat) × Pass)
  | [], w => some ([], w)
  | e :: es, w => (next s e w).bind fun step => (nextAll es step.2).map fun rest => (step.1 :: rest.1, rest.2)

def walk (needed : List Nat) (table : SlotTable) (shared : TierShared) : Option (List (Except CucaError Nat) × Pass) :=
  (pass s needed table shared).bind (nextAll s needed)

end Cuca.Local.RamTier
