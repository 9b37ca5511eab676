import Cuca.Services.Pool
import Mathlib.Data.List.Sort

/-!
# One rebalance pass

The pass of `Dispatcher::rebalance` over the backends whose breakers admit, given by their places in the pool. Each turn
reads every load, aims at the backend with the earliest start and takes one call from the busiest backend that a move
helps; the pass ends at the first turn that moves nothing, or after as many turns as calls waited.

* `lowersTheWorst` : whether a move would lower the longest estimated start;
* `rebalanceTurn`, `rebalance` : one turn and a whole pass, with the moves it made;
* `rebalance_run` : a pass is a run of its moves;
* `turn_some` : what is known of a move that a turn makes.
-/

namespace Cuca.Services
open Transition

/-! ## Loads -/

namespace Load

/-- How long a call queued behind `calls` others waits before it starts. -/
def startWith (l : Load) (calls : Nat) : Nat := calls * l.paceMs / max l.level 1

def startMs (l : Load) : Nat := l.startWith l.calls

/-- Whether a call queued now would start sooner here than on `other`. -/
def isLighterThan (l other : Load) : Bool :=
  if l.calls = 0 ∧ other.calls > 0 then true
  else if l.calls > 0 ∧ other.calls = 0 then false
  else l.calls * l.paceMs * max other.level 1 < other.calls * other.paceMs * max l.level 1

end Load

/-- The calls at each backend after a move from `source` to `target`. -/
def callsAfter (source target index : Nat) (l : Load) : Nat :=
  if index = source then l.calls - 1 else if index = target then l.calls + 1 else l.calls

def worst (starts : List Nat) : Nat := starts.max?.getD 0

/-- Whether moving one waiting call from `source` to `target` would lower the longest estimated start. -/
def lowersTheWorst (loads : List Load) (source target : Nat) : Bool :=
  match loads[source]?, loads[target]? with
  | some src, some tgt =>
    if tgt.calls = 0 then src.calls > 0
    else
      worst (loads.mapIdx fun index load => load.startWith (callsAfter source target index load)) <
        worst (loads.map Load.startMs)
  | _, _ => false

/-! ## The pass -/

/-- The bit of `CallMeta.allowed` that names a member of the pool. -/
def bitOf (member : Nat) : UInt64 := UInt64.ofNat (2 ^ member)

namespace Pool
variable {F : Type}

def load (p : Pool F) (member : Nat) : Load :=
  match p.members[member]? with
  | none => ⟨0, 0, 1, 0⟩
  | some s => s.load

variable [Meter F]

/-- One turn: the move it makes, and the pool after it. -/
def rebalanceTurn (p : Pool F) (live : List Nat) (now : Nat) (gate : Gate) : Option (PoolOp × Pool F) :=
  let loads := live.map p.load
  let start (index : Nat) : Nat := (loads[index]?.map Load.startMs).getD 0
  match (List.range live.length).argmin start with
  | none => none
  | some target =>
    let sources := (List.range live.length).filter fun index => index != target
    (sources.insertionSort fun i j => start j ≤ start i).findSome? fun source =>
      if lowersTheWorst loads source target then
        match live[source]?, live[target]? with
        | some a, some b => (p.move a b (bitOf b) now gate).map fun p' => (.move a b (bitOf b) now gate, p')
        | _, _ => none
      else none

/-- The turns of a pass; `clock turn` is the reading of the turn with `turn` more to come. -/
def rebalanceLoop (live : List Nat) (clock : Nat → Nat) (gate : Gate) : Nat → Pool F → Pool F × List PoolOp
  | 0, p => (p, [])
  | budget + 1, p =>
    match p.rebalanceTurn live (clock budget) gate with
    | none => (p, [])
    | some (op, p') =>
      let rest := rebalanceLoop live clock gate budget p'
      (rest.1, op :: rest.2)

/-- One pass over the live backends, and its moves. -/
def rebalance (p : Pool F) (live : List Nat) (clock : Nat → Nat) (gate : Gate) : Pool F × List PoolOp :=
  if live.length < 2 then (p, [])
  else rebalanceLoop live clock gate (live.map fun member => (p.load member).waiting).sum p

/-! ## A pass is a run of moves -/

/-- What a turn that moves has found. -/
structure Turned (p : Pool F) (live : List Nat) (now : Nat) (gate : Gate) (op : PoolOp) (p' : Pool F) : Prop where
  found : ∃ source target a b, live[source]? = some a ∧ live[target]? = some b ∧
    lowersTheWorst (live.map p.load) source target = true ∧ op = .move a b (bitOf b) now gate ∧
    p.move a b (bitOf b) now gate = some p'

theorem turn_some {p p' : Pool F} {live : List Nat} {now : Nat} {gate : Gate} {op : PoolOp}
    (h : p.rebalanceTurn live now gate = some (op, p')) : p.Turned live now gate op p' := by
  unfold rebalanceTurn at h
  simp only at h
  split at h
  · cases h
  · rename_i target _
    obtain ⟨source, -, hsource⟩ := List.exists_of_findSome?_eq_some h
    split_ifs at hsource with hlowers
    split at hsource
    · rename_i a b ha hb
      obtain ⟨q, hmove, heq⟩ := Option.map_eq_some_iff.mp hsource
      obtain ⟨rfl, rfl⟩ := Prod.mk.inj heq
      exact ⟨source, target, a, b, ha, hb, hlowers, rfl, hmove⟩
    · cases hsource

def next (p : Pool F) (op : PoolOp) : Pool F := (p.step op).1

theorem turn_next {p p' : Pool F} {live : List Nat} {now : Nat} {gate : Gate} {op : PoolOp}
    (h : p.rebalanceTurn live now gate = some (op, p')) : p.next op = p' := by
  obtain ⟨source, target, a, b, -, -, -, rfl, hmove⟩ := (turn_some h).found
  simp [next, step, hmove]

theorem rebalanceLoop_run (live : List Nat) (clock : Nat → Nat) (gate : Gate) (budget : Nat) :
    ∀ p : Pool F, run next p (rebalanceLoop live clock gate budget p).2 = (rebalanceLoop live clock gate budget p).1 := by
  induction budget with
  | zero => exact fun p => rfl
  | succ budget ih =>
    intro p
    unfold rebalanceLoop
    cases hturn : p.rebalanceTurn live (clock budget) gate with
    | none => rfl
    | some result =>
      obtain ⟨op, p'⟩ := result
      simp only [run_cons, turn_next hturn]
      exact ih p'

/-- **A pass is the run of its moves.** -/
theorem rebalance_run (p : Pool F) (live : List Nat) (clock : Nat → Nat) (gate : Gate) :
    run next p (p.rebalance live clock gate).2 = (p.rebalance live clock gate).1 := by
  unfold rebalance
  split_ifs
  · rfl
  · exact rebalanceLoop_run live clock gate _ p

end Pool
end Cuca.Services
