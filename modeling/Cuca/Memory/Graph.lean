import Cuca.Types
import Cuca.Lib.Assoc
import Cuca.Lib.Layers
import Cuca.Lib.SwapRemove

/-!
# The graph memory

A store of nodes, a store of relationships, and for each direction an index of the relationships by node, with the slot
of each of them in its list. Hash maps are association lists in an order that nothing is promised about.

* `Index.link`, `Index.unlink` : the two edits of an index;
* `upsertNode`, `addRelationship`, `removeRelationship`, `removeNode`, `merge` : the operations;
* `neighbors`, `isConnected`, `traverse`, `subgraph` : the queries;
* `fromSnapshot` : a graph from its nodes and relationships.
-/

namespace Cuca.Memory
open SwapRemove

structure GraphNode where
  id : String
  labels : List String
  properties : List (String × Value)
  deriving Repr

/-- A 64-bit float, as far as the graph tells them apart. -/
inductive Weight where
  | nan
  | infinite (negative : Bool)
  | finite (text : String)
  deriving DecidableEq, Repr

def Weight.isFinite : Weight → Bool
  | finite _ => true
  | _ => false

def Weight.display : Weight → String
  | nan => "NaN"
  | infinite negative => if negative then "-inf" else "inf"
  | finite text => text

structure GraphRelationship where
  id : String
  fromId : String
  toId : String
  kind : String
  weight : Weight
  properties : List (String × Value)
  deriving Repr

inductive GraphDirection where
  | outgoing
  | incoming
  | any
  deriving DecidableEq, Repr

inductive MergePolicy where
  | keep
  | overwrite
  deriving DecidableEq, Repr

structure MergeReport where
  nodesAdded : Nat
  nodesOverwritten : Nat
  nodesKept : Nat
  relationshipsAdded : Nat
  relationshipsRenamed : Nat
  deriving DecidableEq, Repr

structure GraphSnapshot where
  nodes : List GraphNode
  relationships : List GraphRelationship
  deriving Repr

/-! ## One direction of the adjacency -/

/-- `outgoing` with `outgoing_positions`, or `incoming` with `incoming_positions`. -/
structure Index where
  /-- A node id to the ids of its relationships. -/
  lists : AList (fun _ : String => List String)
  /-- A relationship id to its slot in the list of its node. -/
  positions : AList (fun _ : String => Nat)

namespace Index

def empty : Index := ⟨∅, ∅⟩

def listAt (x : Index) (node : String) : List String := (x.lists.lookup node).getD []

def link (x : Index) (node id : String) : Index :=
  ⟨x.lists.insert node (x.listAt node ++ [id]), x.positions.insert id (x.listAt node).length⟩

def slot (x : Index) (list : List String) (id : String) : Option Nat :=
  ((x.positions.lookup id).filter fun i => list[i]? = some id).or (list.idxOf? id)

def unlink (x : Index) (node id : String) : Index :=
  match x.lists.lookup node with
  | none => x
  | some list =>
    match x.slot list id with
    | none => x
    | some i =>
      let positions := x.positions.erase id
      -- `moved_id` is what `swap_remove` returns: the element that was at `i`
      match list[i]? with
      | some moved =>
        ⟨x.lists.insert node (swapRemove list i), if moved ≠ id then positions.insert moved i else positions⟩
      | none => ⟨x.lists.insert node (swapRemove list i), positions⟩

end Index

structure MemoryGraph where
  nodes : AList (fun _ : String => GraphNode)
  relationships : AList (fun _ : String => GraphRelationship)
  outgoing : Index
  incoming : Index

namespace MemoryGraph

def new : MemoryGraph := ⟨∅, ∅, .empty, .empty⟩

/-! ## Operations -/

def upsertNode (g : MemoryGraph) (node : GraphNode) : Bool × MemoryGraph :=
  ((g.nodes.lookup node.id).isNone, { g with nodes := g.nodes.insert node.id node })

def removeRelationship (g : MemoryGraph) (id : String) : Bool × MemoryGraph :=
  match g.relationships.lookup id with
  | none => (false, g)
  | some rel =>
    (true,
      { g with
        relationships := g.relationships.erase id
        outgoing := g.outgoing.unlink rel.fromId id
        incoming := g.incoming.unlink rel.toId id })

/-- Stores a relationship under an id, and links it. -/
def insertRelationship (g : MemoryGraph) (id : String) (rel : GraphRelationship) : MemoryGraph :=
  { g with
    relationships := g.relationships.insert id rel
    outgoing := g.outgoing.link rel.fromId id
    incoming := g.incoming.link rel.toId id }

def unknownNode (rel : GraphRelationship) (node side : String) : PluginError :=
  .internal ("graph relationship '" ++ rel.id ++ "' references unknown node '" ++ node ++ "' (" ++ side ++ ")")

def addRelationship (g : MemoryGraph) (rel : GraphRelationship) : Except PluginError Unit × MemoryGraph :=
  if rel.fromId ∉ g.nodes then (.error (unknownNode rel rel.fromId "from"), g)
  else if rel.toId ∉ g.nodes then (.error (unknownNode rel rel.toId "to"), g)
  else (.ok (), (g.removeRelationship rel.id).2.insertRelationship rel.id rel)

def removeNode (g : MemoryGraph) (id : String) : Bool × MemoryGraph :=
  match g.nodes.lookup id with
  | none => (false, g)
  | some _ =>
    let incident := g.outgoing.listAt id ++ g.incoming.listAt id
    let g := incident.foldl (fun g rid => (g.removeRelationship rid).2) { g with nodes := g.nodes.erase id }
    (true,
      { g with
        outgoing := ⟨g.outgoing.lists.erase id, g.outgoing.positions⟩
        incoming := ⟨g.incoming.lists.erase id, g.incoming.positions⟩ })

/-! ## Merging -/

def candidate (orig : String) (n : Nat) : String := orig ++ "-" ++ toString n

/-- The first candidate from `n` on that is free; among one more than there are ids in use, one is. -/
def probe (orig : String) (used : String → Bool) : Nat → Nat → String
  | 0, n => candidate orig n
  | fuel + 1, n => if used (candidate orig n) then probe orig used fuel (n + 1) else candidate orig n

/-- The new ids of the colliding ones, which are in order, and all that are assigned. -/
def resolve (taken : List String) (collisions : List String) : List String × AList (fun _ : String => String) :=
  collisions.foldl
    (fun (assigned, rename) orig =>
      let free := probe orig (fun id => id ∈ taken ∨ id ∈ assigned) (taken.length + assigned.length) 2
      (free :: assigned, rename.insert orig free))
    ([], ∅)

def mergeNode (policy : MergePolicy) (s : AList (fun _ : String => GraphNode) × MergeReport)
    (entry : Sigma fun _ : String => GraphNode) : AList (fun _ : String => GraphNode) × MergeReport :=
  match s.1.lookup entry.1 with
  | none => (s.1.insert entry.1 entry.2, { s.2 with nodesAdded := s.2.nodesAdded + 1 })
  | some _ =>
    match policy with
    | .keep => (s.1, { s.2 with nodesKept := s.2.nodesKept + 1 })
    | .overwrite => (s.1.insert entry.1 entry.2, { s.2 with nodesOverwritten := s.2.nodesOverwritten + 1 })

def mergeRelationship (rename : AList (fun _ : String => String)) (s : MemoryGraph × MergeReport)
    (entry : Sigma fun _ : String => GraphRelationship) : MemoryGraph × MergeReport :=
  match rename.lookup entry.1 with
  | some id =>
    (s.1.insertRelationship id { entry.2 with id },
      { s.2 with relationshipsRenamed := s.2.relationshipsRenamed + 1 })
  | none =>
    (s.1.insertRelationship entry.1 entry.2, { s.2 with relationshipsAdded := s.2.relationshipsAdded + 1 })

def merge (g other : MemoryGraph) (policy : MergePolicy) : MergeReport × MemoryGraph :=
  let (nodes, report) := other.nodes.entries.foldl (mergeNode policy) (g.nodes, ⟨0, 0, 0, 0, 0⟩)
  let collisions := (other.relationships.keys.filter (· ∈ g.relationships)).insertionSort (· ≤ ·)
  let taken := g.relationships.keys ++ other.relationships.keys
  let (_, rename) := resolve taken collisions
  let (g, report) := other.relationships.entries.foldl (mergeRelationship rename) ({ g with nodes }, report)
  (report, g)

/-! ## Queries -/

def along (g : MemoryGraph) (x : Index) (far : GraphRelationship → String) (node : String) : List String :=
  (x.listAt node).filterMap fun rid => (g.relationships.lookup rid).map far

/-- The neighbours of a node in the order in which they are listed. -/
def adjacent (g : MemoryGraph) (direction : GraphDirection) (node : String) : List String :=
  match direction with
  | .outgoing => g.along g.outgoing (·.toId) node
  | .incoming => g.along g.incoming (·.fromId) node
  | .any => g.along g.outgoing (·.toId) node ++ g.along g.incoming (·.fromId) node

def neighbors (g : MemoryGraph) (id : String) (direction : GraphDirection) : List String :=
  ((g.adjacent direction id).insertionSort (· ≤ ·)).destutter (· ≠ ·)

/-- Nothing where the search does not end in one round more than there are relationships. -/
def isConnected (g : MemoryGraph) (fromId toId : String) : Option Bool :=
  if fromId = toId then some (fromId ∈ g.nodes)
  else if fromId ∉ g.nodes ∨ toId ∉ g.nodes then some false
  else Layers.search (g.adjacent .outgoing) toId (g.relationships.entries.length + 2) [fromId] [fromId]

def traverse (g : MemoryGraph) (start : String) (maxDepth : Nat) (direction : GraphDirection) : List String :=
  if start ∉ g.nodes then []
  else
    start ::
      (Layers.layers (g.adjacent direction) (·.insertionSort (· ≤ ·)) maxDepth [start] [start]).flatten

/-- The nodes within some hops of the roots that exist. -/
def hull (g : MemoryGraph) (roots : List String) (maxDepth : Nat) : List String :=
  let (ids, frontier) := (roots.filter (· ∈ g.nodes)).foldl Layers.visit ([], [])
  Layers.closure (g.adjacent .any) maxDepth ids frontier

/-- Copies a node of `g`. -/
def copyNode (g : MemoryGraph) (nodes : AList (fun _ : String => GraphNode)) (id : String) :
    AList (fun _ : String => GraphNode) :=
  match g.nodes.lookup id with
  | some node => nodes.insert id node
  | none => nodes

/-- Copies a relationship of `g`. -/
def copyRelationship (g out : MemoryGraph) (rid : String) : MemoryGraph :=
  match g.relationships.lookup rid with
  | some rel => out.insertRelationship rid rel
  | none => out

def subgraph (g : MemoryGraph) (roots : List String) (maxDepth : Nat) : MemoryGraph :=
  let ids := g.hull roots maxDepth
  let nodes := (ids.insertionSort (· ≤ ·)).foldl g.copyNode ∅
  let inside := g.relationships.entries.filter fun entry => entry.2.fromId ∈ ids ∧ entry.2.toId ∈ ids
  ((inside.map (·.1)).insertionSort (· ≤ ·)).foldl g.copyRelationship { new with nodes }

/-! ## Snapshots -/

/-- The checks of the nodes, with the ids seen so far. -/
def checkNodes : List GraphNode → List String → Except PluginError (List String)
  | [], seen => .ok seen
  | node :: nodes, seen =>
    if node.id ∈ seen then .error (.internal ("graph snapshot has duplicate node id '" ++ node.id ++ "'"))
    else checkNodes nodes (node.id :: seen)

/-- The checks of the relationships, with the ids seen so far. -/
def checkRelationships (nodeIds : List String) : List GraphRelationship → List String → Except PluginError Unit
  | [], _ => .ok ()
  | rel :: rels, seen =>
    if rel.id ∈ seen then .error (.internal ("graph snapshot has duplicate relationship id '" ++ rel.id ++ "'"))
    else if !rel.weight.isFinite then
      .error (.internal ("graph snapshot relationship '" ++ rel.id ++ "' has non-finite weight " ++
        rel.weight.display))
    else if rel.fromId ∉ nodeIds then
      .error (.internal ("graph snapshot relationship '" ++ rel.id ++ "' references unknown node '" ++ rel.fromId ++
        "' (from)"))
    else if rel.toId ∉ nodeIds then
      .error (.internal ("graph snapshot relationship '" ++ rel.id ++ "' references unknown node '" ++ rel.toId ++
        "' (to)"))
    else checkRelationships nodeIds rels (rel.id :: seen)

def addAll (g : MemoryGraph) : List GraphRelationship → Except PluginError MemoryGraph
  | [] => .ok g
  | rel :: rels =>
    match g.addRelationship rel with
    | (.ok (), g) => addAll g rels
    | (.error e, _) => .error e

def fromSnapshot (snapshot : GraphSnapshot) : Except PluginError MemoryGraph := do
  let nodeIds ← checkNodes snapshot.nodes []
  checkRelationships nodeIds snapshot.relationships []
  addAll (snapshot.nodes.foldl (fun g node => (g.upsertNode node).2) new) snapshot.relationships

end MemoryGraph
end Cuca.Memory
