import Cuca.Memory.GraphMerge
import Mathlib.Data.String.Basic
import Mathlib.Order.Lattice.Nat

/-!
# What a graph memory is

Finite sets of nodes and of relationships, no two with one id, where the ends of every relationship are nodes.

* `AbstractGraph` : such a graph;
* `newIds` : the ids of the relationships of a graph that is merged into another;
* `upsertNode`, …, `merge` : the operations;
* `Hop`, `neighbors`, `IsConnected`, `traverse`, `subgraph` : the queries, by walks.
-/

namespace Cuca.Memory
open Layers Sorted MemoryGraph

@[ext] structure AbstractGraph where
  nodes : Set GraphNode
  relationships : Set GraphRelationship
  nodes_finite : nodes.Finite
  relationships_finite : relationships.Finite
  node_unique : nodes.InjOn GraphNode.id
  relationship_unique : relationships.InjOn GraphRelationship.id
  endpoints : ∀ rel ∈ relationships, rel.fromId ∈ GraphNode.id '' nodes ∧ rel.toId ∈ GraphNode.id '' nodes

/-! ## New ids -/

/-- The first candidate for `orig` that is not taken. -/
noncomputable def freshId (taken : Set String) (orig : String) : String :=
  candidate orig (sInf {n | 2 ≤ n ∧ candidate orig n ∉ taken})

/-- Gives each of the ids in the list a new one, in this order; other ids stay. -/
noncomputable def assignIds (taken : Set String) : List String → String → String
  | [], id => id
  | orig :: rest, id =>
    if id = orig then freshId taken orig else assignIds (insert (freshId taken orig) taken) rest id

noncomputable def newIds (own others : Set String) : String → String := assignIds (own ∪ others) (sorted (own ∩ others))

theorem freshId_spec {taken : Set String} (hfinite : taken.Finite) (orig : String) :
    IsLeast {n | 2 ≤ n ∧ candidate orig n ∉ taken} (sInf {n | 2 ≤ n ∧ candidate orig n ∉ taken}) := by
  have hsome : {n | 2 ≤ n ∧ candidate orig n ∉ taken}.Nonempty := by
    by_contra hnone
    have hall : ∀ k, candidate orig (k + 2) ∈ taken := fun k => by
      by_contra hfree
      exact hnone ⟨k + 2, Nat.le_add_left 2 k, hfree⟩
    refine Set.infinite_of_injective_forall_mem (f := fun k => candidate orig (k + 2)) (fun j k heq => ?_) hall hfinite
    have := candidate_injective orig heq
    omega
  exact ⟨Nat.sInf_mem hsome, fun n hn => Nat.sInf_le hn⟩

theorem freshId_notMem {taken : Set String} (hfinite : taken.Finite) (orig : String) : freshId taken orig ∉ taken :=
  (freshId_spec hfinite orig).1.2

theorem assignIds_notMem {taken : Set String} (hfinite : taken.Finite) {ids : List String} {id : String}
    (hid : id ∈ ids) : assignIds taken ids id ∉ taken := by
  induction ids generalizing taken with
  | nil => exact (List.not_mem_nil hid).elim
  | cons orig rest ih =>
    rw [assignIds]
    split
    · exact freshId_notMem hfinite orig
    · rename_i hne
      have hrest := (List.mem_cons.mp hid).resolve_left hne
      exact fun hmem => ih (hfinite.insert _) hrest (Set.mem_insert_of_mem _ hmem)

theorem assignIds_of_notMem {taken : Set String} {ids : List String} {id : String} (hid : id ∉ ids) :
    assignIds taken ids id = id := by
  induction ids generalizing taken with
  | nil => rfl
  | cons orig rest ih =>
    obtain ⟨hne, hrest⟩ := not_or.mp (List.mem_cons.not.mp hid)
    rw [assignIds, if_neg hne, ih hrest]

theorem assignIds_injective {taken : Set String} (hfinite : taken.Finite) {ids : List String} {a b : String}
    (ha : a ∈ ids) (hb : b ∈ ids) (heq : assignIds taken ids a = assignIds taken ids b) : a = b := by
  induction ids generalizing taken with
  | nil => exact (List.not_mem_nil ha).elim
  | cons orig rest ih =>
    have hnew {id : String} (hid : id ∈ rest) :
        assignIds (insert (freshId taken orig) taken) rest id ≠ freshId taken orig := fun heq =>
      assignIds_notMem (hfinite.insert _) hid (by rw [heq]; exact Set.mem_insert _ _)
    rw [assignIds, assignIds] at heq
    split_ifs at heq with ha' hb' hb'
    · rw [ha', hb']
    · exact absurd heq.symm (hnew ((List.mem_cons.mp hb).resolve_left hb'))
    · exact absurd heq (hnew ((List.mem_cons.mp ha).resolve_left ha'))
    · exact ih (hfinite.insert _) ((List.mem_cons.mp ha).resolve_left ha') ((List.mem_cons.mp hb).resolve_left hb') heq

section
variable {own others : Set String} (hown : own.Finite) (hothers : others.Finite)

include hown hothers in
theorem newIds_notMem {id : String} (hid : id ∈ others) : newIds own others id ∉ own := by
  have hfinite := hown.union hothers
  by_cases hcollides : id ∈ own
  · have hsorted : id ∈ sorted (own ∩ others) := (mem_sorted (hown.inter_of_left others) id).mpr ⟨hcollides, hid⟩
    exact fun hmem => assignIds_notMem hfinite hsorted (Set.mem_union_left _ hmem)
  · have hsorted : id ∉ sorted (own ∩ others) := fun hmem =>
      hcollides ((mem_sorted (hown.inter_of_left others) id).mp hmem).1
    rwa [newIds, assignIds_of_notMem hsorted]

include hown hothers in
theorem newIds_injOn : others.InjOn (newIds own others) := by
  have hfinite := hown.union hothers
  have hsorted (id : String) : id ∈ sorted (own ∩ others) ↔ id ∈ own ∩ others := mem_sorted (hown.inter_of_left others) id
  -- a new id is no id of `others`
  have hnew {a b : String} (ha : a ∈ sorted (own ∩ others)) (hb : b ∈ others) : newIds own others a ≠ b := fun heq =>
    assignIds_notMem hfinite ha (Set.mem_union_right _ (by rwa [show assignIds _ _ a = b from heq]))
  intro a ha b hb heq
  by_cases hacollides : a ∈ sorted (own ∩ others)
  · by_cases hbcollides : b ∈ sorted (own ∩ others)
    · exact assignIds_injective hfinite hacollides hbcollides heq
    · rw [show newIds own others b = b from assignIds_of_notMem hbcollides] at heq
      exact absurd heq (hnew hacollides hb)
  · rw [show newIds own others a = a from assignIds_of_notMem hacollides] at heq
    by_cases hbcollides : b ∈ sorted (own ∩ others)
    · exact absurd heq.symm (hnew hbcollides ha)
    · rwa [show newIds own others b = b from assignIds_of_notMem hbcollides] at heq

end

namespace AbstractGraph

def nodeIds (a : AbstractGraph) : Set String := GraphNode.id '' a.nodes

def relationshipIds (a : AbstractGraph) : Set String := GraphRelationship.id '' a.relationships

theorem relationshipIds_finite (a : AbstractGraph) : a.relationshipIds.Finite := a.relationships_finite.image _

def empty : AbstractGraph where
  nodes := ∅
  relationships := ∅
  nodes_finite := Set.finite_empty
  relationships_finite := Set.finite_empty
  node_unique := Set.injOn_empty _
  relationship_unique := Set.injOn_empty _
  endpoints _ h := h.elim

/-! ## Operations -/

def upsert {α : Type*} (id : α → String) (x : α) (s : Set α) : Set α := insert x {y ∈ s | id y ≠ id x}

theorem upsert_finite {α : Type*} (id : α → String) (x : α) {s : Set α} (h : s.Finite) : (upsert id x s).Finite :=
  (h.subset (Set.sep_subset _ _)).insert x

theorem upsert_injOn {α : Type*} {id : α → String} {x : α} {s : Set α} (h : s.InjOn id) : (upsert id x s).InjOn id := by
  rintro y (rfl | ⟨hy, hyx⟩) z (rfl | ⟨hz, hzx⟩) heq
  · rfl
  · exact absurd heq.symm hzx
  · exact absurd heq hyx
  · exact h hy hz heq

theorem image_upsert {α : Type*} (id : α → String) (x : α) (s : Set α) : id '' s ⊆ id '' upsert id x s := by
  rintro _ ⟨y, hy, rfl⟩
  by_cases heq : id y = id x
  · exact ⟨x, Set.mem_insert _ _, heq.symm⟩
  · exact ⟨y, Set.mem_insert_of_mem _ ⟨hy, heq⟩, rfl⟩

/-- Whether the id is new, and the graph with the node. -/
noncomputable def upsertNode (a : AbstractGraph) (node : GraphNode) : Bool × AbstractGraph :=
  open Classical in
  (decide (node.id ∉ a.nodeIds),
    { a with
      nodes := upsert GraphNode.id node a.nodes
      nodes_finite := upsert_finite _ _ a.nodes_finite
      node_unique := upsert_injOn a.node_unique
      endpoints := fun rel hrel =>
        ⟨image_upsert _ _ _ (a.endpoints rel hrel).1, image_upsert _ _ _ (a.endpoints rel hrel).2⟩ })

/-- The graph with a relationship between two of its nodes. -/
def withRelationship (a : AbstractGraph) (rel : GraphRelationship) (hfrom : rel.fromId ∈ a.nodeIds)
    (hto : rel.toId ∈ a.nodeIds) : AbstractGraph :=
  { a with
    relationships := upsert GraphRelationship.id rel a.relationships
    relationships_finite := upsert_finite _ _ a.relationships_finite
    relationship_unique := upsert_injOn a.relationship_unique
    endpoints := by
      rintro r (rfl | ⟨hr, -⟩)
      · exact ⟨hfrom, hto⟩
      · exact a.endpoints r hr }

noncomputable def addRelationship (a : AbstractGraph) (rel : GraphRelationship) :
    Except PluginError Unit × AbstractGraph :=
  open Classical in
  if hfrom : rel.fromId ∈ a.nodeIds then
    if hto : rel.toId ∈ a.nodeIds then (.ok (), a.withRelationship rel hfrom hto)
    else (.error (unknownNode rel rel.toId "to"), a)
  else (.error (unknownNode rel rel.fromId "from"), a)

/-- The part of a graph with some of its nodes and relationships. -/
def restrict (a : AbstractGraph) (keepsNode : GraphNode → Prop) (keeps : GraphRelationship → Prop)
    (h : ∀ rel ∈ a.relationships, keeps rel → ∀ node ∈ a.nodes, node.id = rel.fromId ∨ node.id = rel.toId →
      keepsNode node) : AbstractGraph where
  nodes := {node ∈ a.nodes | keepsNode node}
  relationships := {rel ∈ a.relationships | keeps rel}
  nodes_finite := a.nodes_finite.subset (Set.sep_subset _ _)
  relationships_finite := a.relationships_finite.subset (Set.sep_subset _ _)
  node_unique := a.node_unique.mono (Set.sep_subset _ _)
  relationship_unique := a.relationship_unique.mono (Set.sep_subset _ _)
  endpoints rel hrel := by
    obtain ⟨⟨u, hu, hfrom⟩, ⟨v, hv, hto⟩⟩ := a.endpoints rel hrel.1
    exact ⟨⟨u, ⟨hu, h rel hrel.1 hrel.2 u hu (.inl hfrom)⟩, hfrom⟩,
      ⟨v, ⟨hv, h rel hrel.1 hrel.2 v hv (.inr hto)⟩, hto⟩⟩

noncomputable def removeRelationship (a : AbstractGraph) (id : String) : Bool × AbstractGraph :=
  open Classical in
  (decide (id ∈ a.relationshipIds), a.restrict (fun _ => True) (·.id ≠ id) fun _ _ _ _ _ _ => trivial)

/-- A node goes with exactly its relationships. -/
noncomputable def removeNode (a : AbstractGraph) (id : String) : Bool × AbstractGraph :=
  open Classical in
  (decide (id ∈ a.nodeIds),
    a.restrict (·.id ≠ id) (fun rel => rel.fromId ≠ id ∧ rel.toId ≠ id) fun rel _ hkeeps node _ hends => by
      rcases hends with hends | hends
      · exact hends ▸ hkeeps.1
      · exact hends ▸ hkeeps.2)

theorem upsertNode_fst (a : AbstractGraph) (node : GraphNode) : (a.upsertNode node).1 ↔ node.id ∉ a.nodeIds := by
  classical exact decide_eq_true_iff

theorem removeRelationship_fst (a : AbstractGraph) (id : String) :
    (a.removeRelationship id).1 ↔ id ∈ a.relationshipIds := by
  classical exact decide_eq_true_iff

theorem removeNode_fst (a : AbstractGraph) (id : String) : (a.removeNode id).1 ↔ id ∈ a.nodeIds := by
  classical exact decide_eq_true_iff

def override (s t : Set GraphNode) : Set GraphNode := {node ∈ s | node.id ∉ GraphNode.id '' t} ∪ t

theorem override_injOn {s t : Set GraphNode} (hs : s.InjOn GraphNode.id) (ht : t.InjOn GraphNode.id) :
    (override s t).InjOn GraphNode.id := by
  rintro x (⟨hx, hxt⟩ | hx) y (⟨hy, hyt⟩ | hy) heq
  · exact hs hx hy heq
  · exact absurd ⟨y, hy, heq.symm⟩ hxt
  · exact absurd ⟨x, hx, heq⟩ hyt
  · exact ht hx hy heq

theorem image_override (s t : Set GraphNode) :
    GraphNode.id '' override s t = GraphNode.id '' s ∪ GraphNode.id '' t := by
  ext id
  constructor
  · rintro ⟨x, ⟨hx, -⟩ | hx, rfl⟩
    · exact .inl ⟨x, hx, rfl⟩
    · exact .inr ⟨x, hx, rfl⟩
  · rintro (⟨x, hx, rfl⟩ | ⟨x, hx, rfl⟩)
    · by_cases hboth : x.id ∈ GraphNode.id '' t
      · obtain ⟨y, hy, heq⟩ := hboth
        exact ⟨y, .inr hy, heq⟩
      · exact ⟨x, .inl ⟨hx, hboth⟩, rfl⟩
    · exact ⟨x, .inr hx, rfl⟩

def mergedNodes (a b : AbstractGraph) : MergePolicy → Set GraphNode
  | .keep => override b.nodes a.nodes
  | .overwrite => override a.nodes b.nodes

theorem mergedNodes_ids (a b : AbstractGraph) (policy : MergePolicy) :
    GraphNode.id '' a.mergedNodes b policy = a.nodeIds ∪ b.nodeIds := by
  cases policy with
  | keep => exact (image_override _ _).trans (Set.union_comm _ _)
  | overwrite => exact image_override _ _

noncomputable def renew (a b : AbstractGraph) (rel : GraphRelationship) : GraphRelationship :=
  { rel with id := newIds a.relationshipIds b.relationshipIds rel.id }

noncomputable def mergeReport (a b : AbstractGraph) (policy : MergePolicy) : MergeReport where
  nodesAdded := (b.nodeIds \ a.nodeIds).ncard
  nodesOverwritten := if policy = .overwrite then (b.nodeIds ∩ a.nodeIds).ncard else 0
  nodesKept := if policy = .keep then (b.nodeIds ∩ a.nodeIds).ncard else 0
  relationshipsAdded := (b.relationshipIds \ a.relationshipIds).ncard
  relationshipsRenamed := (b.relationshipIds ∩ a.relationshipIds).ncard

/-- All nodes, and all relationships, those of the other graph under ids that do not collide. -/
noncomputable def merge (a b : AbstractGraph) (policy : MergePolicy) : MergeReport × AbstractGraph :=
  (a.mergeReport b policy,
    { nodes := a.mergedNodes b policy
      relationships := a.relationships ∪ a.renew b '' b.relationships
      nodes_finite := by
        cases policy with
        | keep => exact (b.nodes_finite.subset (Set.sep_subset _ _)).union a.nodes_finite
        | overwrite => exact (a.nodes_finite.subset (Set.sep_subset _ _)).union b.nodes_finite
      relationships_finite := a.relationships_finite.union (b.relationships_finite.image _)
      node_unique := by
        cases policy with
        | keep => exact override_injOn b.node_unique a.node_unique
        | overwrite => exact override_injOn a.node_unique b.node_unique
      relationship_unique := by
        have hnew {rel : GraphRelationship} (hrel : rel ∈ b.relationships) : (a.renew b rel).id ∉ a.relationshipIds :=
          newIds_notMem a.relationshipIds_finite b.relationshipIds_finite ⟨rel, hrel, rfl⟩
        rintro x (hx | ⟨x, hx, rfl⟩) y (hy | ⟨y, hy, rfl⟩) heq
        · exact a.relationship_unique hx hy heq
        · exact absurd ⟨x, hx, heq⟩ (hnew hy)
        · exact absurd ⟨y, hy, heq.symm⟩ (hnew hx)
        · have hid := newIds_injOn a.relationshipIds_finite b.relationshipIds_finite ⟨x, hx, rfl⟩ ⟨y, hy, rfl⟩ heq
          rw [b.relationship_unique hx hy hid]
      endpoints := by
        rw [mergedNodes_ids]
        rintro _ (hrel | ⟨rel, hrel, rfl⟩)
        · exact ⟨.inl (a.endpoints _ hrel).1, .inl (a.endpoints _ hrel).2⟩
        · exact ⟨.inr (b.endpoints _ hrel).1, .inr (b.endpoints _ hrel).2⟩ })

/-! ## Queries -/

/-- A relationship leads from `u` to `v`, in the direction. -/
def Hop (a : AbstractGraph) (direction : GraphDirection) (u v : String) : Prop :=
  ∃ rel ∈ a.relationships,
    match direction with
    | .outgoing => rel.fromId = u ∧ rel.toId = v
    | .incoming => rel.toId = u ∧ rel.fromId = v
    | .any => (rel.fromId = u ∧ rel.toId = v) ∨ (rel.toId = u ∧ rel.fromId = v)

noncomputable def neighbors (a : AbstractGraph) (id : String) (direction : GraphDirection) : List String :=
  sorted {v | a.Hop direction id v}

def IsConnected (a : AbstractGraph) (fromId toId : String) : Prop :=
  fromId ∈ a.nodeIds ∧ toId ∈ a.nodeIds ∧ Relation.ReflTransGen (a.Hop .outgoing) fromId toId

/-- The nodes by their distance from the start, and at one distance by id. -/
noncomputable def traverse (a : AbstractGraph) (start : String) (maxDepth : Nat) (direction : GraphDirection) :
    List String :=
  open Classical in
  if start ∈ a.nodeIds then
    (List.range (maxDepth + 1)).flatMap fun k => sorted {v | AtDistance (a.Hop direction) {start} k v}
  else []

def hull (a : AbstractGraph) (roots : List String) (maxDepth : Nat) : Set String :=
  {v | Within (a.Hop .any) {root | root ∈ roots ∧ root ∈ a.nodeIds} maxDepth v}

/-- The induced graph on these nodes. -/
def subgraph (a : AbstractGraph) (roots : List String) (maxDepth : Nat) : AbstractGraph :=
  a.restrict (·.id ∈ a.hull roots maxDepth)
    (fun rel => rel.fromId ∈ a.hull roots maxDepth ∧ rel.toId ∈ a.hull roots maxDepth) fun rel _ hkeeps node _ hends => by
    rcases hends with hends | hends
    · exact hends ▸ hkeeps.1
    · exact hends ▸ hkeeps.2

/-! ## Calls -/

inductive Answer where
  | flag (answer : Bool)
  | result (answer : Except PluginError Unit)
  | report (answer : MergeReport)

end AbstractGraph
end Cuca.Memory
