import Cuca.Lib.Transition
import Cuca.Memory.GraphOperations

/-!
# Which runs keep the slots of a graph

* `Event`, `step` : the operations, and the graphs they lead to;
* `KeepsSlots` : what an operation removes stands last in the lists;
* `step_listed` : the lists and the ids of the positions are right in every graph;
* `step_mirrored` : the slots survive exactly such operations;
* `mirrored_iff` : and so a run.
-/

namespace Cuca.Memory
open Transition

namespace MemoryGraph

inductive Event where
  | upsertNode (node : GraphNode)
  | addRelationship (rel : GraphRelationship)
  | removeRelationship (id : String)
  | removeNode (id : String)
  | merge (other : MemoryGraph) (policy : MergePolicy)
  | subgraph (roots : List String) (maxDepth : Nat)
  | fromSnapshot (snapshot : GraphSnapshot)

def step (g : MemoryGraph) : Event → MemoryGraph
  | .upsertNode node => (g.upsertNode node).2
  | .addRelationship rel => (g.addRelationship rel).2
  | .removeRelationship id => (g.removeRelationship id).2
  | .removeNode id => (g.removeNode id).2
  | .merge other policy => (g.merge other policy).2
  | .subgraph roots maxDepth => g.subgraph roots maxDepth
  | .fromSnapshot snapshot =>
    match MemoryGraph.fromSnapshot snapshot with
    | .ok imported => imported
    | .error _ => g

/-- What the operation removes stands last, in every list. -/
def KeepsSlots (g : MemoryGraph) : Event → Prop
  | .addRelationship rel => rel.fromId ∈ g.nodes ∧ rel.toId ∈ g.nodes → g.RemovesLast [rel.id]
  | .removeRelationship id => g.RemovesLast [id]
  | .removeNode id => id ∈ g.nodes → g.RemovesLast (g.incident id)
  | _ => True

/-! ## One operation -/

theorem insertAll_withNodes {nodes : List GraphNode} {entries : List (String × GraphRelationship)}
    (hfresh : (withNodes nodes).Fresh entries) : ((withNodes nodes).insertAll entries).Mirrored := by
  obtain ⟨hrels, hout, hin, -⟩ := withNodes_eq nodes
  refine insertAll_mirrored hfresh ⟨?_, ?_⟩
  · rw [hout, show (withNodes nodes).fromOf = fun _ => none by funext e; simp [fromOf, hrels]]
    exact Index.empty_mirrors
  · rw [hin, show (withNodes nodes).toOf = fun _ => none by funext e; simp [toOf, hrels]]
    exact Index.empty_mirrors

theorem step_listed {g : MemoryGraph} (h : g.Listed) (e : Event) : (step g e).Listed := by
  cases e with
  | upsertNode node => exact ⟨h.outgoing, h.incoming⟩
  | addRelationship rel =>
    by_cases hends : rel.fromId ∈ g.nodes ∧ rel.toId ∈ g.nodes
    · rw [step, addRelationship_eq hends.1 hends.2]
      exact (h.removeAll [rel.id]).insertRelationship (g.removed_notMem rel.id) rel
    · obtain ⟨side, node, heq⟩ := addRelationship_refused hends
      rwa [step, heq]
  | removeRelationship id => exact h.removeAll [id]
  | removeNode id =>
    by_cases hid : id ∈ g.nodes
    · have hg : Listed { g with nodes := g.nodes.erase id } := ⟨h.outgoing, h.incoming⟩
      obtain ⟨hout, hin⟩ := removed_empty hg id
      rw [step, removeNode_eq hid]
      exact (forget_listed hout hin).1.mpr (hg.removeAll (g.incident id))
    · rwa [step, removeNode_missing hid]
  | merge other policy =>
    rw [step, merge_eq]
    exact Listed.insertAll (g.merge_fresh other _) ⟨h.outgoing, h.incoming⟩
  | subgraph roots maxDepth =>
    rw [step, subgraph_eq]
    exact Listed.insertAll (g.stored_fresh _ _) ⟨Index.empty_mirrors.toLists, Index.empty_mirrors.toLists⟩
  | fromSnapshot snapshot =>
    rw [step]
    split
    · rename_i imported himport
      obtain ⟨rfl, hfresh⟩ := fromSnapshot_eq himport
      exact (insertAll_withNodes hfresh).listed
    · exact h

/-- **The slots survive** exactly the operations that remove what stands last. -/
theorem step_mirrored {g : MemoryGraph} (h : g.Mirrored) (e : Event) : (step g e).Mirrored ↔ g.KeepsSlots e := by
  cases e with
  | upsertNode node => exact ⟨fun _ => trivial, fun _ => ⟨h.outgoing, h.incoming⟩⟩
  | addRelationship rel =>
    by_cases hends : rel.fromId ∈ g.nodes ∧ rel.toId ∈ g.nodes
    · rw [step, addRelationship_eq hends.1 hends.2, insertRelationship_mirrored (g.removed_notMem rel.id)
        (h.listed.removeAll [rel.id]), removeAll_mirrored h]
      exact ⟨fun hlast _ => hlast, fun hlast => hlast hends⟩
    · obtain ⟨side, node, heq⟩ := addRelationship_refused hends
      rw [step, heq]
      exact ⟨fun _ hboth => absurd hboth hends, fun _ => h⟩
  | removeRelationship id => exact removeAll_mirrored h [id]
  | removeNode id =>
    by_cases hid : id ∈ g.nodes
    · have hg : Mirrored { g with nodes := g.nodes.erase id } := ⟨h.outgoing, h.incoming⟩
      obtain ⟨hout, hin⟩ := removed_empty hg.listed id
      rw [step, removeNode_eq hid]
      refine (forget_listed hout hin).2.trans ((removeAll_mirrored hg (g.incident id)).trans ?_)
      exact ⟨fun hlast _ => hlast, fun hlast => hlast hid⟩
    · rw [step, removeNode_missing hid]
      exact ⟨fun _ hin => absurd hin hid, fun _ => h⟩
  | merge other policy =>
    refine ⟨fun _ => trivial, fun _ => ?_⟩
    rw [step, merge_eq]
    exact insertAll_mirrored (g.merge_fresh other _) ⟨h.outgoing, h.incoming⟩
  | subgraph roots maxDepth =>
    refine ⟨fun _ => trivial, fun _ => ?_⟩
    rw [step, subgraph_eq]
    exact insertAll_mirrored (g.stored_fresh _ _) ⟨Index.empty_mirrors, Index.empty_mirrors⟩
  | fromSnapshot snapshot =>
    refine ⟨fun _ => trivial, fun _ => ?_⟩
    rw [step]
    split
    · rename_i imported himport
      obtain ⟨rfl, hfresh⟩ := fromSnapshot_eq himport
      exact insertAll_withNodes hfresh
    · exact h

/-! ## Runs -/

/-- **Right slots.** The positions are the slots in every graph of a run exactly when all that is removed along it stands
last, in every list, as it is removed. -/
theorem mirrored_iff (events : List Event) :
    Throughout step Mirrored new events ↔ Along step KeepsSlots new events :=
  throughout_iff_along (I := Mirrored) (P := KeepsSlots) (fun _ e h => step_mirrored h e) new_mirrored events

/-- Two parallel relationships, of which the first is removed. -/
def removesFirst : List Event :=
  [.upsertNode ⟨"a", [], []⟩, .upsertNode ⟨"b", [], []⟩, .addRelationship ⟨"r1", "a", "b", "knows", .finite "1", []⟩,
    .addRelationship ⟨"r2", "a", "b", "knows", .finite "1", []⟩, .removeRelationship "r1"]

/-- The one that is left is at slot 0, and on record at slot 1. -/
theorem moved_slot_stale : ¬ (run step new removesFirst).Mirrored := by
  intro h
  have hslot := h.outgoing.slots "r2" "a" 1 (by decide) (by decide)
  revert hslot
  decide

end MemoryGraph
end Cuca.Memory
