import Cuca.Memory.GraphAbstract
import Cuca.Memory.GraphRuns

/-!
# The abstract graph of a graph memory

* `Valid` : the lists are right, records are under their ids, and the ends of relationships are nodes;
* `abstraction` : the abstract graph;
* `upsertNode_abs`, `addRelationship_abs`, `removeRelationship_abs`, `removeNode_abs` : these operations on it.
-/

namespace Cuca.Memory
open Assoc

namespace MemoryGraph

structure Valid (g : MemoryGraph) : Prop where
  listed : g.Listed
  nodes : Keyed GraphNode.id g.nodes
  relationships : Keyed GraphRelationship.id g.relationships
  endpoints : ∀ id rel, g.relationships.lookup id = some rel → rel.fromId ∈ g.nodes ∧ rel.toId ∈ g.nodes

theorem new_valid : new.Valid where
  listed := new_mirrored.listed
  nodes _ _ h := by simp [new] at h
  relationships _ _ h := by simp [new] at h
  endpoints _ _ h := by simp [new] at h

/-- The abstract graph that a graph stands for. -/
def abstraction {g : MemoryGraph} (h : g.Valid) : AbstractGraph where
  nodes := records GraphNode.id g.nodes
  relationships := records GraphRelationship.id g.relationships
  nodes_finite := records_finite
  relationships_finite := records_finite
  node_unique := records_injOn
  relationship_unique := records_injOn
  endpoints rel hrel := by
    obtain ⟨hfrom, hto⟩ := h.endpoints rel.id rel hrel
    exact ⟨(h.nodes.image_records _).mpr hfrom, (h.nodes.image_records _).mpr hto⟩

section
variable {g : MemoryGraph} (h : g.Valid)

theorem mem_nodeIds (id : String) : id ∈ (abstraction h).nodeIds ↔ id ∈ g.nodes := h.nodes.image_records id

theorem mem_relationshipIds (id : String) : id ∈ (abstraction h).relationshipIds ↔ id ∈ g.relationships :=
  h.relationships.image_records id

/-! ## Nodes -/

include h in
theorem upsertNode_valid (node : GraphNode) : (g.upsertNode node).2.Valid where
  listed := ⟨h.listed.outgoing, h.listed.incoming⟩
  nodes := h.nodes.insert node
  relationships := h.relationships
  endpoints id rel hrel := by
    obtain ⟨hfrom, hto⟩ := h.endpoints id rel hrel
    exact ⟨(AList.mem_insert _).mpr (.inr hfrom), (AList.mem_insert _).mpr (.inr hto)⟩

theorem upsertNode_abs (node : GraphNode) :
    (g.upsertNode node).1 = ((abstraction h).upsertNode node).1 ∧
      abstraction (upsertNode_valid h node) = ((abstraction h).upsertNode node).2 := by
  constructor
  · rw [Bool.eq_iff_iff, AbstractGraph.upsertNode_fst, mem_nodeIds, upsertNode, Option.isNone_iff_eq_none,
      AList.lookup_eq_none]
  · exact AbstractGraph.ext (records_insert node) rfl

/-! ## Relationships -/

include h in
theorem removeAll_valid (ids : List String) : (g.removeAll ids).Valid where
  listed := h.listed.removeAll ids
  nodes := (removeAll_eq g ids).1.symm ▸ h.nodes
  relationships := by
    refine (h.relationships.of_lookup (· ∉ ids) fun k => ?_).1
    rw [(removeAll_eq g ids).2.1]
    exact (ite_not _ _ _).symm
  endpoints id rel hrel := by
    rw [(removeAll_eq g ids).2.1] at hrel
    rw [(removeAll_eq g ids).1]
    split at hrel
    · cases hrel
    · exact h.endpoints id rel hrel

theorem removeAll_abs (ids : List String) :
    (abstraction (removeAll_valid h ids)).nodes = (abstraction h).nodes ∧
      (abstraction (removeAll_valid h ids)).relationships = {rel ∈ (abstraction h).relationships | rel.id ∉ ids} := by
  constructor
  · show records _ (g.removeAll ids).nodes = _
    rw [(removeAll_eq g ids).1]
    rfl
  · refine (h.relationships.of_lookup (· ∉ ids) fun k => ?_).2
    rw [(removeAll_eq g ids).2.1]
    exact (ite_not _ _ _).symm

theorem removeRelationship_abs (id : String) :
    (g.removeRelationship id).1 = ((abstraction h).removeRelationship id).1 ∧
      abstraction (removeAll_valid h [id]) = ((abstraction h).removeRelationship id).2 := by
  obtain ⟨hnodes, hrels⟩ := removeAll_abs h [id]
  refine ⟨?_, AbstractGraph.ext ?_ ?_⟩
  · rw [Bool.eq_iff_iff, AbstractGraph.removeRelationship_fst, mem_relationshipIds, ← AList.lookup_isSome,
      removeRelationship]
    rcases g.relationships.lookup id with _ | rel
    · simp
    · simp
  · rw [hnodes]
    ext node
    exact ⟨fun hnode => ⟨hnode, trivial⟩, And.left⟩
  · rw [hrels]
    ext rel
    simp [AbstractGraph.removeRelationship, AbstractGraph.restrict]

include h in
theorem insertRelationship_valid {rel : GraphRelationship} (hnew : rel.id ∉ g.relationships) (hfrom : rel.fromId ∈ g.nodes)
    (hto : rel.toId ∈ g.nodes) : (g.insertRelationship rel.id rel).Valid where
  listed := h.listed.insertRelationship hnew rel
  nodes := h.nodes
  relationships := h.relationships.insert rel
  endpoints id r hr := by
    have hmem : r ∈ records GraphRelationship.id (g.relationships.insert rel.id rel) :=
      (h.relationships.insert rel).mem_records hr
    rw [records_insert] at hmem
    rcases hmem with rfl | ⟨hold, -⟩
    · exact ⟨hfrom, hto⟩
    · exact h.endpoints r.id r hold

theorem addRelationship_abs (rel : GraphRelationship) :
    ∃ hnext : (g.addRelationship rel).2.Valid, (g.addRelationship rel).1 = ((abstraction h).addRelationship rel).1 ∧
      abstraction hnext = ((abstraction h).addRelationship rel).2 := by
  by_cases hfrom : rel.fromId ∈ g.nodes
  · by_cases hto : rel.toId ∈ g.nodes
    · have hleft := removeAll_valid h [rel.id]
      have hnodes : (g.removeAll [rel.id]).nodes = g.nodes := (removeAll_eq g [rel.id]).1
      have hnext := insertRelationship_valid hleft (g.removed_notMem rel.id) (hnodes ▸ hfrom) (hnodes ▸ hto)
      have habs : (abstraction h).addRelationship rel = (.ok (), (abstraction h).withRelationship rel
          ((mem_nodeIds h _).mpr hfrom) ((mem_nodeIds h _).mpr hto)) := by
        rw [AbstractGraph.addRelationship, dif_pos ((mem_nodeIds h _).mpr hfrom), dif_pos ((mem_nodeIds h _).mpr hto)]
      rw [addRelationship_eq hfrom hto, habs]
      refine ⟨hnext, rfl, AbstractGraph.ext (removeAll_abs h [rel.id]).1 ?_⟩
      have hrels := (removeAll_abs h [rel.id]).2
      show records _ ((g.removeAll [rel.id]).relationships.insert rel.id rel) = insert rel _
      rw [records_insert, show records _ (g.removeAll [rel.id]).relationships = _ from hrels]
      ext r
      simp
    · have habs : (abstraction h).addRelationship rel = (.error (unknownNode rel rel.toId "to"), abstraction h) := by
        rw [AbstractGraph.addRelationship, dif_pos ((mem_nodeIds h _).mpr hfrom),
          dif_neg (fun hmem => hto ((mem_nodeIds h _).mp hmem))]
      rw [addRelationship, if_neg (not_not.mpr hfrom), if_pos hto, habs]
      exact ⟨h, rfl, rfl⟩
  · have habs : (abstraction h).addRelationship rel = (.error (unknownNode rel rel.fromId "from"), abstraction h) := by
      rw [AbstractGraph.addRelationship, dif_neg (fun hmem => hfrom ((mem_nodeIds h _).mp hmem))]
    rw [addRelationship, if_pos hfrom, habs]
    exact ⟨h, rfl, rfl⟩

/-! ## Removing a node -/

include h in
theorem mem_incident {rel : GraphRelationship} {e : String} (hrel : g.relationships.lookup e = some rel) (id : String) :
    e ∈ g.incident id ↔ rel.fromId = id ∨ rel.toId = id := by
  rw [incident, List.mem_append, h.listed.outgoing.mem, h.listed.incoming.mem, fromOf, toOf, hrel]
  simp

theorem removedNode_lookup (g : MemoryGraph) (id : String) :
    (∀ k, (g.nodes.erase id).lookup k = if k ≠ id then g.nodes.lookup k else none) ∧
      ∀ k, (removeAll { g with nodes := g.nodes.erase id } (g.incident id)).relationships.lookup k =
        if k ∉ g.incident id then g.relationships.lookup k else none := by
  refine ⟨fun k => ?_, fun k => ?_⟩
  · by_cases hk : k = id
    · rw [hk, AList.lookup_erase, if_neg (not_not.mpr rfl)]
    · rw [AList.lookup_erase_ne hk, if_pos hk]
  · rw [(removeAll_eq _ _).2.1]
    exact (ite_not _ _ _).symm

theorem removeNode_abs (id : String) :
    ∃ hnext : (g.removeNode id).2.Valid, (g.removeNode id).1 = ((abstraction h).removeNode id).1 ∧
      abstraction hnext = ((abstraction h).removeNode id).2 := by
  have hlisted := step_listed h.listed (.removeNode id)
  have hends {rel : GraphRelationship} (hrel : rel ∈ (abstraction h).relationships) :
      rel.id ∉ g.incident id ↔ rel.fromId ≠ id ∧ rel.toId ≠ id := by
    rw [mem_incident h hrel, not_or]
  by_cases hid : id ∈ g.nodes
  · obtain ⟨hnodes, hrels⟩ := removedNode_lookup g id
    obtain ⟨hkeyed, hrecords⟩ := h.nodes.of_lookup (· ≠ id) hnodes
    obtain ⟨hkeyed', hrecords'⟩ := h.relationships.of_lookup (· ∉ g.incident id) hrels
    have hsame : (removeAll { g with nodes := g.nodes.erase id } (g.incident id)).nodes = g.nodes.erase id :=
      (removeAll_eq _ _).1
    have hanswer : ((abstraction h).removeNode id).1 = true :=
      (AbstractGraph.removeNode_fst _ _).mpr ((mem_nodeIds h id).mpr hid)
    rw [step] at hlisted
    rw [removeNode_eq hid] at hlisted ⊢
    refine ⟨⟨hlisted, by rw [← hsame] at hkeyed; exact hkeyed, hkeyed', fun e rel hrel => ?_⟩, hanswer.symm,
      AbstractGraph.ext ?_ ?_⟩
    · have hleft := (hrels e).symm.trans hrel
      split at hleft
      · rename_i hnot
        obtain ⟨hfrom, hto⟩ := h.endpoints e rel hleft
        obtain ⟨hfromne, htone⟩ := not_or.mp ((mem_incident h hleft id).not.mp hnot)
        show rel.fromId ∈ (removeAll _ (g.incident id)).nodes ∧ rel.toId ∈ (removeAll _ (g.incident id)).nodes
        rw [hsame]
        exact ⟨AList.mem_erase.mpr ⟨hfromne, hfrom⟩, AList.mem_erase.mpr ⟨htone, hto⟩⟩
      · cases hleft
    · show records GraphNode.id (removeAll _ (g.incident id)).nodes = _
      rw [hsame, hrecords]
      rfl
    · refine hrecords'.trans ?_
      ext rel
      exact and_congr_right fun hrel => hends hrel
  · have hanswer : ((abstraction h).removeNode id).1 = false := by
      rw [Bool.eq_false_iff, ne_eq, AbstractGraph.removeNode_fst, mem_nodeIds]
      exact hid
    rw [removeNode_missing hid]
    refine ⟨h, hanswer.symm, AbstractGraph.ext ?_ ?_⟩
    · ext node
      refine ⟨fun hnode => ⟨hnode, fun heq => hid ?_⟩, And.left⟩
      exact (mem_nodeIds h id).mp ⟨node, hnode, heq⟩
    · ext rel
      refine ⟨fun hrel => ⟨hrel, ?_, ?_⟩, And.left⟩
      · exact fun heq => hid (heq ▸ (h.endpoints rel.id rel hrel).1)
      · exact fun heq => hid (heq ▸ (h.endpoints rel.id rel hrel).2)

end
end MemoryGraph
end Cuca.Memory
