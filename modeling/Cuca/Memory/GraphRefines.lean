import Cuca.Lib.Simulation
import Cuca.Memory.GraphMerged

/-!
# A graph memory is an abstract graph

* `mem_adjacent` : the lists give the hops;
* `neighbors_eq`, `isConnected_eq`, `traverse_eq`, `subgraph_abs` : the queries are those of the abstract graph;
* `Call`, `step` : the operations with their answers, on either kind of graph;
* `graph_refines` : every run gives the answers of the abstract graph, and ends where it ends.
-/

namespace Cuca.Memory
open Assoc Layers Sorted

namespace MemoryGraph

section
variable {g : MemoryGraph} (h : g.Valid)

/-! ## Hops -/

theorem mem_along {x : Index} {ends : GraphRelationship → String} (far : GraphRelationship → String)
    (hx : x.Lists fun id => (g.relationships.lookup id).map ends) (u v : String) :
    v ∈ g.along x far u ↔ ∃ rel ∈ (abstraction h).relationships, ends rel = u ∧ far rel = v := by
  rw [along, List.mem_filterMap]
  constructor
  · rintro ⟨rid, hrid, hfar⟩
    obtain ⟨rel, hrel, rfl⟩ := Option.map_eq_some_iff.mp hfar
    have hends := (hx.mem u rid).mp hrid
    rw [hrel, Option.map_some, Option.some.injEq] at hends
    exact ⟨rel, h.relationships.mem_records hrel, hends, rfl⟩
  · rintro ⟨rel, hrel, rfl, rfl⟩
    have hlookup : g.relationships.lookup rel.id = some rel := hrel
    refine ⟨rel.id, (hx.mem _ _).mpr ?_, ?_⟩
    · rw [hlookup, Option.map_some]
    · rw [hlookup, Option.map_some]

theorem mem_adjacent (direction : GraphDirection) (u v : String) :
    v ∈ g.adjacent direction u ↔ (abstraction h).Hop direction u v := by
  have hout := mem_along h (·.toId) h.listed.outgoing u v
  have hin := mem_along h (·.fromId) h.listed.incoming u v
  cases direction with
  | outgoing => exact hout
  | incoming => exact hin
  | any =>
    rw [adjacent, List.mem_append, hout, hin, AbstractGraph.Hop, ← exists_or]
    exact exists_congr fun rel => (and_or_left).symm

/-! ## Queries -/

theorem neighbors_eq (id : String) (direction : GraphDirection) :
    g.neighbors id direction = (abstraction h).neighbors id direction :=
  dedup_eq_sorted fun v => mem_adjacent h direction id v

theorem isConnected_eq (u v : String) :
    ∃ found, g.isConnected u v = some found ∧ (found ↔ (abstraction h).IsConnected u v) := by
  rw [isConnected]
  by_cases heq : u = v
  · subst heq
    refine ⟨u ∈ g.nodes, if_pos rfl, ?_⟩
    rw [decide_eq_true_iff, AbstractGraph.IsConnected, mem_nodeIds]
    exact ⟨fun hu => ⟨hu, hu, .refl⟩, And.left⟩
  rw [if_neg heq]
  by_cases hmissing : u ∉ g.nodes ∨ v ∉ g.nodes
  · refine ⟨false, if_pos hmissing, fun hno => absurd hno Bool.false_ne_true, ?_⟩
    rintro ⟨hu, hv, -⟩
    rw [mem_nodeIds] at hu hv
    exact absurd hmissing (not_or.mpr ⟨not_not.mpr hu, not_not.mpr hv⟩)
  rw [if_neg hmissing]
  obtain ⟨hu, hv⟩ := not_or.mp hmissing
  have hfirst : Frontier ((abstraction h).Hop .outgoing) {u} 0 [u] [u] :=
    .first (fun b => List.mem_singleton) (fun b => List.mem_singleton) (List.nodup_singleton u)
  have harea : ∀ a, g.adjacent .outgoing a ⊆ g.relationships.entries.map (·.2.toId) := by
    intro a b hb
    obtain ⟨rid, -, hfar⟩ := List.mem_filterMap.mp hb
    obtain ⟨rel, hrel, rfl⟩ := Option.map_eq_some_iff.mp hfar
    exact List.mem_map.mpr ⟨⟨rid, rel⟩, AList.mem_lookup_iff.mp hrel, rfl⟩
  have hfuel : ((g.relationships.entries.map (·.2.toId)).filter (· ∉ [u])).length + 2 ≤
      g.relationships.entries.length + 2 := by
    have hless := List.length_filter_le (· ∉ [u]) (g.relationships.entries.map (·.2.toId))
    rw [List.length_map] at hless
    omega
  obtain ⟨found, hfound, hiff⟩ := search_eq (mem_adjacent h .outgoing) harea hfirst
    (fun hmem => heq (List.mem_singleton.mp hmem).symm) hfuel
  refine ⟨found, hfound, hiff.trans ?_⟩
  rw [AbstractGraph.IsConnected, mem_nodeIds, mem_nodeIds, ← exists_walk]
  constructor
  · rintro ⟨m, k, -, a, rfl, hwalk⟩
    exact ⟨not_not.mp hu, not_not.mp hv, k, hwalk⟩
  · rintro ⟨-, -, k, hwalk⟩
    exact ⟨k, k, Nat.le_refl k, u, rfl, hwalk⟩

theorem traverse_eq (start : String) (maxDepth : Nat) (direction : GraphDirection) :
    g.traverse start maxDepth direction = (abstraction h).traverse start maxDepth direction := by
  rw [traverse, AbstractGraph.traverse]
  by_cases hstart : start ∈ g.nodes
  · have hfirst : Frontier ((abstraction h).Hop direction) {start} 0 [start] [start] :=
      .first (fun b => List.mem_singleton) (fun b => List.mem_singleton) (List.nodup_singleton start)
    have hroot : [start] = sorted {v | AtDistance ((abstraction h).Hop direction) {start} 0 v} :=
      eq_sorted (List.pairwise_singleton _ _) fun v => hfirst.last v
    rw [if_neg (not_not.mpr hstart), if_pos ((mem_nodeIds h start).mpr hstart), layers_eq (mem_adjacent h direction) hfirst,
      List.range_succ_eq_map, List.flatMap_cons, ← hroot, List.flatMap_map, ← List.flatMap_def]
    refine congrArg (start :: ·) (List.flatMap_congr fun k _ => ?_)
    rw [show 0 + 1 + k = k + 1 by omega]
  · rw [if_pos hstart, if_neg (fun hmem => hstart ((mem_nodeIds h start).mp hmem))]

theorem mem_hull (roots : List String) (maxDepth : Nat) (v : String) :
    v ∈ g.hull roots maxDepth ↔ v ∈ (abstraction h).hull roots maxDepth := by
  have hroots (b : String) : b ∈ roots.filter (· ∈ g.nodes) ↔
      b ∈ {root | root ∈ roots ∧ root ∈ (abstraction h).nodeIds} := by
    rw [List.mem_filter, Set.mem_ofPred_eq, mem_nodeIds, decide_eq_true_iff]
  have hfirst : Frontier ((abstraction h).Hop .any) {root | root ∈ roots ∧ root ∈ (abstraction h).nodeIds} 0
      ((roots.filter (· ∈ g.nodes)).foldl visit ([], [])).1 ((roots.filter (· ∈ g.nodes)).foldl visit ([], [])).2 := by
    refine .first (fun b => ?_) (fun b => ?_) (foldl_visit_nodup List.nodup_nil fun b hb => absurd hb List.not_mem_nil)
    · rw [foldl_visit_fst, hroots]
      simp
    · rw [foldl_visit_snd, hroots]
      simp
  have hclosure := mem_closure (mem_adjacent h .any) hfirst maxDepth v
  rw [Nat.zero_add] at hclosure
  exact hclosure

theorem copyNode_lookup (ids : List String) (m : AList (fun _ : String => GraphNode)) (k : String) :
    (ids.foldl g.copyNode m).lookup k = if k ∈ ids ∧ k ∈ g.nodes then g.nodes.lookup k else m.lookup k := by
  induction ids generalizing m with
  | nil => simp
  | cons id ids ih =>
    rw [List.foldl_cons, ih, copyNode]
    by_cases hk : k = id
    · subst hk
      rcases hnode : g.nodes.lookup k with _ | node
      · have hnot : k ∉ g.nodes := AList.lookup_eq_none.mp hnode
        simp [hnot]
      · have hin : k ∈ g.nodes := AList.lookup_isSome.mp (by rw [hnode]; rfl)
        simp [hin]
    · rcases hnode : g.nodes.lookup id with _ | node
      · simp [hk]
      · simp [hk, AList.lookup_insert_ne hk]

theorem mem_insideIds {ids : List String} {rel : GraphRelationship} {rid : String}
    (hrel : g.relationships.lookup rid = some rel) : rid ∈ g.insideIds ids ↔ rel.fromId ∈ ids ∧ rel.toId ∈ ids := by
  rw [insideIds, List.mem_insertionSort, List.mem_map]
  constructor
  · rintro ⟨⟨id, r⟩, hentry, rfl⟩
    obtain ⟨hstored, hinside⟩ := List.mem_filter.mp hentry
    have hr : g.relationships.lookup id = some r := AList.mem_lookup_iff.mpr hstored
    obtain rfl : r = rel := Option.some.inj (hr.symm.trans hrel)
    simpa using hinside
  · intro hinside
    exact ⟨⟨rid, rel⟩, List.mem_filter.mpr ⟨AList.mem_lookup_iff.mp hrel, by simpa using hinside⟩, rfl⟩

theorem subgraph_abs (roots : List String) (maxDepth : Nat) :
    ∃ hnext : (g.subgraph roots maxDepth).Valid,
      abstraction hnext = (abstraction h).subgraph roots maxDepth := by
  set ids := g.hull roots maxDepth with hids
  have hnodes (k : String) : (g.subgraph roots maxDepth).nodes.lookup k = if k ∈ ids then g.nodes.lookup k else none := by
    rw [subgraph_eq, insertAll_nodes]
    refine (copyNode_lookup _ _ k).trans ?_
    simp only [List.mem_insertionSort, AList.lookup_empty]
    by_cases hk : k ∈ g.nodes
    · simp [hk, hids]
    · simp [hk, AList.lookup_eq_none.mpr hk]
  have hrels (k : String) (rel : GraphRelationship) : (g.subgraph roots maxDepth).relationships.lookup k = some rel ↔
      g.relationships.lookup k = some rel ∧ rel.fromId ∈ ids ∧ rel.toId ∈ ids := by
    rw [subgraph_eq, insertAll_lookup (g.stored_fresh _ _), mem_stored]
    refine (or_iff_right ?_).trans ?_
    · simp [new]
    · rw [and_comm]
      exact and_congr_right fun hrel => mem_insideIds hrel
  obtain ⟨hkeyed, hrecords⟩ := h.nodes.of_lookup (· ∈ ids) hnodes
  have hmem (id : String) : id ∈ (g.subgraph roots maxDepth).nodes ↔ id ∈ ids ∧ id ∈ g.nodes := by
    rw [← AList.lookup_isSome, hnodes, ← AList.lookup_isSome]
    by_cases hid : id ∈ ids
    · simp [hid]
    · simp [hid]
  have hnext : (g.subgraph roots maxDepth).Valid := by
    refine ⟨step_listed h.listed (.subgraph roots maxDepth), hkeyed, fun k rel hrel => ?_, fun k rel hrel => ?_⟩
    · exact h.relationships k rel ((hrels k rel).mp hrel).1
    · obtain ⟨hstored, hfrom, hto⟩ := (hrels k rel).mp hrel
      obtain ⟨hfrom', hto'⟩ := h.endpoints k rel hstored
      rw [hmem, hmem]
      exact ⟨⟨hfrom, hfrom'⟩, hto, hto'⟩
  refine ⟨hnext, AbstractGraph.ext (hrecords.trans ?_) ?_⟩
  · ext node
    exact and_congr_right fun _ => mem_hull h roots maxDepth node.id
  · ext rel
    refine (hrels rel.id rel).trans (and_congr_right fun _ => ?_)
    exact and_congr (mem_hull h roots maxDepth _) (mem_hull h roots maxDepth _)

end
end MemoryGraph

/-! ## Runs -/

abbrev ValidGraph := { g : MemoryGraph // g.Valid }

/-- The operations; any other graph can be merged. -/
inductive Call where
  | upsertNode (node : GraphNode)
  | addRelationship (rel : GraphRelationship)
  | removeRelationship (id : String)
  | removeNode (id : String)
  | merge (other : ValidGraph) (policy : MergePolicy)

def MemoryGraph.answer (g : MemoryGraph) : Call → AbstractGraph.Answer × MemoryGraph
  | .upsertNode node => (.flag (g.upsertNode node).1, (g.upsertNode node).2)
  | .addRelationship rel => (.result (g.addRelationship rel).1, (g.addRelationship rel).2)
  | .removeRelationship id => (.flag (g.removeRelationship id).1, (g.removeRelationship id).2)
  | .removeNode id => (.flag (g.removeNode id).1, (g.removeNode id).2)
  | .merge other policy => (.report (g.merge other.1 policy).1, (g.merge other.1 policy).2)

noncomputable def AbstractGraph.answer (a : AbstractGraph) : Call → AbstractGraph.Answer × AbstractGraph
  | .upsertNode node => (.flag (a.upsertNode node).1, (a.upsertNode node).2)
  | .addRelationship rel => (.result (a.addRelationship rel).1, (a.addRelationship rel).2)
  | .removeRelationship id => (.flag (a.removeRelationship id).1, (a.removeRelationship id).2)
  | .removeNode id => (.flag (a.removeNode id).1, (a.removeNode id).2)
  | .merge other policy =>
    (.report (a.merge (MemoryGraph.abstraction other.2) policy).1,
      (a.merge (MemoryGraph.abstraction other.2) policy).2)

def Represents (g : MemoryGraph) (a : AbstractGraph) : Prop := ∃ h : g.Valid, MemoryGraph.abstraction h = a

theorem new_represents : Represents .new .empty := by
  refine ⟨MemoryGraph.new_valid, AbstractGraph.ext ?_ ?_⟩
  · ext node
    simp [MemoryGraph.abstraction, records, MemoryGraph.new, AbstractGraph.empty]
  · ext rel
    simp [MemoryGraph.abstraction, records, MemoryGraph.new, AbstractGraph.empty]

/-- **One operation** gives the abstract answer, and leads to the abstract result. -/
theorem answer_simulates (g : MemoryGraph) (a : AbstractGraph) (call : Call) (hrepresents : Represents g a) :
    (g.answer call).1 = (a.answer call).1 ∧ Represents (g.answer call).2 (a.answer call).2 := by
  obtain ⟨h, rfl⟩ := hrepresents
  cases call with
  | upsertNode node =>
    obtain ⟨hanswer, habs⟩ := MemoryGraph.upsertNode_abs h node
    exact ⟨congrArg _ hanswer, _, habs⟩
  | addRelationship rel =>
    obtain ⟨hnext, hanswer, habs⟩ := MemoryGraph.addRelationship_abs h rel
    exact ⟨congrArg _ hanswer, hnext, habs⟩
  | removeRelationship id =>
    obtain ⟨hanswer, habs⟩ := MemoryGraph.removeRelationship_abs h id
    exact ⟨congrArg _ hanswer, _, habs⟩
  | removeNode id =>
    obtain ⟨hnext, hanswer, habs⟩ := MemoryGraph.removeNode_abs h id
    exact ⟨congrArg _ hanswer, hnext, habs⟩
  | merge other policy =>
    obtain ⟨hnext, hanswer, habs⟩ := MemoryGraph.merge_abs h other.2 policy
    exact ⟨congrArg _ hanswer, hnext, habs⟩

/-- **A graph memory is an abstract graph.** A run gives the answers that the abstract graph gives, and after it the
queries are those of the abstract graph at the end: the neighbours as a sorted set, whether a directed path exists, the
nodes by distance and id, and the induced subgraph on the nodes near the roots. -/
theorem graph_refines (calls : List Call) :
    let g := Simulation.run MemoryGraph.answer .new calls
    let a := Simulation.run AbstractGraph.answer .empty calls
    g.1 = a.1 ∧ Represents g.2 a.2 ∧
      (∀ id direction, g.2.neighbors id direction = a.2.neighbors id direction) ∧
      (∀ u v, ∃ found, g.2.isConnected u v = some found ∧ (found ↔ a.2.IsConnected u v)) ∧
      (∀ start maxDepth direction, g.2.traverse start maxDepth direction = a.2.traverse start maxDepth direction) ∧
      ∀ roots maxDepth, Represents (g.2.subgraph roots maxDepth) (a.2.subgraph roots maxDepth) := by
  intro g a
  obtain ⟨hanswers, hend⟩ := Simulation.run_simulates (R := Represents) answer_simulates new_represents calls
  refine ⟨hanswers, hend, ?_⟩
  obtain ⟨h, habs⟩ : Represents g.2 a.2 := hend
  rw [← habs]
  exact ⟨MemoryGraph.neighbors_eq h, MemoryGraph.isConnected_eq h, MemoryGraph.traverse_eq h,
    MemoryGraph.subgraph_abs h⟩

end Cuca.Memory
