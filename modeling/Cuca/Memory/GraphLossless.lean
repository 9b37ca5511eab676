import Cuca.Memory.GraphRefines

/-!
# A merge loses nothing

* `Reachable` : the graphs that the operations lead to;
* `newId` : the id under which a relationship of the other graph goes; `newId_new` : where it is a new one;
* `merge_lossless` : what a merge keeps, adds and counts.
-/

namespace Cuca.Memory
open Assoc

namespace MemoryGraph

/-! ## Reachable graphs -/

/-- The graphs that the operations lead to, from an empty one or a snapshot. -/
inductive Reachable : MemoryGraph → Prop where
  | new : Reachable .new
  | fromSnapshot {snapshot : GraphSnapshot} {g : MemoryGraph} (h : MemoryGraph.fromSnapshot snapshot = .ok g) : Reachable g
  | upsertNode {g : MemoryGraph} (hg : Reachable g) (node : GraphNode) : Reachable (g.upsertNode node).2
  | addRelationship {g : MemoryGraph} (hg : Reachable g) (rel : GraphRelationship) : Reachable (g.addRelationship rel).2
  | removeRelationship {g : MemoryGraph} (hg : Reachable g) (id : String) : Reachable (g.removeRelationship id).2
  | removeNode {g : MemoryGraph} (hg : Reachable g) (id : String) : Reachable (g.removeNode id).2
  | merge {g other : MemoryGraph} (hg : Reachable g) (hother : Reachable other) (policy : MergePolicy) : Reachable (g.merge other policy).2
  | subgraph {g : MemoryGraph} (hg : Reachable g) (roots : List String) (maxDepth : Nat) : Reachable (g.subgraph roots maxDepth)

theorem addAll_valid {rels : List GraphRelationship} : ∀ {g g' : MemoryGraph}, g.Valid → g.addAll rels = .ok g' → g'.Valid := by
  induction rels with
  | nil =>
    intro g g' h heq
    exact Except.ok.inj heq ▸ h
  | cons rel rels ih =>
    intro g g' h heq
    obtain ⟨hnext, -⟩ := addRelationship_abs h rel
    unfold addAll at heq
    split at heq
    · rename_i next hadd
      have hsame : (g.addRelationship rel).2 = next := congrArg Prod.snd hadd
      rw [hsame] at hnext
      exact ih hnext heq
    · exact nomatch heq

theorem withNodes_valid (nodes : List GraphNode) : (withNodes nodes).Valid := by
  have hfold : ∀ {g : MemoryGraph}, g.Valid → (nodes.foldl (fun g node => (g.upsertNode node).2) g).Valid := by
    induction nodes with
    | nil => exact id
    | cons node nodes ih => exact fun h => ih (upsertNode_valid h node)
  exact hfold new_valid

theorem Reachable.valid {g : MemoryGraph} (h : Reachable g) : g.Valid := by
  induction h with
  | new => exact new_valid
  | @fromSnapshot snapshot g h =>
    unfold MemoryGraph.fromSnapshot at h
    cases hids : checkNodes snapshot.nodes [] with
    | error e =>
      rw [hids] at h
      exact nomatch h
    | ok ids =>
      rw [hids] at h
      cases hrels : checkRelationships ids snapshot.relationships [] with
      | error e => simp [hrels, bind, Except.bind] at h
      | ok checked =>
        have hadd : (withNodes snapshot.nodes).addAll snapshot.relationships = .ok g := by
          rw [← h]
          simp [hrels, bind, Except.bind, withNodes]
        exact addAll_valid (withNodes_valid snapshot.nodes) hadd
  | upsertNode hg node ih => exact upsertNode_valid ih node
  | addRelationship hg rel ih => exact (addRelationship_abs ih rel).1
  | removeRelationship hg id ih => exact removeAll_valid ih [id]
  | removeNode hg id ih => exact (removeNode_abs ih id).1
  | merge hg hother policy ih ihother => exact (merge_abs ih ihother policy).1
  | subgraph hg roots maxDepth ih => exact (subgraph_abs ih roots maxDepth).1

/-! ## New ids -/

def newId (g other : MemoryGraph) (id : String) : String := finalId (g.renames other) id

theorem assignIds_candidate {taken : Set String} (hfinite : taken.Finite) {ids : List String} {id : String} (hid : id ∈ ids) :
    ∃ n, 2 ≤ n ∧ assignIds taken ids id = candidate id n := by
  induction ids generalizing taken with
  | nil => exact (List.not_mem_nil hid).elim
  | cons orig rest ih =>
    rw [assignIds]
    split
    · rename_i heq
      subst heq
      exact ⟨_, (freshId_spec hfinite id).1.1, rfl⟩
    · rename_i hne
      exact ih (hfinite.insert _) ((List.mem_cons.mp hid).resolve_left hne)

section
variable {g other : MemoryGraph}

theorem newId_free {id : String} (hid : id ∈ other.relationships) (hfree : id ∉ g.relationships) : g.newId other id = id := by
  unfold newId finalId
  rw [AList.lookup_eq_none.mpr (fun hmem => hfree ((mem_renames hid).mp hmem)), Option.getD_none]

theorem merge_counts (g other : MemoryGraph) (policy : MergePolicy) :
    (g.merge other policy).1.nodesAdded + (g.merge other policy).1.nodesOverwritten + (g.merge other policy).1.nodesKept =
        other.nodes.keys.length ∧
      (g.merge other policy).1.relationshipsAdded + (g.merge other policy).1.relationshipsRenamed = other.relationships.keys.length := by
  have hmerge : (g.merge other policy).1 = (other.relationships.entries.foldl (mergeRelationship (g.renames other))
    ({ g with nodes := g.mergedNodes other policy }, (other.nodes.entries.foldl (mergeNode policy)
      (g.nodes, ⟨0, 0, 0, 0, 0⟩)).2)).2 := rfl
  have hsplit : ∀ (ids : List String) (p : String → Prop) [DecidablePred p], ids.countP (fun id => ¬p id) + ids.countP (fun id => p id) = ids.length := by
    intro ids p _
    rw [List.length_eq_countP_add_countP (fun id => decide (p id)), Nat.add_comm]
    simp
  have hnodes := hsplit other.nodes.entries.keys (· ∈ g.nodes)
  have hrels := hsplit other.relationships.entries.keys (· ∈ g.renames other)
  rw [hmerge, foldl_mergeRelationship_report, foldl_mergeNode_report policy other.nodes.keys_nodup]
  constructor
  · change _ = other.nodes.entries.keys.length
    cases policy with
    | keep => simpa using hnodes
    | overwrite => simpa using hnodes
  · change _ = other.relationships.entries.keys.length
    simpa using hrels

variable (h : g.Valid) (hother : other.Valid)

theorem newId_eq {id : String} (hid : id ∈ other.relationships) :
    g.newId other id = newIds (abstraction h).relationshipIds (abstraction hother).relationshipIds id := finalId_eq_newIds h hother hid

include h hother

theorem newId_new {id : String} (hid : id ∈ other.relationships) (hin : id ∈ g.relationships) :
    (∃ n, 2 ≤ n ∧ g.newId other id = candidate id n) ∧ g.newId other id ∉ g.relationships ∧ g.newId other id ∉ other.relationships := by
  set own := (abstraction h).relationshipIds with hown
  set others := (abstraction hother).relationshipIds with hothers
  have hfinite : (own ∪ others).Finite := (abstraction h).relationshipIds_finite.union (abstraction hother).relationshipIds_finite
  have hsorted : id ∈ Sorted.sorted (own ∩ others) :=
    (Sorted.mem_sorted ((abstraction h).relationshipIds_finite.inter_of_left others) id).mpr
      ⟨(mem_relationshipIds h id).mpr hin, (mem_relationshipIds hother id).mpr hid⟩
  have hnot : g.newId other id ∉ own ∪ others := by
    rw [newId_eq h hother hid]
    exact assignIds_notMem hfinite hsorted
  rw [Set.mem_union, not_or] at hnot
  refine ⟨?_, fun hmem => hnot.1 ((mem_relationshipIds h _).mpr hmem), fun hmem => hnot.2 ((mem_relationshipIds hother _).mpr hmem)⟩
  rw [newId_eq h hother hid]
  exact assignIds_candidate hfinite hsorted

theorem merge_lookup (policy : MergePolicy) (k : String) (rel : GraphRelationship) :
    (g.merge other policy).2.relationships.lookup k = some rel ↔
      g.relationships.lookup k = some rel ∨
        ∃ id r, other.relationships.lookup id = some r ∧ k = g.newId other id ∧ rel = { r with id := k } := by
  rw [merge_relationship h hother]
  apply or_congr_right
  constructor
  · rintro ⟨rfl, r, hr, rfl⟩
    have hmem : r.id ∈ other.relationships := AList.lookup_isSome.mp (Option.isSome_of_eq_some hr)
    exact ⟨r.id, r, hr, (newId_eq h hother hmem).symm, rfl⟩
  · rintro ⟨id, r, hr, rfl, rfl⟩
    obtain rfl : r.id = id := hother.relationships id r hr
    have hmem : r.id ∈ other.relationships := AList.lookup_isSome.mp (Option.isSome_of_eq_some hr)
    refine ⟨rfl, r, hr, ?_⟩
    rw [AbstractGraph.renew, newId_eq h hother hmem]

end

/-- **A merge loses nothing.** Whatever two graphs and the policy: the relationships of the first are as they were; each of the second is
there under its own id, or under a new one `id-n` that no relationship of either graph has; no two of them are under one id; there are no
others; the new ids depend on the two abstract graphs alone; the nodes are those of both, the policy deciding; and the counts add up. -/
theorem merge_lossless {g other : MemoryGraph} (hg : Reachable g) (hother : Reachable other) (policy : MergePolicy) :
    let merged := (g.merge other policy).2
    let report := (g.merge other policy).1
    (∀ id rel, g.relationships.lookup id = some rel → merged.relationships.lookup id = some rel) ∧
      (∀ id rel, other.relationships.lookup id = some rel →
        merged.relationships.lookup (g.newId other id) = some { rel with id := g.newId other id } ∧
          (id ∉ g.relationships → g.newId other id = id) ∧
          (id ∈ g.relationships → (∃ n, 2 ≤ n ∧ g.newId other id = candidate id n) ∧ g.newId other id ∉ g.relationships ∧
            g.newId other id ∉ other.relationships)) ∧
      (∀ a ∈ other.relationships, ∀ b ∈ other.relationships, g.newId other a = g.newId other b → a = b) ∧
      (∀ k rel, merged.relationships.lookup k = some rel → g.relationships.lookup k = some rel ∨
        ∃ id r, other.relationships.lookup id = some r ∧ k = g.newId other id ∧ rel = { r with id := k }) ∧
      (∀ id ∈ other.relationships, g.newId other id =
        newIds (abstraction hg.valid).relationshipIds (abstraction hother.valid).relationshipIds id) ∧
      (∀ k, merged.nodes.lookup k =
        match policy with
        | .keep => (g.nodes.lookup k).or (other.nodes.lookup k)
        | .overwrite => (other.nodes.lookup k).or (g.nodes.lookup k)) ∧
      report.nodesAdded + report.nodesOverwritten + report.nodesKept = other.nodes.keys.length ∧
      report.relationshipsAdded + report.relationshipsRenamed = other.relationships.keys.length := by
  intro merged report
  have hlookup := merge_lookup hg.valid hother.valid policy
  refine ⟨fun id rel hrel => (hlookup id rel).mpr (.inl hrel), fun id rel hrel => ?_, (renames_fresh g other).2, fun k rel hrel => (hlookup k rel).mp hrel,
    fun id hid => newId_eq hg.valid hother.valid hid, merge_nodes g other policy, ?_, ?_⟩
  · have hmem : id ∈ other.relationships := AList.lookup_isSome.mp (Option.isSome_of_eq_some hrel)
    exact ⟨(hlookup _ _).mpr (.inr ⟨id, rel, hrel, rfl, rfl⟩), newId_free hmem, newId_new hg.valid hother.valid hmem⟩
  · exact (merge_counts g other policy).1
  · exact (merge_counts g other policy).2

def looped : GraphRelationship := ⟨"r", "a", "a", "knows", .finite "1", []⟩

def loopGraph : MemoryGraph := ((MemoryGraph.new.upsertNode ⟨"a", [], []⟩).2.addRelationship looped).2

theorem loopGraph_reachable : Reachable loopGraph := (Reachable.new.upsertNode ⟨"a", [], []⟩).addRelationship looped

/-- Merged with itself, it keeps its relationship and has it again under a new id. -/
theorem loop_merges_twice : let merged := (loopGraph.merge loopGraph .keep).2
    merged.relationships.lookup "r" = some looped ∧
      merged.relationships.lookup (loopGraph.newId loopGraph "r") = some { looped with id := loopGraph.newId loopGraph "r" } ∧
      ∃ n, 2 ≤ n ∧ loopGraph.newId loopGraph "r" = candidate "r" n := by
  obtain ⟨hkept, hadded, -⟩ := merge_lossless loopGraph_reachable loopGraph_reachable .keep
  have hstored : loopGraph.relationships.lookup "r" = some looped := rfl
  obtain ⟨hnew, -, hcandidate⟩ := hadded "r" looped hstored
  exact ⟨hkept "r" looped hstored, hnew, (hcandidate (AList.lookup_isSome.mp (Option.isSome_of_eq_some hstored))).1⟩

end MemoryGraph
end Cuca.Memory
