import Cuca.Memory.GraphMerge
import Cuca.Memory.GraphMirror

/-!
# The operations of a graph as removals and insertions

* `addRelationship_eq`, `removeNode_eq` : removals, and for the first an insertion;
* `merge_eq`, `subgraph_eq`, `fromSnapshot_eq` : insertions under new ids that differ.
-/

namespace Cuca.Memory.MemoryGraph

/-! ## Adding and removing -/

variable {g : MemoryGraph}

theorem addRelationship_eq {rel : GraphRelationship} (hfrom : rel.fromId ∈ g.nodes)
    (hto : rel.toId ∈ g.nodes) :
    g.addRelationship rel = (.ok (), (g.removeAll [rel.id]).insertRelationship rel.id rel) := by
  rw [addRelationship, if_neg (not_not.mpr hfrom), if_neg (not_not.mpr hto)]
  rfl

theorem addRelationship_refused {rel : GraphRelationship}
    (h : ¬ (rel.fromId ∈ g.nodes ∧ rel.toId ∈ g.nodes)) :
    ∃ side node, g.addRelationship rel = (.error (unknownNode rel node side), g) := by
  rw [addRelationship]
  by_cases hfrom : rel.fromId ∈ g.nodes
  · have hto : rel.toId ∉ g.nodes := fun hto => h ⟨hfrom, hto⟩
    exact ⟨_, _, by rw [if_neg (not_not.mpr hfrom), if_pos hto]⟩
  · exact ⟨_, _, if_pos hfrom⟩

def incident (g : MemoryGraph) (id : String) : List String := g.outgoing.listAt id ++ g.incoming.listAt id

theorem removed_notMem (g : MemoryGraph) (id : String) : id ∉ (g.removeAll [id]).relationships := by
  rw [← AList.lookup_eq_none, (removeAll_eq g [id]).2.1, if_pos List.mem_cons_self]

/-- Drops the lists of a node. -/
def forget (g : MemoryGraph) (id : String) : MemoryGraph :=
  { g with
    outgoing := ⟨g.outgoing.lists.erase id, g.outgoing.positions⟩
    incoming := ⟨g.incoming.lists.erase id, g.incoming.positions⟩ }

theorem removeNode_eq {id : String} (h : id ∈ g.nodes) :
    g.removeNode id = (true, (removeAll { g with nodes := g.nodes.erase id } (g.incident id)).forget id) := by
  obtain ⟨node, hnode⟩ := Option.isSome_iff_exists.mp (AList.lookup_isSome.mpr h)
  simp only [removeNode, hnode]
  rfl

theorem removeNode_missing {id : String} (h : id ∉ g.nodes) : g.removeNode id = (false, g) := by
  rw [removeNode, AList.lookup_eq_none.mpr h]

theorem listAt_forget (x : Index) {id : String} (hempty : x.listAt id = []) :
    Index.listAt ⟨x.lists.erase id, x.positions⟩ = x.listAt := by
  funext n
  by_cases hn : n = id
  · rw [hn, hempty, Index.listAt, AList.lookup_erase, Option.getD_none]
  · rw [Index.listAt, AList.lookup_erase_ne hn, Index.listAt]

theorem removed_empty (h : g.Listed) (id : String) :
    (g.removeAll (g.incident id)).outgoing.listAt id = [] ∧ (g.removeAll (g.incident id)).incoming.listAt id = [] := by
  have hleft := h.removeAll (g.incident id)
  constructor
  · refine List.eq_nil_iff_forall_not_mem.mpr fun e he => ?_
    have hin : e ∉ g.incident id := fun hmem => by
      have hends := (hleft.outgoing.mem id e).mp he
      rw [fromOf_removeAll, Index.without, if_pos hmem] at hends
      cases hends
    rw [hleft.outgoing.mem, fromOf_removeAll, Index.without, if_neg hin] at he
    exact hin (List.mem_append_left _ ((h.outgoing.mem id e).mpr he))
  · refine List.eq_nil_iff_forall_not_mem.mpr fun e he => ?_
    have hin : e ∉ g.incident id := fun hmem => by
      have hends := (hleft.incoming.mem id e).mp he
      rw [toOf_removeAll, Index.without, if_pos hmem] at hends
      cases hends
    rw [hleft.incoming.mem, toOf_removeAll, Index.without, if_neg hin] at he
    exact hin (List.mem_append_right _ ((h.incoming.mem id e).mpr he))

theorem forget_listed {id : String} (hout : g.outgoing.listAt id = [])
    (hin : g.incoming.listAt id = []) : ((g.forget id).Listed ↔ g.Listed) ∧ ((g.forget id).Mirrored ↔ g.Mirrored) := by
  have hlists : (g.forget id).outgoing.listAt = g.outgoing.listAt := listAt_forget g.outgoing hout
  have hlists' : (g.forget id).incoming.listAt = g.incoming.listAt := listAt_forget g.incoming hin
  have hlisted : (g.forget id).Listed ↔ g.Listed := by
    constructor
    · intro h
      exact ⟨h.outgoing.congr hlists.symm rfl, h.incoming.congr hlists'.symm rfl⟩
    · intro h
      exact ⟨h.outgoing.congr hlists rfl, h.incoming.congr hlists' rfl⟩
  refine ⟨hlisted, ?_⟩
  constructor
  · intro h
    exact ⟨h.outgoing.congr hlists.symm rfl, h.incoming.congr hlists'.symm rfl⟩
  · intro h
    exact ⟨h.outgoing.congr hlists rfl, h.incoming.congr hlists' rfl⟩

/-! ## Merging -/

/-- The renamed relationships of the other graph. -/
def renamed (rename : AList (fun _ : String => String)) (entry : Sigma fun _ : String => GraphRelationship) :
    String × GraphRelationship :=
  match rename.lookup entry.1 with
  | some id => (id, { entry.2 with id })
  | none => (entry.1, entry.2)

theorem renamed_fst (rename : AList (fun _ : String => String)) (entry : Sigma fun _ : String => GraphRelationship) :
    (renamed rename entry).1 = finalId rename entry.1 := by
  rw [renamed, finalId]
  split
  · rename_i hnew
    rw [hnew, Option.getD_some]
  · rename_i hnone
    rw [hnone, Option.getD_none]

theorem foldl_mergeRelationship (rename : AList (fun _ : String => String))
    (entries : List (Sigma fun _ : String => GraphRelationship)) (s : MemoryGraph × MergeReport) :
    (entries.foldl (mergeRelationship rename) s).1 = s.1.insertAll (entries.map (renamed rename)) := by
  induction entries generalizing s with
  | nil => rfl
  | cons entry entries ih =>
    have hone : (mergeRelationship rename s entry).1 =
        s.1.insertRelationship (renamed rename entry).1 (renamed rename entry).2 := by
      rcases hnew : rename.lookup entry.1 with _ | new
      · simp only [mergeRelationship, renamed, hnew]
      · simp only [mergeRelationship, renamed, hnew]
    rw [List.foldl_cons, ih, hone]
    rfl

/-- The new ids of a merge. -/
def renames (g other : MemoryGraph) : AList (fun _ : String => String) :=
  (resolve (g.relationships.keys ++ other.relationships.keys)
    ((other.relationships.keys.filter (· ∈ g.relationships)).insertionSort (· ≤ ·))).2

def mergedNodes (g other : MemoryGraph) (policy : MergePolicy) : AList (fun _ : String => GraphNode) :=
  (other.nodes.entries.foldl (mergeNode policy) (g.nodes, ⟨0, 0, 0, 0, 0⟩)).1

theorem merge_eq (g other : MemoryGraph) (policy : MergePolicy) :
    (g.merge other policy).2 = insertAll { g with nodes := g.mergedNodes other policy }
      (other.relationships.entries.map (renamed (g.renames other))) := foldl_mergeRelationship ..

theorem renames_fresh (g other : MemoryGraph) :
    (∀ id ∈ other.relationships, finalId (g.renames other) id ∉ g.relationships) ∧
      ∀ a ∈ other.relationships, ∀ b ∈ other.relationships,
        finalId (g.renames other) a = finalId (g.renames other) b → a = b :=
  finalId_fresh fun id => by
    rw [List.mem_insertionSort, List.mem_filter]
    simp [AList.mem_keys]

theorem merge_fresh (g other : MemoryGraph) (nodes : AList (fun _ : String => GraphNode)) :
    Fresh { g with nodes } (other.relationships.entries.map (renamed (g.renames other))) := by
  obtain ⟨hnew, hinj⟩ := renames_fresh g other
  refine ⟨?_, fun entry hentry => ?_⟩
  · rw [List.map_map]
    have hids : (fun entry => (renamed (g.renames other) entry).1) = fun entry => finalId (g.renames other) entry.1 :=
      funext (renamed_fst _)
    show (other.relationships.entries.map fun entry => (renamed (g.renames other) entry).1).Nodup
    rw [hids, show (fun entry : Sigma fun _ : String => GraphRelationship => finalId (g.renames other) entry.1) =
      finalId (g.renames other) ∘ Sigma.fst from rfl, ← List.map_map]
    exact (List.nodup_map_iff_inj_on other.relationships.keys_nodup).mpr hinj
  · obtain ⟨e, he, rfl⟩ := List.mem_map.mp hentry
    rw [renamed_fst]
    exact hnew e.1 (List.mem_keys_of_mem he)

/-! ## Subgraphs -/

def stored (g : MemoryGraph) (rids : List String) : List (String × GraphRelationship) :=
  rids.filterMap fun rid => (g.relationships.lookup rid).map fun rel => (rid, rel)

theorem mem_stored {rids : List String} {entry : String × GraphRelationship} :
    entry ∈ g.stored rids ↔ entry.1 ∈ rids ∧ g.relationships.lookup entry.1 = some entry.2 := by
  obtain ⟨rid, rel⟩ := entry
  simp [stored]

theorem stored_sublist (g : MemoryGraph) (rids : List String) : ((g.stored rids).map (·.1)).Sublist rids := by
  induction rids with
  | nil => exact List.Sublist.refl _
  | cons rid rids ih =>
    rw [stored, List.filterMap_cons]
    rcases g.relationships.lookup rid with _ | rel
    · exact ih.cons rid
    · exact ih.cons_cons rid

/-- The relationships with both ends in `ids`, in the order in which they are copied. -/
def insideIds (g : MemoryGraph) (ids : List String) : List String :=
  ((g.relationships.entries.filter fun entry => entry.2.fromId ∈ ids ∧ entry.2.toId ∈ ids).map
    (·.1)).insertionSort (· ≤ ·)

theorem foldl_copyRelationship (g out : MemoryGraph) (rids : List String) :
    rids.foldl g.copyRelationship out = out.insertAll (g.stored rids) := by
  induction rids generalizing out with
  | nil => rfl
  | cons rid rids ih =>
    rw [List.foldl_cons, ih, stored, stored, List.filterMap_cons]
    rcases hrel : g.relationships.lookup rid with _ | rel
    · simp only [copyRelationship, hrel, Option.map_none]
    · simp only [copyRelationship, hrel, Option.map_some]
      rfl

theorem subgraph_eq (g : MemoryGraph) (roots : List String) (maxDepth : Nat) :
    g.subgraph roots maxDepth =
      insertAll { new with nodes := ((g.hull roots maxDepth).insertionSort (· ≤ ·)).foldl g.copyNode ∅ }
        (g.stored (g.insideIds (g.hull roots maxDepth))) := foldl_copyRelationship ..

theorem stored_fresh (g : MemoryGraph) (ids : List String) (nodes : AList (fun _ : String => GraphNode)) :
    Fresh { new with nodes } (g.stored (g.insideIds ids)) := by
  refine ⟨?_, fun _ _ => AList.notMem_empty _⟩
  have hinside : (g.insideIds ids).Nodup := by
    refine (List.perm_insertionSort (· ≤ ·) _).nodup_iff.mpr ?_
    exact g.relationships.keys_nodup.sublist (List.filter_sublist.map Sigma.fst)
  exact hinside.sublist (g.stored_sublist _)

/-! ## Snapshots -/

theorem checkNodes_ok {nodes : List GraphNode} {seen ids : List String} (h : checkNodes nodes seen = .ok ids) (id : String) :
    id ∈ ids ↔ id ∈ seen ∨ ∃ node ∈ nodes, node.id = id := by
  induction nodes generalizing seen with
  | nil =>
    obtain rfl : seen = ids := by simpa [checkNodes] using h
    simp
  | cons node nodes ih =>
    rw [checkNodes] at h
    split at h
    · cases h
    · rw [ih h, List.mem_cons, List.exists_mem_cons_iff, or_assoc]
      tauto

theorem checkRelationships_ok {nodeIds seen : List String} {rels : List GraphRelationship}
    (h : checkRelationships nodeIds rels seen = .ok ()) :
    (rels.map (·.id)).Nodup ∧ ∀ rel ∈ rels, rel.id ∉ seen ∧ rel.fromId ∈ nodeIds ∧ rel.toId ∈ nodeIds := by
  induction rels generalizing seen with
  | nil => exact ⟨List.nodup_nil, fun _ h => (List.not_mem_nil h).elim⟩
  | cons rel rels ih =>
    rw [checkRelationships] at h
    split_ifs at h with hseen hweight hfrom hto
    obtain ⟨hnodup, hrest⟩ := ih h
    refine ⟨List.nodup_cons.mpr ⟨fun hmem => ?_, hnodup⟩, fun r hr => ?_⟩
    · obtain ⟨r, hr, heq⟩ := List.mem_map.mp hmem
      exact (hrest r hr).1 (heq ▸ List.mem_cons_self)
    · rcases List.mem_cons.mp hr with rfl | hr
      · exact ⟨hseen, hfrom, hto⟩
      · obtain ⟨hnew, hends⟩ := hrest r hr
        exact ⟨fun hmem => hnew (List.mem_cons_of_mem _ hmem), hends⟩

theorem addAll_eq {rels : List GraphRelationship} (hnodup : (rels.map (·.id)).Nodup)
    (hnew : ∀ rel ∈ rels, rel.id ∉ g.relationships ∧ rel.fromId ∈ g.nodes ∧ rel.toId ∈ g.nodes) :
    addAll g rels = .ok (g.insertAll (rels.map fun rel => (rel.id, rel))) := by
  induction rels generalizing g with
  | nil => rfl
  | cons rel rels ih =>
    obtain ⟨hhead, htail⟩ := List.nodup_cons.mp hnodup
    obtain ⟨hfresh, hfrom, hto⟩ := hnew rel List.mem_cons_self
    have hsame : g.removeAll [rel.id] = g := by
      show (g.removeRelationship rel.id).2 = g
      rw [removeRelationship, AList.lookup_eq_none.mpr hfresh]
    rw [addAll, addRelationship_eq hfrom hto, hsame]
    refine ih htail fun r hr => ?_
    obtain ⟨hr_new, hr_ends⟩ := hnew r (List.mem_cons_of_mem _ hr)
    refine ⟨?_, hr_ends⟩
    show r.id ∉ g.relationships.insert rel.id rel
    rw [AList.mem_insert, not_or]
    exact ⟨fun heq => hhead (List.mem_map.mpr ⟨r, hr, heq⟩), hr_new⟩

def withNodes (nodes : List GraphNode) : MemoryGraph := nodes.foldl (fun g node => (g.upsertNode node).2) new

theorem withNodes_eq (nodes : List GraphNode) :
    (withNodes nodes).relationships = ∅ ∧ (withNodes nodes).outgoing = .empty ∧ (withNodes nodes).incoming = .empty ∧
      ∀ id, id ∈ (withNodes nodes).nodes ↔ ∃ node ∈ nodes, node.id = id := by
  have hfold (g : MemoryGraph) : (nodes.foldl (fun g node => (g.upsertNode node).2) g).relationships = g.relationships ∧
      (nodes.foldl (fun g node => (g.upsertNode node).2) g).outgoing = g.outgoing ∧
      (nodes.foldl (fun g node => (g.upsertNode node).2) g).incoming = g.incoming ∧
      ∀ id, id ∈ (nodes.foldl (fun g node => (g.upsertNode node).2) g).nodes ↔
        id ∈ g.nodes ∨ ∃ node ∈ nodes, node.id = id := by
    induction nodes generalizing g with
    | nil => exact ⟨rfl, rfl, rfl, fun id => by simp⟩
    | cons node nodes ih =>
      obtain ⟨hrels, hout, hin, hmem⟩ := ih (g.upsertNode node).2
      refine ⟨hrels, hout, hin, fun id => ?_⟩
      rw [List.foldl_cons, hmem, List.exists_mem_cons_iff]
      show id ∈ g.nodes.insert node.id node ∨ _ ↔ _
      rw [AList.mem_insert]
      tauto
  obtain ⟨hrels, hout, hin, hmem⟩ := hfold new
  exact ⟨hrels, hout, hin, fun id => by rw [withNodes, hmem]; simp [new]⟩

/-- **A snapshot that passes its checks** is built by insertions alone. -/
theorem fromSnapshot_eq {snapshot : GraphSnapshot} (h : fromSnapshot snapshot = .ok g) :
    g = (withNodes snapshot.nodes).insertAll (snapshot.relationships.map fun rel => (rel.id, rel)) ∧
      (withNodes snapshot.nodes).Fresh (snapshot.relationships.map fun rel => (rel.id, rel)) := by
  rcases hids : checkNodes snapshot.nodes [] with e | ids
  · simp [fromSnapshot, hids, bind, Except.bind] at h
  rcases hrels : checkRelationships ids snapshot.relationships [] with e | ⟨⟩
  · simp [fromSnapshot, hids, hrels, bind, Except.bind] at h
  obtain ⟨hnodup, hends⟩ := checkRelationships_ok hrels
  obtain ⟨hnone, -, -, hnodes⟩ := withNodes_eq snapshot.nodes
  have hadd : addAll (withNodes snapshot.nodes) snapshot.relationships = .ok
      ((withNodes snapshot.nodes).insertAll (snapshot.relationships.map fun rel => (rel.id, rel))) := by
    refine addAll_eq hnodup fun rel hrel => ?_
    obtain ⟨-, hfrom, hto⟩ := hends rel hrel
    rw [hnone, hnodes, hnodes]
    refine ⟨AList.notMem_empty _, ?_, ?_⟩
    · simpa [checkNodes_ok hids] using hfrom
    · simpa [checkNodes_ok hids] using hto
  constructor
  · have hok : Except.ok g = addAll (withNodes snapshot.nodes) snapshot.relationships := by
      rw [← h]
      simp [fromSnapshot, hids, hrels, bind, Except.bind, withNodes]
    rw [hadd] at hok
    exact Except.ok.inj hok
  · refine ⟨?_, fun entry _ => ?_⟩
    · rw [List.map_map]
      exact hnodup
    · rw [hnone]
      exact AList.notMem_empty _

end Cuca.Memory.MemoryGraph
