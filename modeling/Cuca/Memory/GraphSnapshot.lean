import Cuca.Memory.GraphLossless

/-!
# Snapshots of a graph memory

* `snapshot` : the nodes and the relationships, each by id;
* `fromSnapshot_snapshot` : its import has the same contents, unless a weight is not finite;
* `snapshot_restores` : so it does for every graph, whose snapshot tells its contents, and nothing else.
-/

namespace Cuca.Memory
open Assoc

/-! ## Records by id -/

/-- The records, in the order of their ids, no two of which are the same. -/
def byId {α : Type} (id : α → String) (m : AList fun _ : String => α) : List α :=
  (m.entries.map (·.2)).insertionSort (id · ≤ id ·)

section
variable {α : Type} {id : α → String} {m m' : AList fun _ : String => α}

theorem mem_byId (h : Keyed id m) (k : String) (x : α) : x ∈ byId id m ∧ id x = k ↔ m.lookup k = some x := by
  rw [byId, List.mem_insertionSort, List.mem_map]
  constructor
  · rintro ⟨⟨⟨k', y⟩, hy, rfl⟩, rfl⟩
    have hlookup := AList.mem_lookup_iff.mpr hy
    rwa [h k' y hlookup]
  · exact fun hx => ⟨⟨⟨k, x⟩, AList.mem_lookup_iff.mp hx, rfl⟩, h k x hx⟩

theorem byId_ids (h : Keyed id m) : ((byId id m).map id).Nodup := by
  have hkeys : m.entries.map (fun entry => id entry.2) = m.keys :=
    List.map_congr_left fun entry hentry => h entry.1 entry.2 (AList.mem_lookup_iff.mpr hentry)
  rw [byId, ((List.perm_insertionSort _ _).map id).nodup_iff, List.map_map]
  exact hkeys ▸ m.keys_nodup

/-- **The order is canonical.** -/
theorem byId_eq_iff (h : Keyed id m) (h' : Keyed id m') : byId id m = byId id m' ↔ ∀ k, m.lookup k = m'.lookup k := by
  constructor
  · intro heq k
    ext x
    rw [← mem_byId h, ← mem_byId h', heq]
  · intro hsame
    have hmem (x : α) : x ∈ byId id m ↔ x ∈ byId id m' := by
      exact (and_iff_left rfl).symm.trans ((mem_byId h (id x) x).trans (hsame _ ▸ (mem_byId h' (id x) x).symm.trans (and_iff_left rfl)))
    have hperm := (List.perm_ext_iff_of_nodup (byId_ids h).of_map (byId_ids h').of_map).mpr hmem
    have : Std.Total fun a b : α => id a ≤ id b := ⟨fun a b => le_total _ _⟩
    have : IsTrans α fun a b => id a ≤ id b := ⟨fun a b c => le_trans⟩
    refine hperm.eq_of_pairwise (fun x y hx hy hxy hyx => ?_) (List.pairwise_insertionSort _ _) (List.pairwise_insertionSort _ _)
    exact List.inj_on_of_nodup_map (byId_ids h) hx ((hmem y).mpr hy) (le_antisymm hxy hyx)

end

namespace MemoryGraph

def snapshot (g : MemoryGraph) : GraphSnapshot := ⟨byId GraphNode.id g.nodes, byId GraphRelationship.id g.relationships⟩

/-! ## The checks -/

theorem checkNodes_distinct {nodes : List GraphNode} (hids : (nodes.map GraphNode.id).Nodup) (seen : List String)
    (hseen : ∀ node ∈ nodes, node.id ∉ seen) : ∃ ids, checkNodes nodes seen = .ok ids := by
  induction nodes generalizing seen with
  | nil => exact ⟨seen, rfl⟩
  | cons node nodes ih =>
    obtain ⟨hnew, hids⟩ := List.nodup_cons.mp hids
    rw [checkNodes, if_neg (hseen node List.mem_cons_self)]
    refine ih hids _ fun other hother hmem => ?_
    rcases List.mem_cons.mp hmem with heq | hmem
    · exact hnew (List.mem_map.mpr ⟨other, hother, heq⟩)
    · exact hseen other (List.mem_cons_of_mem _ hother) hmem

def nonFinite (rel : GraphRelationship) : PluginError :=
  .internal ("graph snapshot relationship '" ++ rel.id ++ "' has non-finite weight " ++ rel.weight.display)

theorem checkRelationships_distinct {ids : List String} {rels : List GraphRelationship} (hids : (rels.map GraphRelationship.id).Nodup)
    (hends : ∀ rel ∈ rels, rel.fromId ∈ ids ∧ rel.toId ∈ ids) (seen : List String) (hseen : ∀ rel ∈ rels, rel.id ∉ seen) :
    checkRelationships ids rels seen = match rels.find? (!·.weight.isFinite) with
      | some rel => .error (nonFinite rel)
      | none => .ok () := by
  induction rels generalizing seen with
  | nil => rfl
  | cons rel rels ih =>
    obtain ⟨hnew, hids⟩ := List.nodup_cons.mp hids
    obtain ⟨hfrom, hto⟩ := hends rel List.mem_cons_self
    rw [checkRelationships, if_neg (hseen rel List.mem_cons_self), List.find?_cons]
    cases hfinite : rel.weight.isFinite with
    | false => rfl
    | true =>
      rw [if_neg (by simp), if_neg (not_not.mpr hfrom), if_neg (not_not.mpr hto)]
      refine ih hids (fun other hother => hends other (List.mem_cons_of_mem _ hother)) _ fun other hother hmem => ?_
      rcases List.mem_cons.mp hmem with heq | hmem
      · exact hnew (List.mem_map.mpr ⟨other, hother, heq⟩)
      · exact hseen other (List.mem_cons_of_mem _ hother) hmem

/-- **Import** where ids differ and ends are nodes: the first weight that is not finite is what can fail. -/
theorem fromSnapshot_distinct {nodes : List GraphNode} {rels : List GraphRelationship} (hnodes : (nodes.map GraphNode.id).Nodup)
    (hrels : (rels.map GraphRelationship.id).Nodup)
    (hends : ∀ rel ∈ rels, (∃ node ∈ nodes, node.id = rel.fromId) ∧ ∃ node ∈ nodes, node.id = rel.toId) :
    fromSnapshot ⟨nodes, rels⟩ = match rels.find? (!·.weight.isFinite) with
      | some rel => .error (nonFinite rel)
      | none => .ok ((withNodes nodes).insertAll (rels.map fun rel => (rel.id, rel))) := by
  obtain ⟨ids, hids⟩ := checkNodes_distinct hnodes [] fun _ _ => List.not_mem_nil
  have hseen (id : String) (hid : ∃ node ∈ nodes, node.id = id) : id ∈ ids := (checkNodes_ok hids id).mpr (.inr hid)
  have hcheck := checkRelationships_distinct hrels
    (fun rel hrel => ⟨hseen _ (hends rel hrel).1, hseen _ (hends rel hrel).2⟩) [] fun _ _ => List.not_mem_nil
  obtain ⟨hnone, -, -, hmem⟩ := withNodes_eq nodes
  have hadd := addAll_eq (g := withNodes nodes) hrels fun rel hrel => by
    rw [hnone, hmem, hmem]
    exact ⟨AList.notMem_empty _, hends rel hrel⟩
  simp only [fromSnapshot, hids, hcheck, bind, Except.bind]
  cases rels.find? (!·.weight.isFinite) with
  | none => exact hadd
  | some rel => rfl

theorem withNodes_lookup {nodes : List GraphNode} (hids : (nodes.map GraphNode.id).Nodup) (k : String) (x : GraphNode) :
    (withNodes nodes).nodes.lookup k = some x ↔ x ∈ nodes ∧ x.id = k := by
  induction nodes using List.reverseRecOn with
  | nil => simp [withNodes, new]
  | append_singleton nodes node ih =>
    rw [List.map_append, List.map_singleton, List.nodup_append] at hids
    have hrest (y : GraphNode) (hy : y ∈ nodes) : y.id ≠ node.id := hids.2.2 _ (List.mem_map_of_mem hy) _ (List.mem_singleton.mpr rfl)
    have hlast : (withNodes (nodes ++ [node])).nodes = (withNodes nodes).nodes.insert node.id node := by
      rw [withNodes, List.foldl_append]
      rfl
    rw [hlast, List.mem_append, List.mem_singleton]
    by_cases hk : k = node.id
    · rw [hk, AList.lookup_insert, Option.some.injEq]
      constructor
      · rintro rfl
        exact ⟨.inr rfl, rfl⟩
      · rintro ⟨hx | rfl, heq⟩
        · exact absurd heq (hrest x hx)
        · rfl
    · rw [AList.lookup_insert_ne hk, ih hids.1, or_and_right]
      exact (or_iff_left fun hx : x = node ∧ x.id = k => hk (hx.2.symm.trans (congrArg _ hx.1))).symm

/-- **The import of an export** has the same contents. -/
theorem fromSnapshot_snapshot {g : MemoryGraph} (h : g.Valid) :
    match g.snapshot.relationships.find? (!·.weight.isFinite) with
    | some rel => fromSnapshot g.snapshot = .error (nonFinite rel)
    | none => ∃ g', fromSnapshot g.snapshot = .ok g' ∧ g'.Mirrored ∧ (∀ k, g'.nodes.lookup k = g.nodes.lookup k) ∧
        ∀ k, g'.relationships.lookup k = g.relationships.lookup k := by
  have hnodes := byId_ids h.nodes
  have hnode (id : String) (hid : id ∈ g.nodes) : ∃ node ∈ byId GraphNode.id g.nodes, node.id = id := by
    obtain ⟨node, hnode⟩ := Option.isSome_iff_exists.mp (AList.lookup_isSome.mpr hid)
    exact ⟨node, (mem_byId h.nodes id node).mpr hnode⟩
  have himport : fromSnapshot g.snapshot = match g.snapshot.relationships.find? (!·.weight.isFinite) with
      | some rel => .error (nonFinite rel)
      | none => .ok ((withNodes g.snapshot.nodes).insertAll (g.snapshot.relationships.map fun rel => (rel.id, rel))) :=
    fromSnapshot_distinct hnodes (byId_ids h.relationships) fun rel hrel =>
      (h.endpoints rel.id rel ((mem_byId h.relationships rel.id rel).mp ⟨hrel, rfl⟩)).imp (hnode _) (hnode _)
  split
  · rename_i rel hfirst
    rw [himport, hfirst]
  · rename_i hfinite
    rw [hfinite] at himport
    obtain ⟨-, hfresh⟩ := fromSnapshot_eq himport
    refine ⟨_, himport, insertAll_withNodes hfresh, fun k => Option.ext fun x => ?_, fun k => Option.ext fun x => ?_⟩
    · rw [insertAll_nodes]
      exact (withNodes_lookup hnodes k x).trans (mem_byId h.nodes k x)
    · rw [insertAll_lookup hfresh, (withNodes_eq _).1, ← mem_byId h.relationships]
      simp [snapshot, eq_comm, and_comm]

theorem snapshot_eq_iff {g g' : MemoryGraph} (h : g.Valid) (h' : g'.Valid) :
    g.snapshot = g'.snapshot ↔ (∀ k, g.nodes.lookup k = g'.nodes.lookup k) ∧ ∀ k, g.relationships.lookup k = g'.relationships.lookup k := by
  rw [snapshot, snapshot, GraphSnapshot.mk.injEq, byId_eq_iff h.nodes h'.nodes, byId_eq_iff h.relationships h'.relationships]

/-- **Snapshots** are the same exactly where the contents are. Where every weight is finite, the import of one has the contents of the
exported graph and right slots, and is exported as the same snapshot; else it is refused, over the first weight that is not. -/
theorem snapshot_restores {g : MemoryGraph} (hg : Reachable g) :
    (∀ g', Reachable g' → (g.snapshot = g'.snapshot ↔
      (∀ k, g.nodes.lookup k = g'.nodes.lookup k) ∧ ∀ k, g.relationships.lookup k = g'.relationships.lookup k)) ∧
    match g.snapshot.relationships.find? (!·.weight.isFinite) with
    | some rel => fromSnapshot g.snapshot = .error (nonFinite rel)
    | none => ∃ g', fromSnapshot g.snapshot = .ok g' ∧ g'.Mirrored ∧ g'.snapshot = g.snapshot ∧
        (∀ k, g'.nodes.lookup k = g.nodes.lookup k) ∧ ∀ k, g'.relationships.lookup k = g.relationships.lookup k := by
  refine ⟨fun g' hg' => snapshot_eq_iff hg.valid hg'.valid, ?_⟩
  have himport := fromSnapshot_snapshot hg.valid
  split at himport
  · exact himport
  · obtain ⟨g', hok, hmirrored, hsame⟩ := himport
    exact ⟨g', hok, hmirrored, (snapshot_eq_iff (Reachable.fromSnapshot hok).valid hg.valid).mpr hsame, hsame⟩

theorem snapshot_restores_loop : ∃ g', fromSnapshot loopGraph.snapshot = .ok g' ∧ g'.relationships.lookup "r" = some looped := by
  obtain ⟨g', hok, -, -, -, hrels⟩ := (snapshot_restores loopGraph_reachable).2
  exact ⟨g', hok, hrels "r"⟩

end MemoryGraph

end Cuca.Memory
