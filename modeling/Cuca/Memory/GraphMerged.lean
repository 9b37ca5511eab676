import Cuca.Memory.GraphValid

/-!
# The abstract graph of a merge

* `foldl_mergeNode_lookup` : the merged nodes, with the counts of the report;
* `insertAll_lookup` : the merged relationships;
* `merge_abs` : the merge of two graphs is the merge of their abstract graphs.
-/

namespace Cuca.Memory
open Assoc Sorted

namespace MemoryGraph

/-! ## New ids -/

theorem probe_eq_freshId (orig : String) (taken assigned : List String) :
    probe orig (fun id => id ∈ taken ∨ id ∈ assigned) (taken.length + assigned.length) 2 =
      freshId {id | id ∈ taken ∨ id ∈ assigned} orig := by
  have hfinite : {id | id ∈ taken ∨ id ∈ assigned}.Finite := taken.finite_toSet.union assigned.finite_toSet
  obtain ⟨k, -, hprobe, hbefore, -⟩ := probe_spec orig (fun id => id ∈ taken ∨ id ∈ assigned)
    (taken.length + assigned.length) 2
  obtain ⟨htaken, hassigned⟩ := free_spec orig taken assigned
  rw [hprobe] at htaken hassigned
  have hleast : IsLeast {n | 2 ≤ n ∧ candidate orig n ∉ {id | id ∈ taken ∨ id ∈ assigned}} (2 + k) := by
    refine ⟨⟨Nat.le_add_right 2 k, fun hmem => hmem.elim htaken hassigned⟩, fun n hn => ?_⟩
    by_contra hless
    have hle : 2 ≤ n := hn.1
    have hused := hbefore (n - 2) (by omega)
    rw [show 2 + (n - 2) = n by omega] at hused
    exact hn.2 (by simpa using hused)
  rw [hprobe, freshId, ← hleast.unique (freshId_spec hfinite orig)]

theorem foldl_assign_lookup (taken : List String) {collisions : List String} (hnodup : collisions.Nodup)
    (s : List String × AList (fun _ : String => String)) (id : String) :
    (collisions.foldl (assign taken) s).2.lookup id =
      if id ∈ collisions then some (assignIds {id | id ∈ taken ∨ id ∈ s.1} collisions id) else s.2.lookup id := by
  induction collisions generalizing s with
  | nil => simp
  | cons orig rest ih =>
    obtain ⟨hhead, htail⟩ := List.nodup_cons.mp hnodup
    have hfree := probe_eq_freshId orig taken s.1
    have hset : {id | id ∈ taken ∨ id ∈ (assign taken s orig).1} =
        insert (freshId {id | id ∈ taken ∨ id ∈ s.1} orig) {id | id ∈ taken ∨ id ∈ s.1} := by
      ext e
      simp only [assign, hfree, List.mem_cons, Set.mem_ofPred_eq, Set.mem_insert_iff]
      tauto
    rw [List.foldl_cons, ih htail, hset, assignIds]
    by_cases hid : id = orig
    · subst hid
      rw [if_neg hhead, if_pos List.mem_cons_self, if_pos rfl]
      show (s.2.insert id _).lookup id = _
      rw [AList.lookup_insert, hfree]
    · rw [if_neg hid]
      by_cases hrest : id ∈ rest
      · rw [if_pos hrest, if_pos (List.mem_cons_of_mem _ hrest)]
      · rw [if_neg hrest, if_neg (fun hmem => hrest ((List.mem_cons.mp hmem).resolve_left hid))]
        exact AList.lookup_insert_ne hid

/-- **The new ids of a merge** are those of the abstract merge. -/
theorem finalId_eq_newIds {g other : MemoryGraph} (h : g.Valid) (hother : other.Valid) {id : String}
    (hid : id ∈ other.relationships) :
    finalId (g.renames other) id = newIds (abstraction h).relationshipIds (abstraction hother).relationshipIds id := by
  set own := (abstraction h).relationshipIds with hown
  set others := (abstraction hother).relationshipIds with hothers
  have hmem (e : String) : e ∈ (other.relationships.keys.filter (· ∈ g.relationships)) ↔ e ∈ own ∩ others := by
    rw [List.mem_filter, Set.mem_inter_iff, hown, hothers, mem_relationshipIds, mem_relationshipIds, ← AList.mem_keys]
    simp [and_comm]
  have hnodup : (other.relationships.keys.filter (· ∈ g.relationships)).Nodup := other.relationships.keys_nodup.filter _
  have hsorted := insertionSort_eq_sorted hnodup hmem
  have htaken : {e | e ∈ g.relationships.keys ++ other.relationships.keys ∨ e ∈ ([] : List String)} = own ∪ others := by
    ext e
    rw [Set.mem_union, hown, hothers, mem_relationshipIds, mem_relationshipIds, Set.mem_ofPred_eq, List.mem_append]
    simp [AList.mem_keys]
  have hlookup := foldl_assign_lookup (g.relationships.keys ++ other.relationships.keys)
    (pairwise_sorted (own ∩ others)).nodup ([], ∅) id
  rw [finalId, renames, resolve_eq, hsorted, hlookup, htaken, newIds]
  by_cases hcollides : id ∈ sorted (own ∩ others)
  · rw [if_pos hcollides, Option.getD_some]
  · rw [if_neg hcollides, assignIds_of_notMem hcollides, AList.lookup_empty, Option.getD_none]

theorem mem_renames {g other : MemoryGraph} {id : String} (hid : id ∈ other.relationships) :
    id ∈ g.renames other ↔ id ∈ g.relationships := by
  have hmem := (resolve_renaming (g.relationships.keys ++ other.relationships.keys)
    ((other.relationships.keys.filter (· ∈ g.relationships)).insertionSort (· ≤ ·))).2 id
  rw [renames, hmem, List.mem_insertionSort, List.mem_filter, ← AList.mem_keys]
  simp [hid]

/-! ## Nodes -/

theorem mergeNode_lookup (policy : MergePolicy) (s : AList (fun _ : String => GraphNode) × MergeReport)
    (entry : Sigma fun _ : String => GraphNode) (k : String) :
    (mergeNode policy s entry).1.lookup k =
      if k = entry.1 then
        match policy with
        | .keep => (s.1.lookup k).or (some entry.2)
        | .overwrite => some entry.2
      else s.1.lookup k := by
  rcases hold : s.1.lookup entry.1 with _ | node
  · simp only [mergeNode, hold]
    by_cases hk : k = entry.1
    · subst hk
      cases policy <;> simp [hold]
    · rw [if_neg hk, AList.lookup_insert_ne hk]
  · by_cases hk : k = entry.1
    · subst hk
      cases policy <;> simp [mergeNode, hold]
    · cases policy <;> simp [mergeNode, hold, hk, AList.lookup_insert_ne hk]

theorem mergeNode_report (policy : MergePolicy) (s : AList (fun _ : String => GraphNode) × MergeReport)
    (entry : Sigma fun _ : String => GraphNode) :
    (mergeNode policy s entry).2 =
      if entry.1 ∉ s.1 then { s.2 with nodesAdded := s.2.nodesAdded + 1 }
      else
        match policy with
        | .keep => { s.2 with nodesKept := s.2.nodesKept + 1 }
        | .overwrite => { s.2 with nodesOverwritten := s.2.nodesOverwritten + 1 } := by
  rcases hold : s.1.lookup entry.1 with _ | node
  · rw [if_pos (AList.lookup_eq_none.mp hold)]
    simp only [mergeNode, hold]
  · have hin : entry.1 ∈ s.1 := AList.lookup_isSome.mp (by rw [hold]; rfl)
    rw [if_neg (not_not.mpr hin)]
    cases policy <;> simp only [mergeNode, hold]

theorem foldl_mergeNode_lookup (policy : MergePolicy) {entries : List (Sigma fun _ : String => GraphNode)}
    (hkeys : entries.keys.Nodup) (s : AList (fun _ : String => GraphNode) × MergeReport) (k : String) :
    (entries.foldl (mergeNode policy) s).1.lookup k =
      match policy with
      | .keep => (s.1.lookup k).or (entries.dlookup k)
      | .overwrite => (entries.dlookup k).or (s.1.lookup k) := by
  induction entries generalizing s with
  | nil => cases policy <;> simp
  | cons entry entries ih =>
    obtain ⟨hhead, htail⟩ := List.nodup_cons.mp hkeys
    rw [List.foldl_cons, ih htail, mergeNode_lookup]
    by_cases hk : k = entry.1
    · subst hk
      have hnone : entries.dlookup entry.1 = none := List.dlookup_eq_none.mpr hhead
      have hsome : (entry :: entries).dlookup entry.1 = some entry.2 := List.dlookup_cons_eq ..
      rw [if_pos rfl, hnone, hsome]
      cases policy <;> simp
    · have hsame : (entry :: entries).dlookup k = entries.dlookup k := List.dlookup_cons_ne _ _ hk
      rw [if_neg hk, hsame]

theorem foldl_mergeNode_report (policy : MergePolicy) {entries : List (Sigma fun _ : String => GraphNode)}
    (hkeys : entries.keys.Nodup) (s : AList (fun _ : String => GraphNode) × MergeReport) :
    (entries.foldl (mergeNode policy) s).2 =
      { s.2 with
        nodesAdded := s.2.nodesAdded + entries.keys.countP (· ∉ s.1)
        nodesOverwritten := s.2.nodesOverwritten + if policy = .overwrite then entries.keys.countP (· ∈ s.1) else 0
        nodesKept := s.2.nodesKept + if policy = .keep then entries.keys.countP (· ∈ s.1) else 0 } := by
  induction entries generalizing s with
  | nil => simp
  | cons entry entries ih =>
    obtain ⟨hhead, htail⟩ := List.nodup_cons.mp hkeys
    -- the keys that follow are known after this entry just where they were before
    have hknown : ∀ k ∈ entries.keys, (k ∈ (mergeNode policy s entry).1 ↔ k ∈ s.1) := fun k hk => by
      have hne : k ≠ entry.1 := fun heq => hhead (heq ▸ hk)
      rw [← AList.lookup_isSome, ← AList.lookup_isSome, mergeNode_lookup, if_neg hne]
    have hnew : entries.keys.countP (· ∉ (mergeNode policy s entry).1) = entries.keys.countP (· ∉ s.1) :=
      List.countP_congr fun k hk => by simp [hknown k hk]
    have hold : entries.keys.countP (· ∈ (mergeNode policy s entry).1) = entries.keys.countP (· ∈ s.1) :=
      List.countP_congr fun k hk => by simp [hknown k hk]
    rw [List.foldl_cons, ih htail, hnew, hold, mergeNode_report, List.keys_cons, List.countP_cons, List.countP_cons]
    by_cases hin : entry.1 ∈ s.1
    · cases policy <;> simp [hin] <;> omega
    · cases policy <;> simp [hin] <;> omega

/-! ## Relationships -/

theorem insertAll_nodes (g : MemoryGraph) (entries : List (String × GraphRelationship)) :
    (g.insertAll entries).nodes = g.nodes := by
  induction entries generalizing g with
  | nil => rfl
  | cons entry entries ih => exact ih (g.insertRelationship entry.1 entry.2)

theorem insertAll_lookup {g : MemoryGraph} {entries : List (String × GraphRelationship)} (hfresh : g.Fresh entries)
    (k : String) (rel : GraphRelationship) :
    (g.insertAll entries).relationships.lookup k = some rel ↔
      g.relationships.lookup k = some rel ∨ (k, rel) ∈ entries := by
  induction entries generalizing g with
  | nil => simp [insertAll]
  | cons entry entries ih =>
    refine (ih hfresh.tail).trans ?_
    show (g.relationships.insert entry.1 entry.2).lookup k = some rel ∨ _ ↔ _
    rw [List.mem_cons]
    by_cases hk : k = entry.1
    · subst hk
      have hnone : g.relationships.lookup entry.1 = none :=
        AList.lookup_eq_none.mpr (hfresh.new entry List.mem_cons_self)
      rw [AList.lookup_insert, hnone, Option.some.injEq]
      constructor
      · rintro (rfl | hmem)
        · exact .inr (.inl rfl)
        · exact .inr (.inr hmem)
      · rintro (hno | heq | hmem)
        · cases hno
        · exact .inl (congrArg Prod.snd heq).symm
        · exact .inr hmem
    · rw [AList.lookup_insert_ne hk]
      refine or_congr_right ⟨.inr, fun hmem => hmem.resolve_left fun heq => hk (congrArg Prod.fst heq)⟩

theorem foldl_mergeRelationship_report (rename : AList (fun _ : String => String))
    (entries : List (Sigma fun _ : String => GraphRelationship)) (s : MemoryGraph × MergeReport) :
    (entries.foldl (mergeRelationship rename) s).2 =
      { s.2 with
        relationshipsAdded := s.2.relationshipsAdded + entries.keys.countP (· ∉ rename)
        relationshipsRenamed := s.2.relationshipsRenamed + entries.keys.countP (· ∈ rename) } := by
  induction entries generalizing s with
  | nil => simp
  | cons entry entries ih =>
    rw [List.foldl_cons, ih, List.keys_cons, List.countP_cons, List.countP_cons]
    rcases hnew : rename.lookup entry.1 with _ | new
    · have hnot : entry.1 ∉ rename := AList.lookup_eq_none.mp hnew
      simp [mergeRelationship, hnew, hnot]
      omega
    · have hin : entry.1 ∈ rename := AList.lookup_isSome.mp (by rw [hnew]; rfl)
      simp [mergeRelationship, hnew, hin]
      omega

theorem renamed_eq {g other : MemoryGraph} (h : g.Valid) (hother : other.Valid) {id : String} {rel : GraphRelationship}
    (hrel : other.relationships.lookup id = some rel) :
    renamed (g.renames other) ⟨id, rel⟩ =
      (((abstraction h).renew (abstraction hother) rel).id, (abstraction h).renew (abstraction hother) rel) := by
  have hid : rel.id = id := hother.relationships id rel hrel
  have hmem : id ∈ other.relationships := AList.lookup_isSome.mp (by rw [hrel]; rfl)
  have hfinal := finalId_eq_newIds h hother hmem
  rw [AbstractGraph.renew, hid, ← hfinal, finalId, renamed]
  rcases hnew : (g.renames other).lookup id with _ | new
  · simp [← hid]
  · simp

theorem merge_report {g other : MemoryGraph} (h : g.Valid) (hother : other.Valid) (policy : MergePolicy) :
    (g.merge other policy).1 = (abstraction h).mergeReport (abstraction hother) policy := by
  have hnodes := foldl_mergeNode_report policy other.nodes.keys_nodup (g.nodes, ⟨0, 0, 0, 0, 0⟩)
  have hreport := foldl_mergeRelationship_report (g.renames other) other.relationships.entries
    ({ g with nodes := g.mergedNodes other policy }, (other.nodes.entries.foldl (mergeNode policy)
      (g.nodes, ⟨0, 0, 0, 0, 0⟩)).2)
  have hadded := countP_keys (S := (abstraction hother).nodeIds \ (abstraction h).nodeIds) other.nodes
    (· ∉ g.nodes) fun x => by simp [mem_nodeIds]
  have hknown := countP_keys (S := (abstraction hother).nodeIds ∩ (abstraction h).nodeIds) other.nodes
    (· ∈ g.nodes) fun x => by simp [mem_nodeIds]
  have hadded' := countP_keys (S := (abstraction hother).relationshipIds \ (abstraction h).relationshipIds)
    other.relationships (· ∉ g.renames other) fun x => by
      simp only [Set.mem_sdiff, mem_relationshipIds, decide_eq_true_eq]
      exact and_congr_right fun hx => (mem_renames hx).not.symm
  have hrenamed := countP_keys (S := (abstraction hother).relationshipIds ∩ (abstraction h).relationshipIds)
    other.relationships (· ∈ g.renames other) fun x => by
      simp only [Set.mem_inter_iff, mem_relationshipIds, decide_eq_true_eq]
      exact and_congr_right fun hx => (mem_renames hx).symm
  have hmerge : (g.merge other policy).1 = (other.relationships.entries.foldl (mergeRelationship (g.renames other))
    ({ g with nodes := g.mergedNodes other policy }, (other.nodes.entries.foldl (mergeNode policy)
      (g.nodes, ⟨0, 0, 0, 0, 0⟩)).2)).2 := rfl
  rw [hmerge, hreport, hnodes, AbstractGraph.mergeReport, ← hadded, ← hknown, ← hadded', ← hrenamed]
  simp only [Nat.zero_add]
  rfl

theorem merge_relationship {g other : MemoryGraph} (h : g.Valid) (hother : other.Valid) (policy : MergePolicy)
    (k : String) (rel : GraphRelationship) :
    (g.merge other policy).2.relationships.lookup k = some rel ↔
      g.relationships.lookup k = some rel ∨
        rel.id = k ∧ rel ∈ (abstraction h).renew (abstraction hother) '' (abstraction hother).relationships := by
  rw [merge_eq, insertAll_lookup (g.merge_fresh other _)]
  refine or_congr_right ?_
  rw [List.mem_map]
  constructor
  · rintro ⟨⟨orig, r⟩, hentry, heq⟩
    have hr : other.relationships.lookup orig = some r := AList.mem_lookup_iff.mpr hentry
    rw [renamed_eq h hother hr] at heq
    obtain ⟨rfl, rfl⟩ := Prod.mk.inj heq
    exact ⟨rfl, r, hother.relationships.mem_records hr, rfl⟩
  · rintro ⟨rfl, r, hr, rfl⟩
    exact ⟨⟨r.id, r⟩, AList.mem_lookup_iff.mp hr, renamed_eq h hother hr⟩

theorem merge_nodes (g other : MemoryGraph) (policy : MergePolicy) (k : String) :
    (g.merge other policy).2.nodes.lookup k =
      match policy with
      | .keep => (g.nodes.lookup k).or (other.nodes.lookup k)
      | .overwrite => (other.nodes.lookup k).or (g.nodes.lookup k) := by
  rw [merge_eq, insertAll_nodes]
  exact foldl_mergeNode_lookup policy other.nodes.keys_nodup (g.nodes, ⟨0, 0, 0, 0, 0⟩) k

theorem keyed_or {m m' both : AList (fun _ : String => GraphNode)} (h : Keyed GraphNode.id m)
    (h' : Keyed GraphNode.id m') (hboth : ∀ k, both.lookup k = (m.lookup k).or (m'.lookup k)) :
    Keyed GraphNode.id both ∧
      records GraphNode.id both = AbstractGraph.override (records GraphNode.id m') (records GraphNode.id m) := by
  constructor
  · intro k node hnode
    rw [hboth, Option.or_eq_some_iff] at hnode
    rcases hnode with hnode | ⟨-, hnode⟩
    · exact h k node hnode
    · exact h' k node hnode
  · ext node
    show both.lookup node.id = some node ↔ _
    rw [hboth, Option.or_eq_some_iff, or_comm]
    refine or_congr_left ?_
    rw [and_comm]
    refine and_congr_right fun _ => ?_
    rw [h.image_records, AList.lookup_eq_none]

theorem merge_abs {g other : MemoryGraph} (h : g.Valid) (hother : other.Valid) (policy : MergePolicy) :
    ∃ hnext : (g.merge other policy).2.Valid,
      (g.merge other policy).1 = ((abstraction h).merge (abstraction hother) policy).1 ∧
        abstraction hnext = ((abstraction h).merge (abstraction hother) policy).2 := by
  have hlookup := merge_nodes g other policy
  have hmem (id : String) : id ∈ (g.merge other policy).2.nodes ↔ id ∈ g.nodes ∨ id ∈ other.nodes := by
    rw [← AList.lookup_isSome, hlookup]
    cases policy with
    | keep => rw [Option.isSome_or, Bool.or_eq_true, AList.lookup_isSome, AList.lookup_isSome]
    | overwrite => rw [Option.isSome_or, Bool.or_eq_true, AList.lookup_isSome, AList.lookup_isSome, or_comm]
  have hnodes : Keyed GraphNode.id (g.merge other policy).2.nodes ∧
      records GraphNode.id (g.merge other policy).2.nodes = (abstraction h).mergedNodes (abstraction hother) policy := by
    cases policy with
    | keep => exact keyed_or h.nodes hother.nodes hlookup
    | overwrite => exact keyed_or hother.nodes h.nodes hlookup
  have hrels := merge_relationship h hother policy
  have hnext : (g.merge other policy).2.Valid := by
    refine ⟨step_listed h.listed (.merge other policy), hnodes.1, fun k rel hrel => ?_, fun k rel hrel => ?_⟩
    · rcases (hrels k rel).mp hrel with hold | ⟨hid, -⟩
      · exact h.relationships k rel hold
      · exact hid
    · rw [hmem, hmem]
      rcases (hrels k rel).mp hrel with hold | ⟨-, r, hr, rfl⟩
      · obtain ⟨hfrom, hto⟩ := h.endpoints k rel hold
        exact ⟨.inl hfrom, .inl hto⟩
      · obtain ⟨hfrom, hto⟩ := hother.endpoints r.id r hr
        exact ⟨.inr hfrom, .inr hto⟩
  refine ⟨hnext, merge_report h hother policy, AbstractGraph.ext hnodes.2 ?_⟩
  ext rel
  refine (hrels rel.id rel).trans (or_congr_right ?_)
  exact and_iff_right rfl

end MemoryGraph
end Cuca.Memory
