import Cuca.Memory.GraphIndex

/-!
# The indexes of a graph

* `Listed` : the indexes list the stored relationships, and `Mirrored` : and their positions are the slots;
* `removeAll_eq`, `removeAll_mirrored` : removals keep the slots exactly where what is removed stands last;
* `Fresh`, `insertAll_mirrored` : insertions under new ids keep them.
-/

namespace Cuca.Memory

namespace MemoryGraph

def fromOf (g : MemoryGraph) (id : String) : Option String := (g.relationships.lookup id).map (·.fromId)

def toOf (g : MemoryGraph) (id : String) : Option String := (g.relationships.lookup id).map (·.toId)

structure Listed (g : MemoryGraph) : Prop where
  outgoing : g.outgoing.Lists g.fromOf
  incoming : g.incoming.Lists g.toOf

/-- **The indexes mirror the relationships.** -/
structure Mirrored (g : MemoryGraph) : Prop where
  outgoing : g.outgoing.Mirrors g.fromOf
  incoming : g.incoming.Mirrors g.toOf

variable {g : MemoryGraph}

theorem Mirrored.listed (h : g.Mirrored) : g.Listed := ⟨h.outgoing.toLists, h.incoming.toLists⟩

theorem new_mirrored : new.Mirrored := ⟨Index.empty_mirrors, Index.empty_mirrors⟩

/-! ## Removals -/

def removeAll (g : MemoryGraph) (ids : List String) : MemoryGraph :=
  ids.foldl (fun g rid => (g.removeRelationship rid).2) g

theorem removeRelationship_eq (g : MemoryGraph) (id : String) :
    (g.removeRelationship id).2.nodes = g.nodes ∧
      (g.removeRelationship id).2.relationships = g.relationships.erase id ∧
      (g.removeRelationship id).2.outgoing = g.outgoing.drop g.fromOf id ∧
      (g.removeRelationship id).2.incoming = g.incoming.drop g.toOf id := by
  rcases hrel : g.relationships.lookup id with _ | rel
  · have herase : g.relationships.erase id = g.relationships := by
      refine AList.ext ?_
      rw [Assoc.entries_erase]
      refine List.filter_eq_self.mpr fun e he => ?_
      have hne : e.1 ≠ id := fun heq => AList.lookup_eq_none.mp hrel (heq ▸ List.mem_keys_of_mem he)
      simpa using hne
    simp [removeRelationship, hrel, Index.drop, fromOf, toOf, herase]
  · simp [removeRelationship, hrel, Index.drop, fromOf, toOf]

theorem ends_erase (g : MemoryGraph) (id : String) (far : GraphRelationship → String) :
    (fun e => ((g.relationships.erase id).lookup e).map far) =
      Function.update (fun e => (g.relationships.lookup e).map far) id none := by
  funext e
  by_cases he : e = id
  · rw [he, AList.lookup_erase, Function.update_self, Option.map_none]
  · rw [AList.lookup_erase_ne he, Function.update_of_ne he]

theorem fromOf_removeRelationship (g : MemoryGraph) (id : String) :
    (g.removeRelationship id).2.fromOf = Function.update g.fromOf id none := by
  have hrels := (removeRelationship_eq g id).2.1
  rw [← show _ = Function.update g.fromOf id none from ends_erase g id (·.fromId), ← hrels]
  rfl

theorem toOf_removeRelationship (g : MemoryGraph) (id : String) :
    (g.removeRelationship id).2.toOf = Function.update g.toOf id none := by
  have hrels := (removeRelationship_eq g id).2.1
  rw [← show _ = Function.update g.toOf id none from ends_erase g id (·.toId), ← hrels]
  rfl

theorem removeAll_eq (g : MemoryGraph) (ids : List String) :
    (g.removeAll ids).nodes = g.nodes ∧
      (∀ e, (g.removeAll ids).relationships.lookup e = if e ∈ ids then none else g.relationships.lookup e) ∧
      (g.removeAll ids).outgoing = g.outgoing.unlinkAll g.fromOf ids ∧
      (g.removeAll ids).incoming = g.incoming.unlinkAll g.toOf ids := by
  induction ids generalizing g with
  | nil => exact ⟨rfl, fun e => by simp [removeAll], rfl, rfl⟩
  | cons id ids ih =>
    obtain ⟨hnodes, hrels, hout, hin⟩ := removeRelationship_eq g id
    obtain ⟨hnodes', hrels', hout', hin'⟩ := ih (g.removeRelationship id).2
    refine ⟨hnodes'.trans hnodes, fun e => (hrels' e).trans ?_, ?_, ?_⟩
    · rw [hrels]
      by_cases he : e = id
      · subst he
        simp
      · simp [he, AList.lookup_erase_ne he]
    · rw [Index.unlinkAll, ← hout, ← fromOf_removeRelationship]
      exact hout'
    · rw [Index.unlinkAll, ← hin, ← toOf_removeRelationship]
      exact hin'

theorem fromOf_removeAll (g : MemoryGraph) (ids : List String) :
    (g.removeAll ids).fromOf = Index.without g.fromOf ids := by
  funext e
  rw [fromOf, (removeAll_eq g ids).2.1, Index.without]
  split <;> rfl

theorem toOf_removeAll (g : MemoryGraph) (ids : List String) : (g.removeAll ids).toOf = Index.without g.toOf ids := by
  funext e
  rw [toOf, (removeAll_eq g ids).2.1, Index.without]
  split <;> rfl

theorem Listed.removeAll (h : g.Listed) (ids : List String) : (g.removeAll ids).Listed := by
  obtain ⟨-, -, hout, hin⟩ := removeAll_eq g ids
  refine ⟨?_, ?_⟩
  · rw [hout, fromOf_removeAll]
    exact h.outgoing.unlinkAll ids
  · rw [hin, toOf_removeAll]
    exact h.incoming.unlinkAll ids

def RemovesLast (g : MemoryGraph) (ids : List String) : Prop :=
  ∀ node, Index.Trailing ids (g.outgoing.listAt node) ∧ Index.Trailing ids (g.incoming.listAt node)

theorem removeAll_mirrored (h : g.Mirrored) (ids : List String) :
    (g.removeAll ids).Mirrored ↔ g.RemovesLast ids := by
  obtain ⟨-, -, hout, hin⟩ := removeAll_eq g ids
  have hfrom := Index.unlinkAll_mirrors h.outgoing ids
  have hto := Index.unlinkAll_mirrors h.incoming ids
  rw [← hout, ← fromOf_removeAll] at hfrom
  rw [← hin, ← toOf_removeAll] at hto
  constructor
  · exact fun hleft node => ⟨hfrom.mp hleft.outgoing node, hto.mp hleft.incoming node⟩
  · exact fun hlast => ⟨hfrom.mpr fun n => (hlast n).1, hto.mpr fun n => (hlast n).2⟩

/-! ## Insertions -/

def insertAll (g : MemoryGraph) (entries : List (String × GraphRelationship)) : MemoryGraph :=
  entries.foldl (fun g entry => g.insertRelationship entry.1 entry.2) g

theorem ends_insert (g : MemoryGraph) (id : String) (rel : GraphRelationship) (far : GraphRelationship → String) :
    (fun e => ((g.relationships.insert id rel).lookup e).map far) =
      Function.update (fun e => (g.relationships.lookup e).map far) id (some (far rel)) := by
  funext e
  by_cases he : e = id
  · rw [he, AList.lookup_insert, Function.update_self, Option.map_some]
  · rw [AList.lookup_insert_ne he, Function.update_of_ne he]

theorem fromOf_insertRelationship (g : MemoryGraph) (id : String) (rel : GraphRelationship) :
    (g.insertRelationship id rel).fromOf = Function.update g.fromOf id (some rel.fromId) :=
  ends_insert g id rel (·.fromId)

theorem toOf_insertRelationship (g : MemoryGraph) (id : String) (rel : GraphRelationship) :
    (g.insertRelationship id rel).toOf = Function.update g.toOf id (some rel.toId) := ends_insert g id rel (·.toId)

section
variable {g : MemoryGraph} {id : String} (hfresh : id ∉ g.relationships)

include hfresh in
theorem ends_fresh : g.fromOf id = none ∧ g.toOf id = none := by
  rw [fromOf, toOf, AList.lookup_eq_none.mpr hfresh]
  exact ⟨rfl, rfl⟩

include hfresh in
theorem Listed.insertRelationship (h : g.Listed) (rel : GraphRelationship) : (g.insertRelationship id rel).Listed := by
  obtain ⟨hfrom, hto⟩ := ends_fresh hfresh
  refine ⟨?_, ?_⟩
  · rw [fromOf_insertRelationship]
    exact h.outgoing.link hfrom rel.fromId
  · rw [toOf_insertRelationship]
    exact h.incoming.link hto rel.toId

include hfresh in
theorem insertRelationship_mirrored (h : g.Listed) (rel : GraphRelationship) :
    (g.insertRelationship id rel).Mirrored ↔ g.Mirrored := by
  obtain ⟨hfrom, hto⟩ := ends_fresh hfresh
  have hout := Index.link_mirrors h.outgoing hfrom rel.fromId
  have hin := Index.link_mirrors h.incoming hto rel.toId
  rw [← fromOf_insertRelationship] at hout
  rw [← toOf_insertRelationship] at hin
  exact ⟨fun hm => ⟨hout.mp hm.outgoing, hin.mp hm.incoming⟩, fun hm => ⟨hout.mpr hm.outgoing, hin.mpr hm.incoming⟩⟩

end

/-- Relationships under ids that are new and differ. -/
structure Fresh (g : MemoryGraph) (entries : List (String × GraphRelationship)) : Prop where
  nodup : (entries.map (·.1)).Nodup
  new : ∀ entry ∈ entries, entry.1 ∉ g.relationships

variable {g : MemoryGraph}

theorem Fresh.tail {entry : String × GraphRelationship} {entries : List (String × GraphRelationship)}
    (h : g.Fresh (entry :: entries)) : (g.insertRelationship entry.1 entry.2).Fresh entries := by
  obtain ⟨hhead, htail⟩ := List.nodup_cons.mp h.nodup
  refine ⟨htail, fun e he => ?_⟩
  show e.1 ∉ g.relationships.insert entry.1 entry.2
  rw [AList.mem_insert, not_or]
  refine ⟨fun heq => hhead (List.mem_map.mpr ⟨e, he, heq⟩), h.new e (List.mem_cons_of_mem _ he)⟩

theorem insertAll_induction {I : MemoryGraph → Prop} {entries : List (String × GraphRelationship)}
    (hfresh : g.Fresh entries) (hfirst : I g)
    (hstep : ∀ g id rel, id ∉ g.relationships → I g → I (g.insertRelationship id rel)) : I (g.insertAll entries) := by
  induction entries generalizing g with
  | nil => exact hfirst
  | cons entry entries ih =>
    exact ih hfresh.tail (hstep g entry.1 entry.2 (hfresh.new entry List.mem_cons_self) hfirst)

theorem Listed.insertAll {entries : List (String × GraphRelationship)} (hfresh : g.Fresh entries)
    (h : g.Listed) : (g.insertAll entries).Listed :=
  insertAll_induction hfresh h fun _ _ rel hnew hlisted => hlisted.insertRelationship hnew rel

theorem insertAll_mirrored {entries : List (String × GraphRelationship)} (hfresh : g.Fresh entries)
    (h : g.Mirrored) : (g.insertAll entries).Mirrored :=
  insertAll_induction hfresh h fun _ _ rel hnew hm => (insertRelationship_mirrored hnew hm.listed rel).mpr hm

end MemoryGraph
end Cuca.Memory
