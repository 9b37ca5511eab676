import Cuca.Memory.CompactionSteps

/-!
# Offloading is all or nothing

The turns an offload takes go to the archive before the messages are rewritten. The archive may refuse them.

* `archived`, `retained` : the messages of the closed removal set, and the others, both in order;
* `offload_all_or_nothing` : refused turns go back where they were, accepted turns are exactly those that are gone.
-/

namespace Cuca.Memory.Compaction
open Removal

def archived (messages : List UnifiedMessage) (turns : Nat) : List UnifiedMessage :=
  removing (fun i => decide (i ∉ pairingClose messages (removableTurnIndices messages turns))) messages

def retained (messages : List UnifiedMessage) (turns : Nat) : List UnifiedMessage :=
  removing (fun i => decide (i ∈ pairingClose messages (removableTurnIndices messages turns))) messages

theorem mem_closedIdxs_iff {messages : List UnifiedMessage} {dropSet : List Nat} {i : Nat} (hlt : i < messages.length) :
    i ∈ closedIdxs messages dropSet ↔ i ∈ pairingClose messages dropSet := by
  rw [closedIdxs, List.mem_filter, List.mem_range, decide_eq_true_iff]
  exact and_iff_right hlt

theorem takeOut_removable (messages : List UnifiedMessage) (turns : Nat) :
    takeOut (closedIdxs messages (removableTurnIndices messages turns)) messages =
      (archived messages turns, retained messages turns) := by
  rw [takeOut_eq (pairwise_closedIdxs ..) fun _ => lt_of_mem_closedIdxs]
  refine Prod.ext (removing_congr fun i hi => ?_) (removing_congr fun i hi => ?_)
  · exact decide_eq_decide.mpr (not_congr (mem_closedIdxs_iff hi))
  · exact decide_eq_decide.mpr (mem_closedIdxs_iff hi)

theorem archived_perm (messages : List UnifiedMessage) (turns : Nat) :
    (archived messages turns ++ retained messages turns).Perm messages := by
  have hnegated : archived messages turns =
      removing (fun i => !decide (i ∈ pairingClose messages (removableTurnIndices messages turns))) messages := by
    refine removing_congr fun i _ => ?_
    exact decide_not
  rw [hnegated]
  exact removing_perm _ messages

namespace MemoryPlugin
variable {F W : Type} (p : MemoryPlugin F W)

theorem offload_idle (turns : Nat) (s : Prompt W) (h : p.store = none ∨ removableTurnIndices s.messages turns = []) :
    p.strategyOffload turns s = (.ok none, s) := by
  rw [strategyOffload]
  rcases h with hstore | hempty
  · rw [hstore]
  · rcases p.store with _ | storeTurns
    · rfl
    · dsimp only
      rw [hempty]
      rfl

theorem offload_called {turns : Nat} {s : Prompt W}
    {storeTurns : W → String → List UnifiedMessage → Except PluginError Unit × W} (hstore : p.store = some storeTurns)
    (hpicks : removableTurnIndices s.messages turns ≠ []) :
    p.strategyOffload turns s =
      match storeTurns s.world sessionHint (archived s.messages turns) with
      | (.error error, world) => (.error error, ⟨world, s.messages⟩)
      | (.ok (), world) => (.ok (some .offloaded), ⟨world, retained s.messages turns⟩) := by
  have hback := putBack_takeOut (pairwise_closedIdxs s.messages (removableTurnIndices s.messages turns))
    fun _ => lt_of_mem_closedIdxs
  rw [takeOut_removable] at hback
  rw [strategyOffload, hstore]
  dsimp only
  rw [if_neg (by simpa using hpicks), takeOut_removable]
  exact congrArg (fun messages => (match storeTurns s.world sessionHint (archived s.messages turns) with
    | (.error error, world) => (.error error, ⟨world, messages⟩)
    | (.ok (), world) => (.ok (some .offloaded), ⟨world, retained s.messages turns⟩) : Outcome W)) hback

/-- **All or nothing**: an archive that refuses the turns leaves the messages as they were; one that takes them has been
given, in order and each once, exactly those that are gone. -/
theorem offload_all_or_nothing (turns : Nat) (s : Prompt W) :
    ((p.store = none ∨ removableTurnIndices s.messages turns = []) → p.strategyOffload turns s = (.ok none, s)) ∧
    (∀ storeTurns, p.store = some storeTurns → removableTurnIndices s.messages turns ≠ [] →
      p.strategyOffload turns s =
        match storeTurns s.world sessionHint (archived s.messages turns) with
        | (.error error, world) => (.error error, ⟨world, s.messages⟩)
        | (.ok (), world) => (.ok (some .offloaded), ⟨world, retained s.messages turns⟩)) ∧
    (archived s.messages turns).Sublist s.messages ∧ (retained s.messages turns).Sublist s.messages ∧
    (archived s.messages turns ++ retained s.messages turns).Perm s.messages := by
  refine ⟨p.offload_idle turns s, fun storeTurns hstore hpicks => p.offload_called hstore hpicks, ?_, ?_, ?_⟩
  · exact removing_sublist _ _
  · exact removing_sublist _ _
  · exact archived_perm s.messages turns

end MemoryPlugin
end Cuca.Memory.Compaction
