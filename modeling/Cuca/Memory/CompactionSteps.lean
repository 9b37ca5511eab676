import Cuca.Lib.Pointwise
import Cuca.Lib.Transition
import Cuca.Memory.Compaction

/-!
# What one strategy does to a prompt

A compaction is a run of strategies. Each of them removes messages, puts one message in place of those it removes, or
edits contents in place.

* `mem_closedIdxs` : the messages a closed set holds;
* `Trimmed` : what an edit in place leaves of a message;
* `compressInner_run` : a compaction as a run.
-/

namespace Cuca.Memory.Compaction
open Removal Transition

/-! ## Sets of indices -/

theorem pairwise_indices (xs : List UnifiedMessage) (keep : UnifiedMessage × Nat → Bool) :
    ((xs.zipIdx.filter keep).map (·.2)).Pairwise (· < ·) := by
  have hsublist : ((xs.zipIdx.filter keep).map (·.2)).Sublist (xs.zipIdx.map (·.2)) :=
    List.filter_sublist.map _
  refine List.Pairwise.sublist hsublist ?_
  rw [List.zipIdx_map_snd]
  exact List.pairwise_lt_range'

theorem mem_removableTurnIndices {messages : List UnifiedMessage} {cap i : Nat}
    (h : i ∈ removableTurnIndices messages cap) :
    i < messages.length ∧ rposition isUser messages ≠ some i ∧ ∀ m, messages[i]? = some m → isSystem m = false := by
  have hmem := List.mem_of_mem_take h
  obtain ⟨⟨m, j⟩, hfilter, rfl⟩ := List.mem_map.mp hmem
  obtain ⟨hzip, hkeep⟩ := List.mem_filter.mp hfilter
  have hget := List.mk_mem_zipIdx_iff_getElem?.mp hzip
  have hlt := (List.getElem?_eq_some_iff.mp hget).1
  simp only [Bool.and_eq_true, Bool.not_eq_true', bne_iff_ne] at hkeep
  refine ⟨hlt, fun heq => hkeep.2 heq.symm, fun m' hm' => ?_⟩
  obtain rfl := Option.some.inj (hget.symm.trans hm')
  exact hkeep.1

theorem mem_slidingWindowIndices {messages : List UnifiedMessage} {keepMessages i : Nat}
    (h : i ∈ slidingWindowIndices messages keepMessages) :
    i < messages.length ∧ rposition isUser messages ≠ some i ∧ messages.findIdx? isSystem ≠ some i := by
  obtain ⟨hrange, hkeep⟩ := List.mem_filter.mp (List.mem_of_mem_take h)
  simp only [Bool.and_eq_true, bne_iff_ne] at hkeep
  exact ⟨List.mem_range.mp hrange, fun heq => hkeep.2 heq.symm, fun heq => hkeep.1 heq.symm⟩

theorem pairwise_observationIndices (messages : List UnifiedMessage) (cap : Nat) :
    (observationIndices messages cap).Pairwise (· < ·) := by
  refine List.Pairwise.sublist ((List.take_sublist ..).trans (List.drop_sublist ..)) ?_
  exact pairwise_indices ..

theorem mem_observationIndices {messages : List UnifiedMessage} {cap i : Nat} (h : i ∈ observationIndices messages cap) :
    (∃ m, messages[i]? = some m ∧ isSystem m) ∧ messages.findIdx? isSystem ≠ some i := by
  have hrising := pairwise_indices messages fun x => isSystem x.1
  have hmem (j : Nat) (hj : j ∈ (messages.zipIdx.filter fun x => isSystem x.1).map (·.2)) :
      ∃ m, messages[j]? = some m ∧ isSystem m := by
    obtain ⟨⟨m, j⟩, hfilter, rfl⟩ := List.mem_map.mp hj
    obtain ⟨hzip, hkeep⟩ := List.mem_filter.mp hfilter
    exact ⟨m, List.mk_mem_zipIdx_iff_getElem?.mp hzip, hkeep⟩
  have hdrop : i ∈ ((messages.zipIdx.filter fun x => isSystem x.1).map (·.2)).drop 1 := List.mem_of_mem_take h
  refine ⟨hmem i (List.mem_of_mem_drop hdrop), fun hfirst => ?_⟩
  -- the index skipped is that of an earlier System message
  rcases hindices : (messages.zipIdx.filter fun x => isSystem x.1).map (·.2) with _ | ⟨first, later⟩
  · rw [hindices] at hdrop
    exact List.not_mem_nil hdrop
  · rw [hindices] at hdrop hrising hmem
    have hlt : first < i := (List.pairwise_cons.mp hrising).1 i hdrop
    obtain ⟨m, hm, hsystem⟩ := hmem first List.mem_cons_self
    obtain ⟨_, _, hnone⟩ := List.findIdx?_eq_some_iff_getElem.mp hfirst
    obtain ⟨hfirstlt, rfl⟩ := List.getElem?_eq_some_iff.mp hm
    exact hnone first hlt hsystem

/-- The ids of the tool results a message carries. -/
def resultIds (m : UnifiedMessage) : List String :=
  (if m.role == .tool then m.toolCallId.toList else []) ++ m.content.filterMap fun
    | .toolResult toolCallId _ => some toolCallId
    | _ => none

theorem carriesResult_iff {ids : List String} {m : UnifiedMessage} :
    carriesResult ids m ↔ ∃ id ∈ ids, id ∈ resultIds m := by
  have hcontent : (m.content.any fun
      | .toolResult toolCallId _ => decide (toolCallId ∈ ids)
      | _ => false) = true ↔ ∃ id ∈ ids, id ∈ m.content.filterMap fun
      | .toolResult toolCallId _ => some toolCallId
      | _ => none := by
    rw [List.any_eq_true]
    constructor
    · rintro ⟨block, hblock, h⟩
      split at h
      · exact ⟨_, of_decide_eq_true h, List.mem_filterMap.mpr ⟨_, hblock, rfl⟩⟩
      · cases h
    · rintro ⟨id, hid, h⟩
      obtain ⟨block, hblock, h⟩ := List.mem_filterMap.mp h
      split at h
      · obtain rfl := Option.some.inj h
        exact ⟨_, hblock, decide_eq_true hid⟩
      · cases h
  have htool : (m.role == .tool && m.toolCallId.any (· ∈ ids)) = true ↔
      ∃ id ∈ ids, id ∈ if m.role == .tool then m.toolCallId.toList else [] := by
    rcases m.toolCallId with _ | id <;> cases m.role == MessageRole.tool <;> simp
  rw [carriesResult, Bool.or_eq_true]
  refine (or_congr htool hcontent).trans ?_
  simp only [resultIds, List.mem_append, and_or_left, exists_or]

def heldIds (messages : List UnifiedMessage) (idxs : List Nat) : List String :=
  idxs.flatMap fun i => (messages[i]?.map callIds).getD []

theorem mem_heldIds {messages : List UnifiedMessage} {idxs : List Nat} {id : String} :
    id ∈ heldIds messages idxs ↔ ∃ i ∈ idxs, ∃ m, messages[i]? = some m ∧ id ∈ callIds m := by
  rw [heldIds, List.mem_flatMap]
  refine exists_congr fun i => and_congr_right fun _ => ?_
  rcases messages[i]? with _ | m <;> simp

/-- **The closed set**: the messages picked, and those other than the most recent User message that carry the result of
a call picked. -/
theorem mem_closedIdxs {messages : List UnifiedMessage} {dropSet : List Nat} {i : Nat} :
    i ∈ closedIdxs messages dropSet ↔ i < messages.length ∧ (i ∈ dropSet ∨
      rposition isUser messages ≠ some i ∧ ∃ m, messages[i]? = some m ∧ carriesResult (heldIds messages dropSet) m) := by
  rw [closedIdxs, List.mem_filter, List.mem_range, decide_eq_true_iff]
  refine and_congr_right fun hlt => ?_
  rw [pairingClose]
  show i ∈ (if (heldIds messages dropSet).isEmpty then dropSet else _) ↔ _
  split
  case isTrue hempty =>
    rw [List.isEmpty_iff.mp hempty]
    simp [carriesResult_iff]
  case isFalse =>
    rw [List.mem_append, List.mem_filter, List.mem_range, List.getElem?_eq_getElem hlt]
    by_cases hpicked : i ∈ dropSet
    · simp [hpicked]
    · have hne : rposition isUser messages ≠ some i ↔ some i ≠ rposition isUser messages := ne_comm
      simp [hpicked, hlt, hne, heldIds]

theorem pairwise_closedIdxs (messages : List UnifiedMessage) (dropSet : List Nat) :
    (closedIdxs messages dropSet).Pairwise (· < ·) := List.Pairwise.filter _ List.pairwise_lt_range

theorem lt_of_mem_closedIdxs {messages : List UnifiedMessage} {dropSet : List Nat} {i : Nat}
    (h : i ∈ closedIdxs messages dropSet) : i < messages.length := (mem_closedIdxs.mp h).1

/-! ## Edits in place -/

/-- The strategies that blank tool results. -/
def Blanks : CompactionStrategy → Prop
  | .deduplicateFileReads _ | .clearToolResults _ => True
  | _ => False

section
variable {F W : Type} (p : MemoryPlugin F W) (strategies : List CompactionStrategy)

/-- What the strategies make of a block in place. They blank the texts of Tool messages only. -/
inductive Trim (role : MessageRole) (block : MessageContentBlock) : MessageContentBlock → Prop where
  | kept : Trim role block block
  | clamped {block' : MessageContentBlock} {n : Nat} : .clampOversizedMessages n ∈ strategies →
      Trim role block block' → Trim role block (clampBlock (p.big n) block')
  | blanked {block' : MessageContentBlock} {strategy : CompactionStrategy} : strategy ∈ strategies →
      Blanks strategy → Trim role block block' → Trim role block (clearOutput block')
  | emptied {block' : MessageContentBlock} {strategy : CompactionStrategy} : strategy ∈ strategies →
      Blanks strategy → role = .tool → Trim role block block' → Trim role block (clearText block')

/-- A message after such edits. -/
structure Trimmed (m m' : UnifiedMessage) : Prop where
  role : m'.role = m.role
  name : m'.name = m.name
  toolCallId : m'.toolCallId = m.toolCallId
  content : List.Forall₂ (Trim p strategies m.role) m.content m'.content

variable {p strategies}

theorem Trim.trans {role : MessageRole} {a b c : MessageContentBlock} (hab : Trim p strategies role a b) (hbc : Trim p strategies role b c) :
    Trim p strategies role a c := by
  induction hbc with
  | kept => exact hab
  | clamped hmem _ ih => exact .clamped hmem ih
  | blanked hmem hblanks _ ih => exact .blanked hmem hblanks ih
  | emptied hmem hblanks hrole _ ih => exact .emptied hmem hblanks hrole ih

theorem Trimmed.refl (m : UnifiedMessage) : Trimmed p strategies m m :=
  ⟨rfl, rfl, rfl, Pointwise.refl (fun _ => .kept) _⟩

theorem Trimmed.trans {a b c : UnifiedMessage} (hab : Trimmed p strategies a b) (hbc : Trimmed p strategies b c) : Trimmed p strategies a c := by
  have hcontent := hbc.content
  rw [hab.role] at hcontent
  exact ⟨hbc.role.trans hab.role, hbc.name.trans hab.name, hbc.toolCallId.trans hab.toolCallId,
    Pointwise.trans (fun _ _ _ => Trim.trans) hab.content hcontent⟩

theorem Trim.mono {strategies' : List CompactionStrategy} (hsub : strategies ⊆ strategies') {role : MessageRole}
    {a b : MessageContentBlock} (h : Trim p strategies role a b) : Trim p strategies' role a b := by
  induction h with
  | kept => exact .kept
  | clamped hmem _ ih => exact .clamped (hsub hmem) ih
  | blanked hmem hblanks _ ih => exact .blanked (hsub hmem) hblanks ih
  | emptied hmem hblanks hrole _ ih => exact .emptied (hsub hmem) hblanks hrole ih

theorem Trimmed.mono {strategies' : List CompactionStrategy} (hsub : strategies ⊆ strategies') {a b : UnifiedMessage}
    (h : Trimmed p strategies a b) : Trimmed p strategies' a b :=
  ⟨h.role, h.name, h.toolCallId, h.content.imp fun _ _ => Trim.mono hsub⟩

variable {m m' : UnifiedMessage}

theorem Trimmed.isSystem (h : Trimmed p strategies m m') : isSystem m' = isSystem m := by
  rw [Compaction.isSystem, Compaction.isSystem, h.role]

theorem Trimmed.isUser (h : Trimmed p strategies m m') : isUser m' = isUser m := by
  rw [Compaction.isUser, Compaction.isUser, h.role]

/-- The two ids a block may hold, of a call and of a result. -/
def blockIds : MessageContentBlock → Option String × Option String
  | .toolCall id _ _ => (some id, none)
  | .toolResult toolCallId _ => (none, some toolCallId)
  | _ => (none, none)

theorem blockIds_clampBlock (big : String → Bool) (block : MessageContentBlock) :
    blockIds (clampBlock big block) = blockIds block := by
  unfold clampBlock
  split <;> rfl

theorem Trim.blockIds {role : MessageRole} {block block' : MessageContentBlock} (h : Trim p strategies role block block') :
    blockIds block' = blockIds block := by
  induction h with
  | kept => rfl
  | clamped _ _ ih => rw [blockIds_clampBlock, ih]
  | @blanked block' _ _ _ _ ih =>
    rw [← ih]
    cases block' <;> rfl
  | @emptied block' _ _ _ _ _ ih =>
    rw [← ih]
    cases block' <;> rfl

theorem callIds_eq (m : UnifiedMessage) : callIds m = (m.content.map blockIds).filterMap Prod.fst := by
  rw [callIds, List.filterMap_map]
  congr 1
  funext block
  cases block <;> rfl

theorem resultIds_eq (m : UnifiedMessage) :
    resultIds m = (if m.role == .tool then m.toolCallId.toList else []) ++ (m.content.map blockIds).filterMap Prod.snd := by
  rw [resultIds, List.filterMap_map]
  congr 2
  funext block
  cases block <;> rfl

theorem Trimmed.callIds (h : Trimmed p strategies m m') : callIds m' = callIds m := by
  rw [callIds_eq, callIds_eq, Pointwise.map_eq Compaction.blockIds (fun _ _ => Trim.blockIds) h.content]

theorem Trimmed.resultIds (h : Trimmed p strategies m m') : resultIds m' = resultIds m := by
  rw [resultIds_eq, resultIds_eq, Pointwise.map_eq Compaction.blockIds (fun _ _ => Trim.blockIds) h.content, h.role, h.toolCallId]

/-! ### Blanking -/

def Located (messages : List UnifiedMessage) (location : Nat × Option Nat) : Prop :=
  location.2 = none → ∀ m, messages[location.1]? = some m → m.role = .tool

variable {location : Nat × Option Nat}

theorem blankResult_trimmed {strategy : CompactionStrategy} (hmem : strategy ∈ strategies)
    (hblanks : Blanks strategy) {messages : List UnifiedMessage}
    (h : Located messages location) : List.Forall₂ (Trimmed p strategies) messages (blankResult messages location).2 := by
  obtain ⟨i, _ | j⟩ := location
  · refine Pointwise.modify Trimmed.refl fun m hm => ⟨rfl, rfl, rfl, ?_⟩
    exact List.forall₂_map_right_iff.mpr (Pointwise.refl (fun _ => .emptied hmem hblanks (h rfl m hm) .kept) _)
  · rw [blankResult]
    split
    · refine Pointwise.modify Trimmed.refl fun m _ => ⟨rfl, rfl, rfl, ?_⟩
      exact Pointwise.modify (fun _ => .kept) fun block _ => .blanked hmem hblanks .kept
    · exact Pointwise.refl Trimmed.refl _

theorem Located.trimmed {messages messages' : List UnifiedMessage}
    (h : Located messages location) (htrimmed : List.Forall₂ (Trimmed p strategies) messages messages') :
    Located messages' location := by
  intro hnone m' hm'
  obtain ⟨m, hm, hedit⟩ := Pointwise.getElem? htrimmed hm'
  rw [hedit.role]
  exact h hnone m hm

theorem located_of_mem_units {messages : List UnifiedMessage} {unit : Nat × Option Nat}
    (h : unit ∈ collectResultUnits messages) : Located messages unit := by
  obtain ⟨⟨m, i⟩, hzip, hunit⟩ := List.mem_flatMap.mp h
  have hget := List.mk_mem_zipIdx_iff_getElem?.mp hzip
  rcases List.mem_append.mp hunit with hunit | hunit
  · split at hunit
    case isTrue htool =>
      obtain rfl := List.mem_singleton.mp hunit
      intro _ m' hm'
      obtain rfl := Option.some.inj (hget.symm.trans hm')
      simp only [Bool.and_eq_true, beq_iff_eq] at htool
      exact htool.1
    case isFalse => exact absurd hunit List.not_mem_nil
  · obtain ⟨⟨block, j⟩, _, hunit⟩ := List.mem_filterMap.mp hunit
    split at hunit
    · obtain rfl := Option.some.inj hunit
      intro hnone
      cases hnone
    · cases hunit

theorem located_of_findResultLocation {callId : String} {messages : List UnifiedMessage}
    (h : findResultLocation callId messages = some location) : Located messages location := by
  induction messages generalizing location with
  | nil => cases h
  | cons msg messages ih =>
    rw [findResultLocation] at h
    split at h
    case isTrue htool =>
      obtain ⟨_, hlocation⟩ := Option.ite_none_right_eq_some.mp h
      obtain rfl := Option.some.inj hlocation
      intro _ m hm
      obtain rfl : msg = m := by simpa using hm
      simp only [Bool.and_eq_true, beq_iff_eq] at htool
      exact htool.1
    case isFalse =>
      dsimp only at h
      split at h
      · obtain rfl := Option.some.inj h
        intro hnone
        cases hnone
      · obtain ⟨earlier, hearlier, rfl⟩ := Option.map_eq_some_iff.mp h
        intro hnone m hm
        exact ih hearlier hnone m (by simpa using hm)

theorem clearToolResults_trimmed {W : Type} {keepPairs : Nat} (hmem : .clearToolResults keepPairs ∈ strategies)
    (s : Prompt W) :
    List.Forall₂ (Trimmed p strategies) s.messages (MemoryPlugin.strategyClearToolResults keepPairs s).2.messages := by
  rw [MemoryPlugin.strategyClearToolResults]
  split
  · exact Pointwise.refl Trimmed.refl _
  · apply Pointwise.foldl Trimmed.refl (fun _ _ _ => Trimmed.trans) Prod.snd (false, s.messages)
    intro state hstate unit hunit
    exact blankResult_trimmed hmem trivial ((located_of_mem_units (List.mem_of_mem_take hunit)).trimmed hstate)

theorem dedupFileReads_trimmed {W : Type} {toolName : String}
    (hmem : .deduplicateFileReads toolName ∈ strategies) (s : Prompt W) :
    List.Forall₂ (Trimmed p strategies) s.messages (MemoryPlugin.strategyDedupFileReads toolName s).2.messages := by
  have hread (reads : Reads) (call : String × String) :
      List.Forall₂ (Trimmed p strategies) reads.messages (reads.read call).messages := by
    rw [Reads.read]
    split
    · exact Pointwise.refl Trimmed.refl _
    · rename_i location hlocation
      split
      · exact blankResult_trimmed hmem trivial (located_of_findResultLocation hlocation)
      · exact Pointwise.refl Trimmed.refl _
  have htrans (a b c : UnifiedMessage) : Trimmed p strategies a b → Trimmed p strategies b c → Trimmed p strategies a c := Trimmed.trans
  apply Pointwise.foldl Trimmed.refl htrans Reads.messages ⟨[], false, s.messages⟩
  intro reads _ i _
  apply Pointwise.foldl Trimmed.refl htrans Reads.messages reads
  intro reads _ call _
  exact hread reads call

theorem clampOversized_trimmed {maxPartTokens : Nat}
    (hmem : .clampOversizedMessages maxPartTokens ∈ strategies) (s : Prompt W) :
    List.Forall₂ (Trimmed p strategies) s.messages (p.strategyClampOversized maxPartTokens s).2.messages := by
  refine List.forall₂_map_right_iff.mpr (List.forall₂_same.mpr fun m _ => ⟨rfl, rfl, rfl, ?_⟩)
  exact List.forall₂_map_right_iff.mpr (Pointwise.refl (fun _ => .clamped hmem .kept) _)

end

/-! ## One step -/

namespace MemoryPlugin
variable {F W : Type} (p : MemoryPlugin F W)

def step (s : Prompt W) (strategy : CompactionStrategy) : Prompt W := (p.runStrategy strategy s).2

/-- The messages a strategy picks. -/
def picks (messages : List UnifiedMessage) : CompactionStrategy → List Nat
  | .offload turns => removableTurnIndices messages turns
  | .summarize turns => removableTurnIndices messages turns
  | .slidingWindow keepMessages => slidingWindowIndices messages keepMessages
  | .dropTurns => removableTurnIndices messages p.config.offloadTurns
  | .dropObservations => observationIndices messages p.config.maxDropSystemObservations
  | .deduplicateFileReads _ | .clearToolResults _ | .clampOversizedMessages _ => []

/-- The messages that go: the closed set of those picked, but for observations, which nothing goes with. -/
def taken (messages : List UnifiedMessage) (strategy : CompactionStrategy) : List Nat :=
  match strategy with
  | .dropObservations => p.picks messages strategy
  | _ => closedIdxs messages (p.picks messages strategy)

/-- A strategy removes what it picks, unless it picks nothing, lacks its extension, or the store refuses. -/
def Removes (s : Prompt W) (strategy : CompactionStrategy) : Prop :=
  p.picks s.messages strategy ≠ [] ∧
    match strategy with
    | .offload _ => ∃ storeTurns world, p.store = some storeTurns ∧
        storeTurns s.world sessionHint (takeOut (p.taken s.messages strategy) s.messages).1 = (.ok (), world)
    | .summarize _ => p.summarizer.isSome
    | _ => True

theorem picks_nil {messages : List UnifiedMessage} {keepMessages : Nat} (h : messages.length ≤ keepMessages) :
    p.picks messages (.slidingWindow keepMessages) = [] := by
  rw [picks, slidingWindowIndices, Nat.sub_eq_zero_of_le h, List.take_zero]

theorem taken_nil {messages : List UnifiedMessage} {strategy : CompactionStrategy} (h : p.picks messages strategy = []) :
    p.taken messages strategy = [] := by
  have hclosed : closedIdxs messages [] = [] := by
    refine List.filter_eq_nil_iff.mpr fun i _ => ?_
    simp [pairingClose]
  unfold taken
  split <;> rw [h]
  exact hclosed

theorem lt_of_mem_picks {messages : List UnifiedMessage} {strategy : CompactionStrategy} {i : Nat}
    (h : i ∈ p.picks messages strategy) : i < messages.length := by
  unfold picks at h
  split at h
  case h_5 =>
    obtain ⟨⟨m, hm, _⟩, _⟩ := mem_observationIndices h
    exact (List.getElem?_eq_some_iff.mp hm).1
  all_goals first
    | exact (mem_removableTurnIndices h).1
    | exact (mem_slidingWindowIndices h).1
    | exact absurd h List.not_mem_nil

theorem mem_taken_of_mem_picks {messages : List UnifiedMessage} {strategy : CompactionStrategy} {i : Nat}
    (h : i ∈ p.picks messages strategy) : i ∈ p.taken messages strategy := by
  unfold taken
  split
  · exact h
  · exact mem_closedIdxs.mpr ⟨p.lt_of_mem_picks h, .inl h⟩

theorem pairwise_taken (messages : List UnifiedMessage) (strategy : CompactionStrategy) :
    (p.taken messages strategy).Pairwise (· < ·) := by
  unfold taken
  split
  · exact pairwise_observationIndices ..
  · exact pairwise_closedIdxs ..

theorem lt_of_mem_taken {messages : List UnifiedMessage} {strategy : CompactionStrategy} {i : Nat}
    (h : i ∈ p.taken messages strategy) : i < messages.length := by
  unfold taken at h
  split at h
  · obtain ⟨⟨m, hm, _⟩, _⟩ := mem_observationIndices h
    exact (List.getElem?_eq_some_iff.mp hm).1
  · exact lt_of_mem_closedIdxs h

theorem removeIndices_taken (messages : List UnifiedMessage) (strategy : CompactionStrategy) :
    removeIndices messages (p.taken messages strategy) =
      removing (fun i => decide (i ∈ p.taken messages strategy)) messages := by
  rw [removeIndices, retain_eq 0 (p.pairwise_taken messages strategy) fun _ _ => Nat.zero_le _]
  simp only [Nat.zero_add]

theorem takeOut_taken (messages : List UnifiedMessage) (strategy : CompactionStrategy) :
    (takeOut (p.taken messages strategy) messages).2 =
      removing (fun i => decide (i ∈ p.taken messages strategy)) messages := by
  rw [takeOut_eq (p.pairwise_taken messages strategy) fun _ => p.lt_of_mem_taken]

def left (messages : List UnifiedMessage) (strategy : CompactionStrategy) : List UnifiedMessage :=
  removing (fun i => decide (i ∈ p.taken messages strategy)) messages

theorem taken_ne_nil {messages : List UnifiedMessage} {strategy : CompactionStrategy}
    (h : p.picks messages strategy ≠ []) : p.taken messages strategy ≠ [] := by
  obtain ⟨i, hi⟩ := List.exists_mem_of_ne_nil _ h
  refine List.ne_nil_of_mem (p.mem_taken_of_mem_picks hi)

theorem left_eq_append {messages : List UnifiedMessage} {strategy : CompactionStrategy}
    (h : p.picks messages strategy ≠ []) :
    ∃ pre first post, messages = pre ++ first :: post ∧ pre.length ∈ p.taken messages strategy ∧
      (∀ j ∈ p.taken messages strategy, pre.length ≤ j) ∧
      p.left messages strategy =
        pre ++ removing (fun i => decide (pre.length + 1 + i ∈ p.taken messages strategy)) post ∧
      ∀ m, (p.left messages strategy).insertIdx ((p.taken messages strategy).headD 0) m =
        pre ++ m :: removing (fun i => decide (pre.length + 1 + i ∈ p.taken messages strategy)) post := by
  have hrising := p.pairwise_taken messages strategy
  have hlt (i : Nat) (hi : i ∈ p.taken messages strategy) := p.lt_of_mem_taken hi
  rw [left]
  rcases htaken : p.taken messages strategy with _ | ⟨k, later⟩
  · exact absurd htaken (p.taken_ne_nil h)
  rw [htaken] at hrising hlt
  obtain ⟨pre, first, post, rfl, rfl⟩ := exists_split (hlt k List.mem_cons_self)
  obtain ⟨hlater, _⟩ := List.pairwise_cons.mp hrising
  have hshift : removing (fun i => decide (pre.length + 1 + i ∈ pre.length :: later)) post =
      removing (fun i => decide (pre.length + 1 + i ∈ later)) post := by
    refine removing_congr fun i _ => ?_
    have hne : pre.length + 1 + i ≠ pre.length := by omega
    simp [hne]
  refine ⟨pre, first, post, rfl, List.mem_cons_self, ?_, ?_, fun m => ?_⟩
  · intro j hj
    rcases List.mem_cons.mp hj with rfl | hj
    · exact Nat.le_refl _
    · exact Nat.le_of_lt (hlater j hj)
  · rw [removing_first hlater, hshift]
  · rw [removing_first hlater, hshift, List.headD_cons, insertIdx_length]

/-- The three kinds of step. A summary stands in the place of the first message that goes. -/
inductive Effect (s : Prompt W) (strategy : CompactionStrategy) (messages' : List UnifiedMessage) : Prop where
  | edited : ¬ p.Removes s strategy → List.Forall₂ (Trimmed p [strategy]) s.messages messages' → Effect s strategy messages'
  | removed : p.Removes s strategy → (∀ turns, strategy ≠ .summarize turns) → messages' = p.left s.messages strategy →
      Effect s strategy messages'
  | summarized {turns : Nat} (summary : String) : p.Removes s strategy → strategy = .summarize turns →
      messages' = (p.left s.messages strategy).insertIdx ((p.taken s.messages strategy).headD 0)
        (UnifiedMessage.user summary) →
      Effect s strategy messages'

variable {p} in
theorem Effect.same {s : Prompt W} {strategy : CompactionStrategy} (h : ¬ p.Removes s strategy) :
    p.Effect s strategy s.messages := .edited h (Pointwise.refl Trimmed.refl _)

theorem offload_effect (turns : Nat) (s : Prompt W) :
    p.Effect s (.offload turns) (p.strategyOffload turns s).2.messages := by
  rw [strategyOffload]
  rcases hstore : p.store with _ | storeTurns
  · refine .same fun ⟨_, _, _, hsome, _⟩ => ?_
    rw [hstore] at hsome
    cases hsome
  dsimp only
  split
  case isTrue hempty => exact .same fun h => h.1 (List.isEmpty_iff.mp hempty)
  case isFalse hpicks =>
    have hpicks : p.picks s.messages (.offload turns) ≠ [] := fun hnil => hpicks (List.isEmpty_iff.mpr hnil)
    split
    case h_1 error world herror =>
      -- the turns go back where they were
      rw [putBack_takeOut (pairwise_closedIdxs ..) fun _ => lt_of_mem_closedIdxs]
      refine .same fun ⟨_, _, _, hsome, hok⟩ => ?_
      obtain rfl := Option.some.inj (hstore.symm.trans hsome)
      have hcontra := herror.symm.trans hok
      cases hcontra
    case h_2 world hok =>
      exact .removed ⟨hpicks, storeTurns, world, hstore, hok⟩ nofun (p.takeOut_taken s.messages (.offload turns))

theorem summarize_effect (turns : Nat) (s : Prompt W) :
    p.Effect s (.summarize turns) (p.strategySummarize turns s).2.messages := by
  rw [strategySummarize]
  rcases hsummarizer : p.summarizer with _ | summarize
  · refine .same fun ⟨_, hsome⟩ => ?_
    rw [hsummarizer] at hsome
    cases hsome
  dsimp only
  split
  case isTrue hempty => exact .same fun h => h.1 (List.isEmpty_iff.mp hempty)
  case isFalse hpicks =>
    refine .summarized (summarize s.world (takeOut (closedIdxs s.messages (removableTurnIndices s.messages turns))
      s.messages).1).1 ⟨fun hnil => hpicks (List.isEmpty_iff.mpr hnil), ?_⟩ rfl ?_
    · rw [hsummarizer]
      rfl
    · rw [left, ← takeOut_taken]
      rfl

theorem slidingWindow_effect (keepMessages : Nat) (s : Prompt W) :
    p.Effect s (.slidingWindow keepMessages) (strategySlidingWindow keepMessages s).2.messages := by
  rw [strategySlidingWindow]
  split
  case isTrue hshort => exact .same fun h => h.1 (p.picks_nil hshort)
  case isFalse =>
    show p.Effect s _ (removeIndices s.messages (p.taken s.messages (.slidingWindow keepMessages)))
    rw [removeIndices_taken]
    by_cases hpicks : p.picks s.messages (.slidingWindow keepMessages) = []
    · simp only [p.taken_nil hpicks, List.not_mem_nil, decide_false, removing_none]
      exact .same fun h => h.1 hpicks
    · exact .removed ⟨hpicks, trivial⟩ nofun rfl

theorem dropObservations_effect (s : Prompt W) :
    p.Effect s .dropObservations (p.strategyDropObservations s).2.messages := by
  rw [strategyDropObservations]
  split
  case isTrue hempty => exact .same fun h => h.1 (List.isEmpty_iff.mp hempty)
  case isFalse hpicks =>
    exact .removed ⟨fun hnil => hpicks (List.isEmpty_iff.mpr hnil), trivial⟩ nofun
      (p.removeIndices_taken s.messages .dropObservations)

theorem dropTurns_effect (s : Prompt W) : p.Effect s .dropTurns (p.strategyDropTurns s).2.messages := by
  rw [strategyDropTurns]
  split
  case isTrue hempty => exact .same fun h => h.1 (List.isEmpty_iff.mp hempty)
  case isFalse hpicks =>
    exact .removed ⟨fun hnil => hpicks (List.isEmpty_iff.mpr hnil), trivial⟩ nofun
      (p.removeIndices_taken s.messages .dropTurns)

/-- **Steps**: a strategy edits contents in place, or removes messages, or puts a summary in their place. -/
theorem step_effect (s : Prompt W) (strategy : CompactionStrategy) : p.Effect s strategy (p.step s strategy).messages := by
  have hmem : strategy ∈ [strategy] := List.mem_singleton_self _
  cases strategy with
  | offload turns => exact p.offload_effect turns s
  | summarize turns => exact p.summarize_effect turns s
  | deduplicateFileReads toolName => exact .edited (fun h => h.1 rfl) (dedupFileReads_trimmed hmem s)
  | clearToolResults keepPairs => exact .edited (fun h => h.1 rfl) (clearToolResults_trimmed hmem s)
  | clampOversizedMessages maxPartTokens => exact .edited (fun h => h.1 rfl) (clampOversized_trimmed hmem s)
  | slidingWindow keepMessages => exact p.slidingWindow_effect keepMessages s
  | dropObservations => exact p.dropObservations_effect s
  | dropTurns => exact p.dropTurns_effect s

theorem mem_step {s : Prompt W} {strategy : CompactionStrategy} {m' : UnifiedMessage}
    (h : m' ∈ (p.step s strategy).messages) :
    (∃ m ∈ s.messages, Trimmed p [strategy] m m') ∨ ∃ summary, m' = UnifiedMessage.user summary := by
  rcases p.step_effect s strategy with ⟨_, hedit⟩ | ⟨_, _, hleft⟩ | ⟨summary, hremoves, rfl, hleft⟩
  · obtain ⟨i, hi⟩ := List.mem_iff_getElem?.mp h
    obtain ⟨m, hm, htrimmed⟩ := Pointwise.getElem? hedit hi
    exact .inl ⟨m, List.mem_of_getElem? hm, htrimmed⟩
  · rw [hleft] at h
    exact .inl ⟨m', mem_of_mem_removing _ h, .refl m'⟩
  · rw [hleft] at h
    rcases List.eq_or_mem_of_mem_insertIdx h with rfl | h
    · exact .inr ⟨summary, rfl⟩
    · exact .inl ⟨m', mem_of_mem_removing _ h, .refl m'⟩

/-! ## A compaction as a run -/

/-- The strategies a pass comes to. -/
def ranInPass (budget : Budget) : List CompactionStrategy → Prompt W → List CompactionStrategy
  | [], _ => []
  | strategy :: strategies, s =>
    strategy :: match p.runStrategy strategy s with
      | (.ok (some _), s') =>
        if budget != .unlimited && !overBudget s'.messages (p.countTokens s'.messages) budget then []
        else ranInPass budget strategies s'
      | (_, s') => ranInPass budget strategies s'

/-- The strategies the passes come to, of which so many are left. -/
def ranInPasses (budget : Budget) : Nat → Progress W → List CompactionStrategy
  | 0, _ => []
  | left + 1, state =>
    let pass := p.runPass budget p.config.strategies state.lastError state.prompt
    p.ranInPass budget p.config.strategies state.prompt ++
      if p.isDone budget state.prompt pass then []
      else ranInPasses budget left { pass with actions := state.actions ++ pass.actions }

def ran (budget : Budget) (s : Prompt W) : List CompactionStrategy := p.ranInPasses budget 4 ⟨[], none, s⟩

theorem runPass_run (budget : Budget) (strategies : List CompactionStrategy) (lastError : Option String) (s : Prompt W) :
    (p.runPass budget strategies lastError s).prompt = run p.step s (p.ranInPass budget strategies s) := by
  induction strategies generalizing lastError s with
  | nil => rfl
  | cons strategy strategies ih =>
    rw [runPass, ranInPass, run_cons, step]
    rcases p.runStrategy strategy s with ⟨_ | _ | action, s'⟩
    · exact ih ..
    · exact ih ..
    · dsimp only
      split
      · rfl
      · exact ih ..

theorem runPasses_run (budget : Budget) (left : Nat) (state : Progress W) :
    (p.runPasses budget left state).prompt = run p.step state.prompt (p.ranInPasses budget left state) := by
  induction left generalizing state with
  | zero => rfl
  | succ left ih =>
    rw [runPasses, ranInPasses, run_append, ← p.runPass_run budget _ state.lastError]
    split
    · rfl
    · exact ih _

/-- **A compaction is the run of the strategies it comes to.** -/
theorem compressInner_run (budget : Budget) (s : Prompt W) :
    (p.compressInner budget s).2 = run p.step s (p.ran budget s) := p.runPasses_run budget 4 ⟨[], none, s⟩

end MemoryPlugin
end Cuca.Memory.Compaction
