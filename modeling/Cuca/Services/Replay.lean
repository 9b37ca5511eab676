import Cuca.Lib.Segments
import Cuca.Session.Record

/-!
# Replayed sessions

The records of a session are put together to turns. A turn ends with the record that completes the pair of latency and token usage;
what is recorded after the last such pair is a turn of its own, without a completion.

* `TurnBuilder`, `SessionReplay.assemble`, `SessionReplay.load` : the turns of a session;
* `ended`, `turnOf` : where a turn ends, and what is in it;
* `Partitioned`, `assemble_partitioned` : the turns are those of the groups that the records are cut into.
-/

namespace Cuca.Replay
open Session Segments

/-! ## Turns -/

/-- `warnFraction` tells whether so many records of at most so many are near the cap. -/
structure ReplayConfig where
  maxRecords : Nat
  maxTurnBlocks : Nat
  warnFraction : Option (Nat → Nat → Bool)

structure ReplayUsage where
  records : Nat
  maxRecords : Nat
  blocks : Nat
  turns : Nat
  nearCap : Bool

structure ReplayCompletion where
  durationMs : Nat
  promptTokens : Nat
  completionTokens : Nat
  deriving DecidableEq, Repr

inductive ReplayNote where
  | modelSwap (fromModel toModel : String) (reason : String)
  | fork (fromPoint : String) (toSession : String)
  deriving DecidableEq, Repr

structure ReplayTurn where
  systemPrompts : List String
  messages : List UnifiedMessage
  blocks : List MessageContentBlock
  completion : Option ReplayCompletion
  notes : List ReplayNote
  firstSequence : Nat
  lastSequence : Nat

def ReplayTurn.isComplete (turn : ReplayTurn) : Bool := turn.completion.isSome

structure ReplayTrajectory where
  sessionId : String
  turns : List ReplayTurn
  usage : ReplayUsage

/-- A turn's records, before its bounds are checked. -/
structure TurnBuilder where
  systemPrompts : List String
  messages : List UnifiedMessage
  blocks : List MessageContentBlock
  notes : List ReplayNote
  pendingDurationMs : Option Nat
  pendingTokens : Option (Nat × Nat)
  firstSequence : Nat
  lastSequence : Nat

namespace TurnBuilder

def new (firstSequence : Nat) : TurnBuilder := ⟨[], [], [], [], none, none, firstSequence, firstSequence⟩

def push (turn : TurnBuilder) : SessionEvent → TurnBuilder
  | .systemPrompt text => { turn with systemPrompts := turn.systemPrompts ++ [text] }
  | .message role content => { turn with messages := turn.messages ++ [⟨role, content, none, none⟩] }
  | .reasoning reasoning signature => { turn with blocks := turn.blocks ++ [.thinking reasoning signature] }
  | .output text => { turn with blocks := turn.blocks ++ [.text text] }
  | .toolCall id name arguments => { turn with blocks := turn.blocks ++ [.toolCall id name arguments] }
  | .toolResult toolCallId output _ _ _ => { turn with blocks := turn.blocks ++ [.toolResult toolCallId output] }
  | .latency durationMs => { turn with pendingDurationMs := some durationMs }
  | .tokenUsage promptTokens completionTokens => { turn with pendingTokens := some (promptTokens, completionTokens) }
  | .modelSwap fromModel toModel reason => { turn with notes := turn.notes ++ [.modelSwap fromModel toModel reason] }
  | .fork fromPoint toSession => { turn with notes := turn.notes ++ [.fork fromPoint toSession] }

def record (current : Option TurnBuilder) (r : SessionRecord) : TurnBuilder :=
  { current.getD (.new r.sequence) with lastSequence := r.sequence }.push r.event

def isTerminated (turn : TurnBuilder) : Bool := turn.pendingDurationMs.isSome && turn.pendingTokens.isSome

def finish (turn : TurnBuilder) (sessionId : String) (maxTurnBlocks : Nat) : Except PluginError ReplayTurn :=
  if turn.blocks.length > maxTurnBlocks then
    let first := turn.firstSequence
    let last := turn.lastSequence
    let blocks := turn.blocks.length
    .error (.validation "max_turn_blocks"
      (s!"the turn covering sequences {first}..={last} of session `{sessionId}` holds {blocks} " ++
        s!"blocks, over the configured max_turn_blocks of {maxTurnBlocks}; replay refuses rather than " ++
        "truncating a turn: raise the bound with ReplayConfig::new"))
  else
    let completion := match turn.pendingDurationMs, turn.pendingTokens with
      | some durationMs, some (promptTokens, completionTokens) => some ⟨durationMs, promptTokens, completionTokens⟩
      | _, _ => none
    .ok ⟨turn.systemPrompts, turn.messages, turn.blocks, completion, turn.notes, turn.firstSequence, turn.lastSequence⟩

end TurnBuilder

structure SessionReplay (S : Type) where
  backend : SessionBackend S
  config : ReplayConfig

/-! ## Segmentation -/

/-- Two records in a row of which the second has no higher number. -/
def disorder : List SessionRecord → Option (Nat × Nat)
  | first :: second :: records =>
    if second.sequence ≤ first.sequence then some (first.sequence, second.sequence) else disorder (second :: records)
  | _ => none

namespace SessionReplay

/-- The loop of `assemble`: the turns so far, and the one that is under way. -/
def segment (config : ReplayConfig) (sessionId : String) (turns : List ReplayTurn) (current : Option TurnBuilder) :
    List SessionRecord → Except PluginError (List ReplayTurn)
  | [] =>
    match current with
    | none => .ok turns
    | some turn =>
      match turn.finish sessionId config.maxTurnBlocks with
      | .error e => .error e
      | .ok done => .ok (turns ++ [done])
  | record :: records =>
    let turn := TurnBuilder.record current record
    if turn.isTerminated then
      match turn.finish sessionId config.maxTurnBlocks with
      | .error e => .error e
      | .ok done => segment config sessionId (turns ++ [done]) none records
    else segment config sessionId turns (some turn) records

def assemble (config : ReplayConfig) (sessionId : String) (records : List SessionRecord) :
    Except PluginError ReplayTrajectory :=
  if records.length > config.maxRecords then
    let retained := records.length
    let maxRecords := config.maxRecords
    .error (.validation "max_records"
      (s!"session `{sessionId}` retains {retained} records, over the configured max_records " ++
        s!"of {maxRecords}; replay refuses rather than truncating a trajectory, since a shortened " ++
        "one is a wrong fixture: raise the bound with ReplayConfig::new"))
  else
    match disorder records with
    | some (before, after) =>
      .error (.validation "sequence"
        (s!"session `{sessionId}` records are not strictly increasing: sequence {after} " ++
          s!"follows {before}; replay refuses an ambiguous order rather than guessing it"))
    | none =>
      match segment config sessionId [] none records with
      | .error e => .error e
      | .ok turns =>
        let usage : ReplayUsage := ⟨records.length, config.maxRecords, (turns.map fun turn => turn.blocks.length).sum, turns.length,
          (config.warnFraction.map fun near => near records.length config.maxRecords).getD false⟩
        .ok ⟨sessionId, turns, usage⟩

section
variable {S : Type} (r : SessionReplay S)

def load (s : S) (sessionId : String) : Except PluginError ReplayTrajectory × S :=
  match r.backend.replay s sessionId with
  | (.error e, s) => (.error e, s)
  | (.ok records, s) => (assemble r.config sessionId records, s)

def loadPrefix (s : S) (sessionId : String) (uptoSequence : Nat) : Except PluginError ReplayTrajectory × S :=
  match r.backend.replay s sessionId with
  | (.error e, s) => (.error e, s)
  | (.ok records, s) =>
    let retained := records.filter fun record => record.sequence ≤ uptoSequence
    if retained.isEmpty then
      (.error (.validation "point_id" s!"no record at or below sequence {uptoSequence} in session `{sessionId}`"), s)
    else (assemble r.config sessionId retained, s)

end

end SessionReplay

/-! ## What a turn is made of -/

section
variable (event : SessionEvent)

def promptOf : Option String :=
  match event with
  | .systemPrompt text => some text
  | _ => none

def messageOf : Option UnifiedMessage :=
  match event with
  | .message role content => some ⟨role, content, none, none⟩
  | _ => none

def blockOf : Option MessageContentBlock :=
  match event with
  | .reasoning reasoning signature => some (.thinking reasoning signature)
  | .output text => some (.text text)
  | .toolCall id name arguments => some (.toolCall id name arguments)
  | .toolResult toolCallId output _ _ _ => some (.toolResult toolCallId output)
  | _ => none

def noteOf : Option ReplayNote :=
  match event with
  | .modelSwap fromModel toModel reason => some (.modelSwap fromModel toModel reason)
  | .fork fromPoint toSession => some (.fork fromPoint toSession)
  | _ => none

def latencyOf : Option Nat :=
  match event with
  | .latency durationMs => some durationMs
  | _ => none

def tokensOf : Option (Nat × Nat) :=
  match event with
  | .tokenUsage promptTokens completionTokens => some (promptTokens, completionTokens)
  | _ => none

end

def gather {β : Type} (f : SessionEvent → Option β) (group : List SessionRecord) : List β := group.filterMap fun r => f r.event

def ended (group : List SessionRecord) : Bool :=
  (gather latencyOf group).getLast?.isSome && (gather tokensOf group).getLast?.isSome

def completionOf (group : List SessionRecord) : Option ReplayCompletion :=
  match (gather latencyOf group).getLast?, (gather tokensOf group).getLast? with
  | some durationMs, some (promptTokens, completionTokens) => some ⟨durationMs, promptTokens, completionTokens⟩
  | _, _ => none

def firstSequence (group : List SessionRecord) : Nat := (group.head?.map SessionRecord.sequence).getD 0

def lastSequence (group : List SessionRecord) : Nat := (group.getLast?.map SessionRecord.sequence).getD 0

/-- The turn of a group. -/
def turnOf (group : List SessionRecord) : ReplayTurn where
  systemPrompts := gather promptOf group
  messages := gather messageOf group
  blocks := gather blockOf group
  completion := completionOf group
  notes := gather noteOf group
  firstSequence := firstSequence group
  lastSequence := lastSequence group

/-- The builder that has seen a group. -/
def builderOf (group : List SessionRecord) : TurnBuilder where
  systemPrompts := gather promptOf group
  messages := gather messageOf group
  blocks := gather blockOf group
  notes := gather noteOf group
  pendingDurationMs := (gather latencyOf group).getLast?
  pendingTokens := (gather tokensOf group).getLast?
  firstSequence := firstSequence group
  lastSequence := lastSequence group

def Bounded (config : ReplayConfig) (group : List SessionRecord) : Prop := (gather blockOf group).length ≤ config.maxTurnBlocks

@[simp] theorem gather_nil {β : Type} (f : SessionEvent → Option β) : gather f [] = [] := rfl

theorem gather_append {β : Type} (f : SessionEvent → Option β) (group group' : List SessionRecord) :
    gather f (group ++ group') = gather f group ++ gather f group' := List.filterMap_append

theorem gather_flatten {β : Type} (f : SessionEvent → Option β) (groups : List (List SessionRecord)) :
    gather f groups.flatten = groups.flatMap (gather f) := by
  induction groups with
  | nil => rfl
  | cons group groups ih => rw [List.flatten_cons, gather_append, ih, List.flatMap_cons]

theorem gather_concat {β : Type} (f : SessionEvent → Option β) (group : List SessionRecord) (r : SessionRecord) :
    gather f (group ++ [r]) = gather f group ++ (f r.event).toList := by
  rw [gather_append, gather, gather, List.filterMap_cons]
  rcases f r.event with _ | x
  · rfl
  · rfl

def current (group : List SessionRecord) : Option TurnBuilder := if group.isEmpty then none else some (builderOf group)

theorem record_current (group : List SessionRecord) (r : SessionRecord) :
    TurnBuilder.record (current group) r = builderOf (group ++ [r]) := by
  have hlast : lastSequence (group ++ [r]) = r.sequence := by rw [lastSequence, List.getLast?_concat]; rfl
  have hstart : { (current group).getD (TurnBuilder.new r.sequence) with lastSequence := r.sequence } =
      ⟨gather promptOf group, gather messageOf group, gather blockOf group, gather noteOf group, (gather latencyOf group).getLast?,
        (gather tokensOf group).getLast?, firstSequence (group ++ [r]), r.sequence⟩ := by
    rcases group with _ | ⟨x, group⟩
    · rfl
    · rfl
  rw [TurnBuilder.record, hstart, builderOf, hlast]
  simp only [gather_concat]
  cases r.event with
  | _ => simp [TurnBuilder.push, promptOf, messageOf, blockOf, noteOf, latencyOf, tokensOf]

theorem finish_builderOf (config : ReplayConfig) (sessionId : String) (group : List SessionRecord) :
    (Bounded config group → (builderOf group).finish sessionId config.maxTurnBlocks = .ok (turnOf group)) ∧
      (¬ Bounded config group → ∃ e, (builderOf group).finish sessionId config.maxTurnBlocks = .error e) := by
  constructor
  · intro h
    exact if_neg (Nat.not_lt.mpr h)
  · intro h
    exact ⟨_, if_pos (Nat.not_le.mp h)⟩

/-! ## The turns -/

theorem segment_eq_ok_iff (config : ReplayConfig) (sessionId : String) (turns : List ReplayTurn)
    (group records : List SessionRecord) (found : List ReplayTurn) :
    SessionReplay.segment config sessionId turns (current group) records = .ok found ↔
      (∀ g ∈ cut ended group records, Bounded config g) ∧ found = turns ++ (cut ended group records).map turnOf := by
  induction records generalizing turns group with
  | nil =>
    rcases group with _ | ⟨x, group⟩
    · rw [cut, if_pos List.isEmpty_nil, List.map_nil, List.append_nil]
      exact ⟨fun h => ⟨by simp, (Except.ok.inj h).symm⟩, fun h => congrArg Except.ok h.2.symm⟩
    · obtain ⟨hok, herror⟩ := finish_builderOf config sessionId (x :: group)
      have hcut : cut ended (x :: group) [] = [x :: group] := rfl
      rw [hcut, List.forall_mem_singleton, List.map_singleton]
      unfold SessionReplay.segment current
      rw [if_neg (by simp)]
      dsimp only
      by_cases hbounded : Bounded config (x :: group)
      · rw [hok hbounded, and_iff_right hbounded]
        exact ⟨fun h => (Except.ok.inj h).symm, fun h => congrArg Except.ok h.symm⟩
      · obtain ⟨e, he⟩ := herror hbounded
        rw [he]
        exact iff_of_false (by simp) fun h => hbounded h.1
  | cons r records ih =>
    obtain ⟨hok, herror⟩ := finish_builderOf config sessionId (group ++ [r])
    rw [cut, SessionReplay.segment, record_current]
    have hended : (builderOf (group ++ [r])).isTerminated = ended (group ++ [r]) := rfl
    rw [hended]
    rcases ended (group ++ [r]) with _ | _
    · rw [if_neg Bool.false_ne_true, if_neg Bool.false_ne_true]
      have hcurrent : some (builderOf (group ++ [r])) = current (group ++ [r]) := by rw [current, if_neg (by simp)]
      rw [hcurrent]
      exact ih turns (group ++ [r])
    · rw [if_pos rfl, if_pos rfl, List.forall_mem_cons, List.map_cons]
      by_cases hbounded : Bounded config (group ++ [r])
      · rw [hok hbounded, and_iff_right hbounded, List.append_cons turns]
        exact ih (turns ++ [turnOf (group ++ [r])]) []
      · obtain ⟨e, he⟩ := herror hbounded
        rw [he]
        exact iff_of_false (by simp) fun h => hbounded h.1.1

def Increasing (records : List SessionRecord) : Prop := records.Pairwise fun first second => first.sequence < second.sequence

theorem disorder_none_iff (records : List SessionRecord) : disorder records = none ↔ Increasing records := by
  have hchain : disorder records = none ↔ records.IsChain fun first second => first.sequence < second.sequence := by
    induction records with
    | nil => simp [disorder]
    | cons first records ih =>
      rcases records with _ | ⟨second, records⟩
      · simp [disorder]
      · rw [disorder, List.isChain_cons_cons, ← ih]
        by_cases hle : second.sequence ≤ first.sequence
        · rw [if_pos hle]
          exact iff_of_false nofun fun h => Nat.not_lt.mpr hle h.1
        · rw [if_neg hle, and_iff_right (Nat.not_le.mp hle)]
  rw [hchain]
  have htrans : Trans (fun first second : SessionRecord => first.sequence < second.sequence)
      (fun first second : SessionRecord => first.sequence < second.sequence)
      (fun first second : SessionRecord => first.sequence < second.sequence) := ⟨Nat.lt_trans⟩
  exact List.isChain_iff_pairwise

/-- **The trajectory** of records in order: the turns are those of the groups that the records are cut into. -/
theorem assemble_eq_ok_iff (config : ReplayConfig) (sessionId : String) (records : List SessionRecord)
    (turns : List ReplayTurn) :
    (∃ usage, SessionReplay.assemble config sessionId records = .ok ⟨sessionId, turns, usage⟩) ↔
      records.length ≤ config.maxRecords ∧ Increasing records ∧
        (∀ g ∈ cut ended [] records, Bounded config g) ∧ turns = (cut ended [] records).map turnOf := by
  have hsegment := segment_eq_ok_iff config sessionId [] [] records
  rw [← disorder_none_iff, SessionReplay.assemble]
  by_cases hmax : records.length > config.maxRecords
  · rw [if_pos hmax]
    exact iff_of_false (by simp) fun h => Nat.not_lt.mpr h.1 hmax
  · rw [if_neg hmax, and_iff_right (Nat.not_lt.mp hmax)]
    rcases disorder records with _ | ⟨before, after⟩
    · rw [and_iff_right rfl]
      dsimp only
      have hcurrent : current [] = none := rfl
      rw [hcurrent] at hsegment
      rcases hresult : SessionReplay.segment config sessionId [] none records with e | found
      · rw [hresult] at hsegment
        exact iff_of_false (by simp) fun h => absurd ((hsegment turns).mpr h) (by simp)
      · rw [hresult] at hsegment
        have hturns := hsegment turns
        rw [List.nil_append] at hturns
        rw [← hturns]
        dsimp only
        constructor
        · rintro ⟨usage, h⟩
          rw [(ReplayTrajectory.mk.inj (Except.ok.inj h)).2.1]
        · intro h
          obtain rfl := Except.ok.inj h
          exact ⟨_, rfl⟩
    · exact iff_of_false (by simp) (by simp)

/-! ## The partition -/

/-- The turns are those of groups that are cut out of the records: their ranges follow each other and cover their records, what they
have is what the records have in this order, and all but the last are complete. -/
structure Partitioned (groups : List (List SessionRecord)) (turns : List ReplayTurn) (records : List SessionRecord) : Prop where
  cut : IsCut ended groups records
  eachTurn : turns = groups.map turnOf
  ranges : turns.Pairwise fun turn later => turn.lastSequence < later.firstSequence
  covered : ∀ group ∈ groups, ∀ r ∈ group,
    (turnOf group).firstSequence ≤ r.sequence ∧ r.sequence ≤ (turnOf group).lastSequence
  systemPrompts : turns.flatMap (·.systemPrompts) = gather promptOf records
  messages : turns.flatMap (·.messages) = gather messageOf records
  blocks : turns.flatMap (·.blocks) = gather blockOf records
  notes : turns.flatMap (·.notes) = gather noteOf records
  complete : ∀ turn ∈ turns.dropLast, turn.isComplete = true

def InBounds (config : ReplayConfig) (records : List SessionRecord) : Prop :=
  records.length ≤ config.maxRecords ∧ ∀ groups, IsCut ended groups records → ∀ g ∈ groups, Bounded config g

theorem isComplete_turnOf (group : List SessionRecord) : (turnOf group).isComplete = ended group := by
  unfold ReplayTurn.isComplete turnOf completionOf ended
  dsimp only
  rcases (gather latencyOf group).getLast? with _ | durationMs
  · rfl
  · rcases (gather tokensOf group).getLast? with _ | tokens
    · rfl
    · rfl

theorem firstSequence_le {group : List SessionRecord} (h : Increasing group) {r : SessionRecord} (hr : r ∈ group) :
    firstSequence group ≤ r.sequence := by
  rcases group with _ | ⟨first, group⟩
  · exact absurd hr List.not_mem_nil
  · rcases List.mem_cons.mp hr with rfl | hrest
    · exact Nat.le_refl _
    · exact Nat.le_of_lt ((List.pairwise_cons.mp h).1 r hrest)

theorem le_lastSequence {group : List SessionRecord} (h : Increasing group) {r : SessionRecord} (hr : r ∈ group) :
    r.sequence ≤ lastSequence group := by
  rcases List.eq_nil_or_concat' group with rfl | ⟨before, last, rfl⟩
  · exact absurd hr List.not_mem_nil
  · rw [lastSequence, List.getLast?_concat]
    rcases List.mem_append.mp hr with hbefore | hlast
    · exact Nat.le_of_lt ((List.pairwise_append.mp h).2.2 r hbefore last (List.mem_singleton.mpr rfl))
    · rw [List.mem_singleton.mp hlast]
      exact Nat.le_refl _

theorem firstSequence_mem {group : List SessionRecord} (h : group ≠ []) : ∃ r ∈ group, r.sequence = firstSequence group := by
  rcases group with _ | ⟨first, group⟩
  · exact absurd rfl h
  · exact ⟨first, List.mem_cons_self, rfl⟩

theorem lastSequence_mem {group : List SessionRecord} (h : group ≠ []) : ∃ r ∈ group, r.sequence = lastSequence group := by
  rcases List.eq_nil_or_concat' group with rfl | ⟨before, last, rfl⟩
  · exact absurd rfl h
  · refine ⟨last, List.mem_append_right _ (List.mem_singleton.mpr rfl), ?_⟩
    rw [lastSequence, List.getLast?_concat]
    rfl

theorem partitioned_of_isCut {groups : List (List SessionRecord)} {records : List SessionRecord} (h : IsCut ended groups records)
    (hincreasing : Increasing records) : Partitioned groups (groups.map turnOf) records := by
  have hflatten : Increasing groups.flatten := by rwa [h.flatten]
  obtain ⟨heach, hacross⟩ := List.pairwise_flatten.mp hflatten
  have hgather {β : Type} (f : SessionEvent → Option β) (g : ReplayTurn → List β) (hg : ∀ group, g (turnOf group) = gather f group) :
      (groups.map turnOf).flatMap g = gather f records := by
    rw [← h.flatten, gather_flatten, List.flatMap_map]
    exact List.flatMap_congr fun group _ => hg group
  refine ⟨h, rfl, ?_, fun group hgroup r hr => ?_, hgather promptOf _ fun _ => rfl, hgather messageOf _ fun _ => rfl,
    hgather blockOf _ fun _ => rfl, hgather noteOf _ fun _ => rfl, fun turn hturn => ?_⟩
  · rw [List.pairwise_map]
    refine hacross.imp_of_mem fun {group later} hgroup hlater hlt => ?_
    obtain ⟨last, hlast, hlastSequence⟩ := lastSequence_mem (h.nonempty group hgroup)
    obtain ⟨first, hfirst, hfirstSequence⟩ := firstSequence_mem (h.nonempty later hlater)
    have hboth := hlt last hlast first hfirst
    rwa [hlastSequence, hfirstSequence] at hboth
  · exact ⟨firstSequence_le (heach group hgroup) hr, le_lastSequence (heach group hgroup) hr⟩
  · rw [← List.map_dropLast] at hturn
    obtain ⟨group, hgroup, rfl⟩ := List.mem_map.mp hturn
    rw [isComplete_turnOf]
    exact h.complete group hgroup

/-- **Records in order**, within the bounds, are partitioned. -/
theorem assemble_partitioned (config : ReplayConfig) (sessionId : String) {records : List SessionRecord}
    (hincreasing : Increasing records) (hbounds : InBounds config records) :
    ∃ groups turns usage, SessionReplay.assemble config sessionId records = .ok ⟨sessionId, turns, usage⟩ ∧
      Partitioned groups turns records := by
  have hopen : Open ended ([] : List SessionRecord) := fun part hpart => by rw [List.prefix_nil.mp hpart]; rfl
  have hcut : IsCut ended (cut ended [] records) records := cut_isCut hopen records
  obtain ⟨usage, hassemble⟩ := (assemble_eq_ok_iff config sessionId records _).mpr
    ⟨hbounds.1, hincreasing, hbounds.2 _ hcut, rfl⟩
  exact ⟨_, _, usage, hassemble, partitioned_of_isCut hcut hincreasing⟩

end Cuca.Replay
