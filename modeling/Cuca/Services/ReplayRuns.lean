import Cuca.Services.Replay
import Cuca.Session.Log

/-!
# Recorded sessions, replayed

A turn is recorded by the hooks of the session log: a request, the blocks of the response one by one, and the completion. Loading
the session gives the turns back.

* `RecordedTurn.hooks` : the steps of the hooks of a turn, on one thread;
* `Ready`, `ready_hooks` : what the session holds after the hooks of a turn;
* `replayed` : the partition of records, and the turns of a recorded session.
-/

namespace Cuca.Replay
open Session Segments Transition SessionLogPlugin

/-! ## Recorded turns -/

/-- A request, the blocks of its response and its accounting; the clock tells the time of each entry. -/
structure RecordedTurn where
  messages : List UnifiedMessage
  content : List MessageContentBlock
  durationMs : Nat
  promptTokens : Nat
  completionTokens : Nat
  clock : Nat → Nat

/-- The thread logs up to so many entries. -/
def logged (t : Nat) (clock : Nat → Nat) (start : Nat) : Nat → List Event
  | 0 => []
  | n + 1 => .takeNumber t (clock start) :: .append t :: logged t clock (start + 1) n

def chunkHooks (t : Nat) (clock : Nat → Nat) (start : Nat) : List MessageContentBlock → List Event
  | [] => []
  | chunk :: chunks => .onStreamChunk t chunk :: logged t clock start 1 ++ chunkHooks t clock (start + 1) chunks

/-- The hooks of a turn, each run to its end. -/
def RecordedTurn.hooks (turn : RecordedTurn) (t : Nat) : List Event :=
  .onRequest t turn.messages :: logged t turn.clock 0 turn.messages.length ++
    (chunkHooks t turn.clock turn.messages.length turn.content ++
      .onResponseComplete t turn.durationMs turn.promptTokens turn.completionTokens ::
        logged t turn.clock (turn.messages.length + turn.content.length) 2)

def isImage : MessageContentBlock → Bool
  | .imageBase64 _ _ => true
  | _ => false

def RecordedTurn.blocks (turn : RecordedTurn) : List MessageContentBlock := turn.content.filter fun b => !isImage b

def Asked (event : SessionEvent) : Prop := latencyOf event = none ∧ tokensOf event = none ∧ blockOf event = none

/-- What the hooks of a turn log. -/
def Records (turn : RecordedTurn) (events : List SessionEvent) : Prop :=
  ∃ asked, (∀ e ∈ asked, Asked e) ∧ events = asked ++ turn.content.filterMap chunkEvent ++
    [.latency turn.durationMs, .tokenUsage turn.promptTokens turn.completionTokens]

theorem requestEvents_length (messages : List UnifiedMessage) (i newCount : Nat) :
    (requestEvents i newCount messages).1.length ≤ messages.length := by
  fun_induction requestEvents i newCount messages <;> grind

theorem requestEvents_asked (messages : List UnifiedMessage) (i newCount : Nat) :
    ∀ e ∈ (requestEvents i newCount messages).1, Asked e := by
  fun_induction requestEvents i newCount messages <;> grind [Asked, latencyOf, tokensOf, blockOf]

/-! ## The hooks, one after the other -/

section
variable {S : Type} {p : SessionLogPlugin S} {records : S → String → List SessionRecord} {t : Nat}

/-- The backend takes the records that are appended. -/
def Accepted (p : SessionLogPlugin S) (s : LogState S) : Event → Prop
  | .append t => ∀ r, s.held t = some r → (p.backend.append s.store r).1 = .ok ()
  | _ => True

/-- The session holds these events, in their order, and the counter is behind the last. -/
structure Holds (p : SessionLogPlugin S) (records : S → String → List SessionRecord) (s : LogState S)
    (events : List SessionEvent) : Prop where
  counter : (s.sequence.lookup p.sessionId).getD 0 = events.length
  stored : (records s.store p.sessionId).map (fun r => (r.event, r.sequence)) = events.zipIdx

/-- The session holds these events, and no hook is under way. -/
structure Ready (p : SessionLogPlugin S) (records : S → String → List SessionRecord) (t : Nat) (s : LogState S)
    (events : List SessionEvent) : Prop extends Holds p records s events where
  idle : s.threads t = .idle
  free : s.requesting = none

theorem ready_finish {s : LogState S} {events : List SessionEvent} {call : Call} (h : Holds p records s events)
    (hcursor : call.cursor = none → s.requesting = none) : Ready p records t (p.finish s t call) events := by
  unfold finish
  rcases hcall : call.cursor with _ | newCount
  · exact ⟨⟨h.counter, h.stored⟩, Function.update_self .., hcursor hcall⟩
  · exact ⟨⟨h.counter, h.stored⟩, Function.update_self .., rfl⟩

theorem run_logged_idle {s : LogState S} (hidle : s.threads t = .idle) (clock : Nat → Nat) (start n : Nat) :
    run p.step s (logged t clock start n) = s := by
  induction n generalizing start with
  | zero => rfl
  | succ n ih =>
    have hnumber : p.step s (.takeNumber t (clock start)) = s := by
      show takeNumber s t (clock start) = s
      rw [takeNumber, hidle]
    have happend : p.step s (.append t) = s := by
      show p.append s t = s
      rw [SessionLogPlugin.append, hidle]
    rw [logged, run_cons, hnumber, run_cons, happend, ih]

theorem threads_setThread (s : LogState S) (t : Nat) (thread : Thread) : (setThread s t thread).threads t = thread :=
  Function.update_self ..

theorem takeNumber_logging {s : LogState S} {sessionId : String} {entry : Entry} {entries : List Entry} {cursor : Option Nat}
    (hthread : s.threads t = .logging ⟨sessionId, entry :: entries, cursor⟩) (now : Nat) :
    takeNumber s t now =
      setThread { s with sequence := s.sequence.insert sessionId ((s.sequence.lookup sessionId).getD 0 + 1) } t
        (.appending ⟨sessionId, (s.sequence.lookup sessionId).getD 0, entry.timestampMs.getD now, entry.event⟩
          ⟨sessionId, entries, cursor⟩) := by
  rw [takeNumber, hthread]

theorem append_appending {s : LogState S} {record : SessionRecord} {call : Call} {store : S}
    (hthread : s.threads t = .appending record call) (happend : p.backend.append s.store record = (.ok (), store)) :
    p.append s t = p.proceed { s with store := store } t call := by
  rw [SessionLogPlugin.append, hthread]
  dsimp only
  rw [happend]

theorem Holds.appended (hcorrect : p.backend.Correct records) {s s' : LogState S} {events : List SessionEvent}
    (h : Holds p records s events) {record : SessionRecord} {store : S} (hsession : record.sessionId = p.sessionId)
    (hsequence : record.sequence = events.length) (happend : p.backend.append s.store record = (.ok (), store))
    (hstore : s'.store = store) (hcounter : s'.sequence = s.sequence.insert p.sessionId (events.length + 1)) :
    Holds p records s' (events ++ [record.event]) := by
  refine ⟨?_, ?_⟩
  · rw [hcounter, AList.lookup_insert, Option.getD_some, List.length_append, List.length_singleton]
  · rw [hstore, hcorrect.append_ok happend, hsession, Function.update_self, List.map_append, h.stored, List.zipIdx_append,
      List.map_singleton, hsequence, Nat.zero_add]
    rfl

theorem ready_logged (hcorrect : p.backend.Correct records) {s : LogState S} {events : List SessionEvent} {entries : List Entry}
    {cursor : Option Nat} (h : Holds p records s events) (hcursor : cursor = none → s.requesting = none) {clock : Nat → Nat}
    {start n : Nat} (hn : entries.length ≤ n)
    (haccepted : Along p.step (Accepted p) (p.proceed s t ⟨p.sessionId, entries, cursor⟩) (logged t clock start n)) :
    Ready p records t (run p.step (p.proceed s t ⟨p.sessionId, entries, cursor⟩) (logged t clock start n))
      (events ++ entries.map (·.event)) := by
  induction entries generalizing s events start n with
  | nil =>
    have hready : Ready p records t (p.finish s t ⟨p.sessionId, [], cursor⟩) events := ready_finish h hcursor
    rw [proceed, if_pos List.isEmpty_nil, run_logged_idle hready.idle, List.map_nil, List.append_nil]
    exact hready
  | cons entry entries ih =>
    rcases n with _ | n
    · exact absurd hn (Nat.not_succ_le_zero _)
    · have hproceed : p.proceed s t ⟨p.sessionId, entry :: entries, cursor⟩ =
          setThread s t (.logging ⟨p.sessionId, entry :: entries, cursor⟩) := rfl
      rw [hproceed] at haccepted ⊢
      obtain ⟨-, hsecond, hrest⟩ := haccepted
      -- the number is taken
      have hnumber : p.step (setThread s t (.logging ⟨p.sessionId, entry :: entries, cursor⟩)) (.takeNumber t (clock start)) = _ :=
        takeNumber_logging (threads_setThread ..) (clock start)
      have hcounter : ((setThread s t (.logging ⟨p.sessionId, entry :: entries, cursor⟩)).sequence.lookup p.sessionId).getD 0 =
          events.length := h.counter
      rw [hcounter] at hnumber
      obtain ⟨numbered, hnumbered⟩ : ∃ numbered, numbered = p.step (setThread s t
          (.logging ⟨p.sessionId, entry :: entries, cursor⟩)) (.takeNumber t (clock start)) := ⟨_, rfl⟩
      rw [← hnumbered] at hnumber hsecond hrest
      rw [logged, run_cons, ← hnumbered, run_cons]
      have hthread : numbered.threads t = .appending ⟨p.sessionId, events.length, entry.timestampMs.getD (clock start), entry.event⟩
          ⟨p.sessionId, entries, cursor⟩ := by
        rw [hnumber, threads_setThread]
      have hstore : numbered.store = s.store := by rw [hnumber]; rfl
      have hsequence : numbered.sequence = s.sequence.insert p.sessionId (events.length + 1) := by rw [hnumber]; rfl
      have hfree : cursor = none → numbered.requesting = none := by rw [hnumber]; exact hcursor
      -- and the record appended
      obtain ⟨store, happend⟩ : ∃ store, p.backend.append numbered.store
          ⟨p.sessionId, events.length, entry.timestampMs.getD (clock start), entry.event⟩ = (.ok (), store) := by
        have hok := hsecond _ (by rw [LogState.held, hthread]; rfl)
        exact ⟨_, Prod.ext hok rfl⟩
      have hstep : p.step numbered (.append t) = _ := append_appending hthread happend
      rw [hstep] at hrest ⊢
      rw [hstore] at happend
      have hholds : Holds p records { numbered with store := store } (events ++ [entry.event]) :=
        h.appended hcorrect rfl rfl happend rfl hsequence
      rw [List.map_cons, List.append_cons events]
      exact ih hholds hfree (Nat.le_of_succ_le_succ hn) hrest

theorem ready_chunks (hcorrect : p.backend.Correct records) {s : LogState S} {events : List SessionEvent}
    (h : Ready p records t s events) {clock : Nat → Nat} {start : Nat} (chunks : List MessageContentBlock)
    (haccepted : Along p.step (Accepted p) s (chunkHooks t clock start chunks)) :
    Ready p records t (run p.step s (chunkHooks t clock start chunks)) (events ++ chunks.filterMap chunkEvent) := by
  induction chunks generalizing s events start with
  | nil => rwa [chunkHooks, run_nil, List.filterMap_nil, List.append_nil]
  | cons chunk chunks ih =>
    have hidle : isIdle s t = true := by rw [isIdle, h.idle]
    have hhook : p.step s (.onStreamChunk t chunk) =
        p.proceed s t ⟨p.sessionId, (chunkEvent chunk).toList.map (⟨none, ·⟩), none⟩ := by
      show p.onStreamChunk s t chunk = _
      rw [onStreamChunk, if_pos hidle, hook]
    rw [chunkHooks] at haccepted ⊢
    obtain ⟨hfirst, hrest⟩ := along_append.mp haccepted
    rw [run_append, run_cons]
    have hfirst := hfirst.2
    rw [hhook] at hfirst
    rw [run_cons, hhook] at hrest
    rw [hhook]
    have hlength : ((chunkEvent chunk).toList.map fun e => (⟨none, e⟩ : Entry)).length ≤ 1 := by
      rw [List.length_map]
      exact Option.length_toList_le
    have hready := ready_logged hcorrect h.toHolds (fun _ => h.free) hlength hfirst
    have hmore := ih hready hrest
    have hevents : events ++ (chunk :: chunks).filterMap chunkEvent =
        events ++ ((chunkEvent chunk).toList.map fun e => (⟨none, e⟩ : Entry)).map (·.event) ++ chunks.filterMap chunkEvent := by
      rw [List.map_map, List.filterMap_cons]
      rcases chunkEvent chunk with _ | e
      · simp
      · simp
    rw [hevents]
    exact hmore

/-- **The hooks of a turn** leave its records in the session. -/
theorem ready_hooks (hcorrect : p.backend.Correct records) {s : LogState S} {events : List SessionEvent}
    (h : Ready p records t s events) (turn : RecordedTurn) (haccepted : Along p.step (Accepted p) s (turn.hooks t)) :
    ∃ logs, Records turn logs ∧ Ready p records t (run p.step s (turn.hooks t)) (events ++ logs) := by
  have hidle : isIdle s t = true := by rw [isIdle, h.idle]
  rw [RecordedTurn.hooks] at haccepted ⊢
  obtain ⟨hrequest, haccepted⟩ := along_append.mp haccepted
  obtain ⟨hchunks, hcomplete⟩ := along_append.mp haccepted
  rw [run_append, run_append]
  -- the request
  rcases hasked : requestEvents 0 ((s.recordedMessages.lookup p.sessionId).getD 0) turn.messages with ⟨asked, newCount⟩
  have hstep : p.step s (.onRequest t turn.messages) =
      p.proceed { s with requesting := some t } t ⟨p.sessionId, asked.map (⟨none, ·⟩), some newCount⟩ := by
    show p.onRequest s t turn.messages = _
    rw [onRequest, if_pos (by rw [hidle, h.free]; rfl), hasked]
    rfl
  have hlength : (asked.map fun e => (⟨none, e⟩ : Entry)).length ≤ turn.messages.length := by
    have hle := requestEvents_length turn.messages 0 ((s.recordedMessages.lookup p.sessionId).getD 0)
    rwa [hasked, ← List.length_map (f := fun e => (⟨none, e⟩ : Entry))] at hle
  have hfirst := hrequest.2
  rw [hstep] at hfirst
  have hholds : Holds p records { s with requesting := some t } events := ⟨h.counter, h.stored⟩
  have hcursor : some newCount = none → ({ s with requesting := some t } : LogState S).requesting = none :=
    fun hnone => nomatch hnone
  have hafter := ready_logged hcorrect hholds hcursor hlength hfirst
  rw [run_cons p.step s (.onRequest t turn.messages), hstep] at hchunks hcomplete ⊢
  -- the chunks
  have hstreamed := ready_chunks hcorrect hafter turn.content hchunks
  -- the completion
  generalize run p.step (run p.step _ _) _ = last at hstreamed hcomplete ⊢
  have hlastIdle : isIdle last t = true := by rw [isIdle, hstreamed.idle]
  have hlast : p.step last (.onResponseComplete t turn.durationMs turn.promptTokens turn.completionTokens) =
      p.proceed last t ⟨p.sessionId, [⟨none, .latency turn.durationMs⟩,
        ⟨none, .tokenUsage turn.promptTokens turn.completionTokens⟩], none⟩ := by
    show p.onResponseComplete last t _ _ _ = _
    rw [onResponseComplete, if_pos hlastIdle, hook]
    rfl
  have hend := hcomplete.2
  rw [hlast] at hend
  rw [run_cons, hlast]
  have hdone := ready_logged hcorrect hstreamed.toHolds (fun _ => hstreamed.free) (Nat.le_refl 2) hend
  refine ⟨asked ++ turn.content.filterMap chunkEvent ++ [.latency turn.durationMs,
    .tokenUsage turn.promptTokens turn.completionTokens], ⟨asked, fun e he => ?_, rfl⟩, ?_⟩
  · have hall := requestEvents_asked turn.messages 0 ((s.recordedMessages.lookup p.sessionId).getD 0)
    rw [hasked] at hall
    exact hall e he
  · have hevents : events ++ (asked ++ turn.content.filterMap chunkEvent ++ [.latency turn.durationMs,
        .tokenUsage turn.promptTokens turn.completionTokens]) =
        events ++ (asked.map fun e => (⟨none, e⟩ : Entry)).map (·.event) ++ turn.content.filterMap chunkEvent ++
          [⟨none, .latency turn.durationMs⟩, ⟨none, .tokenUsage turn.promptTokens turn.completionTokens⟩].map
            (fun entry : Entry => entry.event) := by
      rw [List.map_map]
      simp [Function.comp_def]
    rw [hevents]
    exact hdone

theorem ready_turns (hcorrect : p.backend.Correct records) {s : LogState S} {events : List SessionEvent}
    (h : Ready p records t s events) (turns : List RecordedTurn)
    (haccepted : Along p.step (Accepted p) s (turns.flatMap (·.hooks t))) :
    ∃ logs, List.Forall₂ Records turns logs ∧
      Ready p records t (run p.step s (turns.flatMap (·.hooks t))) (events ++ logs.flatten) := by
  induction turns generalizing s events with
  | nil => exact ⟨[], .nil, by rwa [List.flatten_nil, List.append_nil]⟩
  | cons turn turns ih =>
    rw [List.flatMap_cons] at haccepted ⊢
    obtain ⟨hfirst, hrest⟩ := along_append.mp haccepted
    obtain ⟨log, hrecords, hready⟩ := ready_hooks hcorrect h turn hfirst
    obtain ⟨logs, hlogs, hdone⟩ := ih hready hrest
    refine ⟨log :: logs, .cons hrecords hlogs, ?_⟩
    rw [run_append, List.flatten_cons, ← List.append_assoc]
    exact hdone

end

/-! ## The turns of a recorded session -/

section
variable {turn : RecordedTurn} {logs : List SessionEvent}

theorem chunkEvent_open (chunk : MessageContentBlock) :
    ∀ e, chunkEvent chunk = some e → latencyOf e = none ∧ tokensOf e = none := by
  intro e he
  cases chunk with
  | imageBase64 => exact nomatch he
  | _ =>
    obtain rfl := Option.some.inj he
    exact ⟨rfl, rfl⟩

theorem blockOf_chunkEvent (content : List MessageContentBlock) :
    (content.filterMap chunkEvent).filterMap blockOf = content.filter fun b => !isImage b := by
  induction content with
  | nil => rfl
  | cons chunk content ih =>
    cases chunk with
    | imageBase64 => exact ih
    | _ => exact congrArg (List.cons _) ih

theorem filterMap_none {β : Type} {f : SessionEvent → Option β} {events : List SessionEvent} (h : ∀ e ∈ events, f e = none) :
    events.filterMap f = [] := List.filterMap_eq_nil_iff.mpr h

theorem Records.body (h : Records turn logs) : ∃ body, logs = body ++ [.latency turn.durationMs,
    .tokenUsage turn.promptTokens turn.completionTokens] ∧ body.filterMap latencyOf = [] ∧ body.filterMap tokensOf = [] ∧
      body.filterMap blockOf = turn.blocks := by
  obtain ⟨asked, hasked, rfl⟩ := h
  have hchunks : ∀ e ∈ turn.content.filterMap chunkEvent, latencyOf e = none ∧ tokensOf e = none := by
    intro e he
    obtain ⟨chunk, _, hchunk⟩ := List.mem_filterMap.mp he
    exact chunkEvent_open chunk e hchunk
  refine ⟨_, rfl, ?_, ?_, ?_⟩
  · rw [List.filterMap_append, filterMap_none fun e he => (hasked e he).1, filterMap_none fun e he => (hchunks e he).1,
      List.append_nil]
  · rw [List.filterMap_append, filterMap_none fun e he => (hasked e he).2.1, filterMap_none fun e he => (hchunks e he).2,
      List.append_nil]
  · rw [List.filterMap_append, filterMap_none fun e he => (hasked e he).2.2, List.nil_append, blockOf_chunkEvent]
    rfl

theorem gather_eq {β : Type} (f : SessionEvent → Option β) (group : List SessionRecord) :
    gather f group = (group.map (·.event)).filterMap f := by
  rw [gather, List.filterMap_map]
  rfl

/-- **The records of a turn** are a group that is ended, and no earlier. -/
theorem Records.group (h : Records turn logs) {group : List SessionRecord} (hgroup : group.map (·.event) = logs) :
    group ≠ [] ∧ ended group = true ∧ (∀ part, part <+: group → part ≠ group → ended part = false) ∧
      gather blockOf group = turn.blocks ∧
      completionOf group = some ⟨turn.durationMs, turn.promptTokens, turn.completionTokens⟩ := by
  obtain ⟨body, hlogs, hlatency, htokens, hblocks⟩ := h.body
  rw [hlogs] at hgroup
  have hlatencies : gather latencyOf group = [turn.durationMs] := by
    rw [gather_eq, hgroup, List.filterMap_append, hlatency]
    rfl
  have htokenses : gather tokensOf group = [(turn.promptTokens, turn.completionTokens)] := by
    rw [gather_eq, hgroup, List.filterMap_append, htokens]
    rfl
  refine ⟨?_, ?_, fun part hpart hproper => ?_, ?_, ?_⟩
  · rintro rfl
    exact absurd hlatencies (List.cons_ne_nil _ _).symm
  · rw [ended, hlatencies, htokenses]
    rfl
  · -- a proper part stops before the token usage
    obtain ⟨rest, rfl⟩ := hpart
    rcases List.eq_nil_or_concat' rest with rfl | ⟨before, last, rfl⟩
    · exact absurd (List.append_nil part).symm hproper
    · rw [← List.append_assoc, List.map_append, List.map_singleton, List.append_cons body, List.append_assoc] at hgroup
      obtain ⟨hbefore, -⟩ := List.append_inj' ((hgroup.trans (List.append_assoc body _ _).symm)) rfl
      have hnone : gather tokensOf part = [] := by
        have hall : gather tokensOf (part ++ before) = [] := by
          rw [gather_eq, hbefore, List.filterMap_append, htokens]
          rfl
        rw [gather_append] at hall
        exact (List.append_eq_nil_iff.mp hall).1
      rw [ended, hnone]
      exact Bool.and_false _
  · rw [gather_eq, hgroup, List.filterMap_append, hblocks]
    exact List.append_nil _
  · rw [completionOf, hlatencies, htokenses]
    rfl

/-- **The groups** of a recorded session are those of its turns. -/
theorem cut_recorded {turns : List RecordedTurn} {logs : List (List SessionEvent)} (h : List.Forall₂ Records turns logs)
    {rs : List SessionRecord} (hrs : rs.map (·.event) = logs.flatten) :
    ∃ groups, cut ended [] rs = groups ∧ groups.map (fun group => (gather blockOf group, completionOf group)) =
      turns.map fun turn => (turn.blocks, some ⟨turn.durationMs, turn.promptTokens, turn.completionTokens⟩) := by
  induction h generalizing rs with
  | nil =>
    rw [List.flatten_nil, List.map_eq_nil_iff] at hrs
    exact ⟨[], by rw [hrs]; rfl, rfl⟩
  | cons hturn _ ih =>
    rw [List.flatten_cons] at hrs
    obtain ⟨group, rest, rfl, hgroup, hrest⟩ := List.map_eq_append_iff.mp hrs
    obtain ⟨hne, hended, hminimal, hblocks, hcompletion⟩ := hturn.group hgroup
    obtain ⟨groups, hcut, hall⟩ := ih hrest
    refine ⟨group :: groups, ?_, ?_⟩
    · rw [cut_ended hne hended hminimal, hcut]
    · rw [List.map_cons, hblocks, hcompletion, hall, List.map_cons]

end

/-! ## Loading -/

/-- **Records in order** are partitioned into turns; and loading a session in which the hooks recorded turns gives one complete turn
for each response, with its blocks but the images and with the recorded counts. -/
theorem replayed (config : ReplayConfig) :
    (∀ (sessionId : String) (records : List SessionRecord), Increasing records → InBounds config records →
      ∃ groups turns usage, SessionReplay.assemble config sessionId records = .ok ⟨sessionId, turns, usage⟩ ∧
        Partitioned groups turns records) ∧
    (∀ (S : Type) (p : SessionLogPlugin S) (records : S → String → List SessionRecord) (store : S) (t : Nat)
      (turns : List RecordedTurn) (found : List SessionRecord), p.backend.Correct records → records store p.sessionId = [] →
      Along p.step (Accepted p) (.new store) (turns.flatMap (·.hooks t)) →
      (p.backend.replay (run p.step (.new store) (turns.flatMap (·.hooks t))).store p.sessionId).1 = .ok found →
      found.length ≤ config.maxRecords → (∀ turn ∈ turns, turn.blocks.length ≤ config.maxTurnBlocks) →
      ∃ trajectory, (SessionReplay.load ⟨p.backend, config⟩ (run p.step (.new store) (turns.flatMap (·.hooks t))).store
          p.sessionId).1 = .ok trajectory ∧
        trajectory.turns.map (fun turn => (turn.blocks, turn.completion)) =
          turns.map fun turn => (turn.blocks, some ⟨turn.durationMs, turn.promptTokens, turn.completionTokens⟩)) := by
  refine ⟨fun sessionId records hincreasing hbounds => assemble_partitioned config sessionId hincreasing hbounds, ?_⟩
  intro S p records store t turns found hcorrect hnew haccepted hreplay hmax hblocks
  have hready : Ready p records t (.new store) [] := ⟨⟨rfl, by rw [LogState.new, hnew]; rfl⟩, rfl, rfl⟩
  obtain ⟨logs, hlogs, hdone⟩ := ready_turns hcorrect hready turns haccepted
  rw [List.nil_append] at hdone
  generalize run p.step (LogState.new store) (turns.flatMap (·.hooks t)) = last at hreplay hdone ⊢
  rcases hanswer : p.backend.replay last.store p.sessionId with ⟨answer, after⟩
  rw [hanswer] at hreplay
  obtain rfl : answer = .ok found := hreplay
  have hfound := (hcorrect.replay hanswer).2 found rfl
  have hstored := hdone.stored
  rw [← hfound] at hstored
  have hevents : found.map (·.event) = logs.flatten := by
    have hfst := congrArg (List.map Prod.fst) hstored
    rwa [List.map_map, List.zipIdx_map_fst] at hfst
  have hincreasing : Increasing found := by
    have hsnd := congrArg (List.map Prod.snd) hstored
    rw [List.map_map, List.zipIdx_map_snd] at hsnd
    have hlt : (found.map (·.sequence)).Pairwise (· < ·) := by
      rw [show found.map (·.sequence) = _ from hsnd]
      exact List.pairwise_lt_range'
    exact List.pairwise_map.mp hlt
  obtain ⟨groups, hcut, hgroups⟩ := cut_recorded hlogs hevents
  have hbounded : ∀ g ∈ cut ended [] found, Bounded config g := by
    intro g hg
    rw [hcut] at hg
    have hmem := List.mem_map_of_mem (f := fun group => (gather blockOf group, completionOf group)) hg
    rw [hgroups] at hmem
    obtain ⟨turn, hturn, heq⟩ := List.mem_map.mp hmem
    rw [Bounded, ← (Prod.mk.inj heq).1]
    exact hblocks turn hturn
  obtain ⟨usage, hassemble⟩ := (assemble_eq_ok_iff config p.sessionId found _).mpr ⟨hmax, hincreasing, hbounded, rfl⟩
  refine ⟨⟨p.sessionId, (cut ended [] found).map turnOf, usage⟩, ?_, ?_⟩
  · rw [SessionReplay.load, hanswer]
    exact hassemble
  · rw [hcut, List.map_map]
    exact hgroups

/-! ## One turn, recorded and replayed -/

instance {S : Type} (p : SessionLogPlugin S) (s : LogState S) (e : Event) : Decidable (Accepted p s e) :=
  match e with
  | .append t =>
    match h : s.held t with
    | none => isTrue fun _ hr => nomatch h.symm.trans hr
    | some r =>
      match hanswer : (p.backend.append s.store r).1 with
      | .ok () => isTrue fun _ hr => Option.some.inj (h.symm.trans hr) ▸ hanswer
      | .error _ => isFalse fun hall => nomatch hanswer.symm.trans (hall r h)
  | .onRequest _ _ | .onStreamChunk _ _ | .onResponseComplete _ _ _ _ | .appendLog _ _ _ | .forkSession _ _ _ _
  | .takeNumber _ _ | .replay _ | .realign _ => isTrue trivial

/-- A question, an answer with an image, and 5 prompt and 3 completion tokens. -/
def answered : RecordedTurn where
  messages := [⟨.user, [.text "hi"], none, none⟩]
  content := [.text "hello", .imageBase64 "image/png" "AA=="]
  durationMs := 12
  promptTokens := 5
  completionTokens := 3
  clock := id

def outOfOrder : List SessionRecord :=
  [⟨"s", 3, 0, .output "a"⟩, ⟨"s", 5, 0, .tokenUsage 1 2⟩, ⟨"s", 6, 0, .latency 4⟩, ⟨"s", 9, 0, .output "b"⟩]

def defaults : ReplayConfig := ⟨65536, 4096, none⟩

theorem inBounds_outOfOrder : InBounds defaults outOfOrder := by
  refine ⟨by decide, fun groups hgroups => ?_⟩
  rw [hgroups.unique]
  show ∀ g ∈ [outOfOrder.take 3, outOfOrder.drop 3], (gather blockOf g).length ≤ 4096
  decide

theorem replayed_answered :
    (∃ groups turns usage, SessionReplay.assemble defaults "s" outOfOrder = .ok ⟨"s", turns, usage⟩ ∧
        Partitioned groups turns outOfOrder) ∧
      ∃ trajectory, (SessionReplay.load ⟨inMemory.backend, defaults⟩
          (run inMemory.step (.new InMemoryBackend.empty) ([answered].flatMap (·.hooks 0))).store "default").1 = .ok trajectory ∧
        trajectory.turns.map (fun turn => (turn.blocks, turn.completion)) = [([.text "hello"], some ⟨12, 5, 3⟩)] := by
  refine ⟨(replayed defaults).1 "s" outOfOrder (by unfold Increasing; decide) inBounds_outOfOrder, ?_⟩
  exact (replayed defaults).2 InMemoryStore inMemory InMemoryBackend.records InMemoryBackend.empty 0 [answered] _
    (InMemoryBackend.inMemory_correct _) rfl (by decide) rfl (by decide) (by decide)

end Cuca.Replay
