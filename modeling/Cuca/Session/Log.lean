import Cuca.Lib.Transition
import Cuca.Session.Record

/-!
# The session log

The plugin keeps a counter for each session and lends its numbers to records; the records are in the backend. Each of its
locks is held for one step only, but that of `recorded_messages`, which a request holds to its end. Threads take the steps
of their calls in any order.

* `Entry`, `Call` : what a call logs, and what of it is still to do;
* `Thread` : where a thread is in its call;
* `Event`, `step` : a call begins, or a thread makes its next step;
* `Sequenced` : the numbers are the places, and no two records have one point id;
* `Effect` : what one step does to the records and to the numbers on loan;
* `Lands` : the append puts the record at the place of its number;
* `sequenced_iff` : the records are sequenced throughout just the runs whose appends land, as those of an orderly run do.
-/

namespace Cuca.Session

/-- An event to log, at the time of the caller or, for want of it, at the time of the step. -/
structure Entry where
  timestampMs : Option Nat
  event : SessionEvent
  deriving Repr

/-- What is left of a call that logs: the entries, and the count of messages that a request records at its end. -/
structure Call where
  sessionId : String
  entries : List Entry
  cursor : Option Nat
  deriving Repr

inductive Thread where
  | idle
  /-- Next, `append_event` takes a number for the first entry. -/
  | logging (call : Call)
  /-- The number is taken, and the counter unlocked. -/
  | appending (record : SessionRecord) (call : Call)
  /-- `fork_session` after the fork, and after the replay. -/
  | replaying (sessionId newId : String)
  | realigning (sessionId newId : String) (len : Nat)
  deriving Repr

structure SessionLogPlugin (S : Type) where
  backend : SessionBackend S
  sessionId : String

/-- The maps of the plugin, its backend and the threads that run in it. -/
structure LogState (S : Type) where
  store : S
  sequence : AList (fun _ : String => Nat)
  recordedMessages : AList (fun _ : String => Nat)
  /-- The thread that holds the lock on `recorded_messages`. -/
  requesting : Option Nat
  threads : Nat → Thread

def LogState.new {S : Type} (store : S) : LogState S := ⟨store, ∅, ∅, none, fun _ => .idle⟩

/-- A call begins on a thread, or a thread makes the next step of its call: it takes a number, appends the record,
replays after a fork, or realigns the counter. -/
inductive Event where
  | onRequest (thread : Nat) (messages : List UnifiedMessage)
  | onStreamChunk (thread : Nat) (chunk : MessageContentBlock)
  | onResponseComplete (thread : Nat) (durationMs promptTokens completionTokens : Nat)
  | appendLog (thread : Nat) (sessionId : String) (record : SessionRecord)
  | forkSession (thread : Nat) (sessionId pointId : String) (now : Nat)
  | takeNumber (thread : Nat) (now : Nat)
  | append (thread : Nat)
  | replay (thread : Nat)
  | realign (thread : Nat)

/-! ## What the hooks log -/

/-- The System messages, and the user and assistant messages from the cursor on; with the cursor after them. -/
def requestEvents (i newCount : Nat) : List UnifiedMessage → List SessionEvent × Nat
  | [] => ([], newCount)
  | msg :: messages =>
    match msg.role with
    | .system =>
      let text := "\n".intercalate (msg.content.filterMap fun
        | .text t => some t
        | _ => none)
      let (events, count) := requestEvents (i + 1) newCount messages
      (.systemPrompt text :: events, count)
    | .user | .assistant =>
      if i ≥ newCount then
        let (events, count) := requestEvents (i + 1) (i + 1) messages
        (.message msg.role msg.content :: events, count)
      else requestEvents (i + 1) newCount messages
    | .tool => requestEvents (i + 1) newCount messages

def chunkEvent : MessageContentBlock → Option SessionEvent
  | .thinking reasoning signature => some (.reasoning reasoning signature)
  | .text text => some (.output text)
  | .toolCall id name arguments => some (.toolCall id name arguments)
  | .toolResult toolCallId output => some (.toolResult toolCallId output none none none)
  | .imageBase64 _ _ => none

namespace SessionLogPlugin
variable {S : Type} (p : SessionLogPlugin S)

def new (backend : SessionBackend S) : SessionLogPlugin S := ⟨backend, "default"⟩

def setThread (s : LogState S) (t : Nat) (thread : Thread) : LogState S :=
  { s with threads := Function.update s.threads t thread }

/-- The call returns `Ok`. -/
def finish (s : LogState S) (t : Nat) (call : Call) : LogState S :=
  match call.cursor with
  | some newCount =>
    setThread { s with recordedMessages := s.recordedMessages.insert p.sessionId newCount, requesting := none } t .idle
  | none => setThread s t .idle

/-- The call returns `Err`: a request leaves the count as it was. -/
def fail (s : LogState S) (t : Nat) (call : Call) : LogState S :=
  setThread (if call.cursor.isSome then { s with requesting := none } else s) t .idle

def proceed (s : LogState S) (t : Nat) (call : Call) : LogState S :=
  if call.entries.isEmpty then p.finish s t call else setThread s t (.logging call)

def isIdle (s : LogState S) (t : Nat) : Bool :=
  match s.threads t with
  | .idle => true
  | _ => false

def hook (s : LogState S) (t : Nat) (events : List SessionEvent) (cursor : Option Nat) : LogState S :=
  p.proceed s t ⟨p.sessionId, events.map (⟨none, ·⟩), cursor⟩

def onRequest (s : LogState S) (t : Nat) (messages : List UnifiedMessage) : LogState S :=
  if isIdle s t && s.requesting.isNone then
    let (events, newCount) := requestEvents 0 ((s.recordedMessages.lookup p.sessionId).getD 0) messages
    p.hook { s with requesting := some t } t events (some newCount)
  else s

def onStreamChunk (s : LogState S) (t : Nat) (chunk : MessageContentBlock) : LogState S :=
  if isIdle s t then p.hook s t (chunkEvent chunk).toList none else s

def onResponseComplete (s : LogState S) (t : Nat) (durationMs promptTokens completionTokens : Nat) : LogState S :=
  if isIdle s t then p.hook s t [.latency durationMs, .tokenUsage promptTokens completionTokens] none else s

def appendLog (s : LogState S) (t : Nat) (sessionId : String) (record : SessionRecord) : LogState S :=
  if isIdle s t then p.proceed s t ⟨sessionId, [⟨some record.timestampMs, record.event⟩], none⟩ else s

/-- The first half of `append_event`: the next number of the session. -/
def takeNumber (s : LogState S) (t now : Nat) : LogState S :=
  match s.threads t with
  | .logging ⟨sessionId, entry :: entries, cursor⟩ =>
    let next := (s.sequence.lookup sessionId).getD 0
    setThread { s with sequence := s.sequence.insert sessionId (next + 1) } t
      (.appending ⟨sessionId, next, entry.timestampMs.getD now, entry.event⟩ ⟨sessionId, entries, cursor⟩)
  | _ => s

/-- The second half. -/
def append (s : LogState S) (t : Nat) : LogState S :=
  match s.threads t with
  | .appending record call =>
    match p.backend.append s.store record with
    | (.ok (), store) => p.proceed { s with store := store } t call
    | (.error _, store) => fail { s with store := store } t call
  | _ => s

def forkSession (s : LogState S) (t : Nat) (sessionId pointId : String) (now : Nat) : LogState S :=
  if isIdle s t then
    match p.backend.fork s.store sessionId pointId now with
    | (.ok newId, store) => setThread { s with store := store } t (.replaying sessionId newId)
    | (.error _, store) => { s with store := store }
  else s

def replay (s : LogState S) (t : Nat) : LogState S :=
  match s.threads t with
  | .replaying sessionId newId =>
    match p.backend.replay s.store sessionId with
    | (.ok records, store) => setThread { s with store := store } t (.realigning sessionId newId records.length)
    | (.error _, store) => setThread { s with store := store } t .idle
  | _ => s

def realign (s : LogState S) (t : Nat) : LogState S :=
  match s.threads t with
  | .realigning sessionId _ len => setThread { s with sequence := s.sequence.insert sessionId len } t .idle
  | _ => s

def step (s : LogState S) : Event → LogState S
  | .onRequest t messages => p.onRequest s t messages
  | .onStreamChunk t chunk => p.onStreamChunk s t chunk
  | .onResponseComplete t durationMs promptTokens completionTokens =>
    p.onResponseComplete s t durationMs promptTokens completionTokens
  | .appendLog t sessionId record => p.appendLog s t sessionId record
  | .forkSession t sessionId pointId now => p.forkSession s t sessionId pointId now
  | .takeNumber t now => takeNumber s t now
  | .append t => p.append s t
  | .replay t => p.replay s t
  | .realign t => realign s t

end SessionLogPlugin
/-! ## Numbers of the session log

The i-th record of a session should carry number i. The plugin lends a number at one step and the backend stores the
record at a later one, so this is up to the order of the steps, and to whether the two counts agree.
-/

open Transition

/-! ## Numbered records -/

def Labelled (records : String → List SessionRecord) : Prop := ∀ id, ∀ r ∈ records id, r.sessionId = id

def Contiguous (records : String → List SessionRecord) : Prop :=
  ∀ id i (r : SessionRecord), (records id)[i]? = some r → r.sequence = i

structure Sequenced (records : String → List SessionRecord) : Prop where
  contiguous : Contiguous records
  points : ∀ id (i : Nat) (r : SessionRecord) id' (i' : Nat) (r' : SessionRecord), (records id)[i]? = some r →
    (records id')[i']? = some r' → r.pointId = r'.pointId → id = id' ∧ i = i'

theorem sequenced_iff_contiguous {records : String → List SessionRecord} (hlabelled : Labelled records) :
    Sequenced records ↔ Contiguous records := by
  refine ⟨Sequenced.contiguous, fun h => ⟨h, fun id i r id' i' r' hr hr' hpoint => ?_⟩⟩
  obtain ⟨hsession, hsequence⟩ := pointId_injective hpoint
  have hid := hlabelled id r (List.mem_of_getElem? hr)
  have hid' := hlabelled id' r' (List.mem_of_getElem? hr')
  have hi := h id i r hr
  have hi' := h id' i' r' hr'
  exact ⟨hid.symm.trans (hsession.trans hid'), hi.symm.trans (hsequence.trans hi')⟩

theorem Labelled.update {records : String → List SessionRecord} (h : Labelled records) {id : String}
    {rs : List SessionRecord} (hrs : ∀ r ∈ rs, r.sessionId = id) : Labelled (Function.update records id rs) := by
  intro other r hr
  rcases eq_or_ne other id with rfl | hne
  · rw [Function.update_self] at hr
    exact hrs r hr
  · rw [Function.update_of_ne hne] at hr
    exact h other r hr

theorem contiguous_update_iff {records : String → List SessionRecord} (h : Contiguous records) {id : String}
    {rs : List SessionRecord} :
    Contiguous (Function.update records id rs) ↔
      ∀ i (r : SessionRecord), rs[i]? = some r → r.sequence = i := by
  constructor
  · intro hupdate i r hr
    apply hupdate id i r
    rwa [Function.update_self]
  · intro hrs other i r hr
    rcases eq_or_ne other id with rfl | hne
    · rw [Function.update_self] at hr
      exact hrs i r hr
    · rw [Function.update_of_ne hne] at hr
      exact h other i r hr

theorem contiguous_push_iff {records : String → List SessionRecord} (h : Contiguous records) (id : String)
    (r : SessionRecord) :
    Contiguous (Function.update records id (records id ++ [r])) ↔ r.sequence = (records id).length := by
  rw [contiguous_update_iff h]
  constructor
  · intro hpush
    apply hpush
    rw [List.getElem?_append_right (Nat.le_refl _), Nat.sub_self, List.getElem?_cons_zero]
  · intro hlast i r' hr'
    rcases Nat.lt_or_ge i (records id).length with hlt | hge
    · rw [List.getElem?_append_left hlt] at hr'
      exact h id i r' hr'
    · rw [List.getElem?_append_right hge, List.getElem?_singleton] at hr'
      obtain ⟨hzero, heq⟩ := Option.ite_none_right_eq_some.mp hr'
      rw [← Option.some.inj heq]
      omega

theorem mem_relabelled {records : List SessionRecord} {newId : String} :
    ∀ r ∈ relabelled records newId, r.sessionId = newId := by
  intro r hr
  obtain ⟨r', _, rfl⟩ := List.mem_map.mp hr
  rfl

theorem Contiguous.relabelled {records : String → List SessionRecord} (h : Contiguous records) (id newId : String)
    (n : Nat) : ∀ i (r : SessionRecord), (relabelled ((records id).take n) newId)[i]? = some r → r.sequence = i := by
  intro i r hr
  rw [Session.relabelled, List.getElem?_map] at hr
  obtain ⟨r', hr', rfl⟩ := Option.map_eq_some_iff.mp hr
  rw [List.getElem?_take] at hr'
  exact h id i r' (Option.ite_none_right_eq_some.mp hr').2

/-! ## One step -/

/-- The record a thread has a number for. -/
def Thread.held : Thread → Option SessionRecord
  | .appending record _ => some record
  | _ => none

def LogState.held {S : Type} (s : LogState S) (t : Nat) : Option SessionRecord := (s.threads t).held

namespace SessionLogPlugin
variable {S : Type} (p : SessionLogPlugin S) (records : S → String → List SessionRecord)

/-- What a step does to the records, and to the numbers on loan. -/
inductive Effect (s s' : LogState S) : Event → Prop
  | quiet (e : Event) (hother : ∀ t, e ≠ .append t) (hrecords : records s'.store = records s.store)
      (hheld : ∀ u r, s'.held u = some r → s.held u = some r) : Effect s s' e
  | taken (t now : Nat) (call : Call) (record : SessionRecord) (hthread : s.threads t = .logging call)
      (hsession : record.sessionId = call.sessionId)
      (hnext : record.sequence = (s.sequence.lookup call.sessionId).getD 0) (hrecords : records s'.store = records s.store)
      (hheld : ∀ u r, s'.held u = some r → u = t ∧ r = record ∨ u ≠ t ∧ s.held u = some r) : Effect s s' (.takeNumber t now)
  | refused (t : Nat) (hrefused : ∀ r, s.held t = some r → (p.backend.append s.store r).1 ≠ .ok ())
      (hrecords : records s'.store = records s.store) (hheld : ∀ u r, s'.held u = some r → s.held u = some r) :
      Effect s s' (.append t)
  | appended (t : Nat) (record : SessionRecord) (hthread : s.held t = some record)
      (haccepted : (p.backend.append s.store record).1 = .ok ())
      (hrecords : records s'.store =
        Function.update (records s.store) record.sessionId (records s.store record.sessionId ++ [record]))
      (hheld : ∀ u r, s'.held u = some r → u ≠ t ∧ s.held u = some r) : Effect s s' (.append t)
  | forked (t : Nat) (sessionId pointId : String) (now : Nat) (newId : String) (index : Nat)
      (hidle : isIdle s t = true)
      (haccepted : (p.backend.fork s.store sessionId pointId now).1 = .ok newId) (hnew : newId ≠ sessionId)
      (hrecords : records s'.store = Function.update (Function.update (records s.store) newId
          (relabelled ((records s.store sessionId).take (index + 1)) newId)) sessionId
          (records s.store sessionId ++ [auditRecord sessionId pointId newId (records s.store sessionId).length now]))
      (hheld : ∀ u r, s'.held u = some r → s.held u = some r) : Effect s s' (.forkSession t sessionId pointId now)

theorem held_setThread (s : LogState S) (t u : Nat) (thread : Thread) :
    (setThread s t thread).held u = if u = t then thread.held else s.held u := by
  unfold LogState.held setThread
  dsimp only
  rw [Function.update_apply]
  split
  · rfl
  · rfl

theorem held_of_setThread {s : LogState S} {t : Nat} {thread : Thread} (hnone : thread.held = none) (u : Nat)
    (r : SessionRecord) (h : (setThread s t thread).held u = some r) : u ≠ t ∧ s.held u = some r := by
  rw [held_setThread, hnone] at h
  exact Option.ite_none_left_eq_some.mp h

theorem held_finish (s : LogState S) (t : Nat) (call : Call) (u : Nat) (r : SessionRecord)
    (h : (p.finish s t call).held u = some r) : u ≠ t ∧ s.held u = some r := by
  unfold finish at h
  split at h
  · exact held_of_setThread (by rfl) u r h
  · exact held_of_setThread (by rfl) u r h

theorem held_proceed (s : LogState S) (t : Nat) (call : Call) (u : Nat) (r : SessionRecord)
    (h : (p.proceed s t call).held u = some r) : u ≠ t ∧ s.held u = some r := by
  unfold proceed at h
  split at h
  · exact p.held_finish s t call u r h
  · exact held_of_setThread (by rfl) u r h

theorem held_fail (s : LogState S) (t : Nat) (call : Call) (u : Nat) (r : SessionRecord)
    (h : (fail s t call).held u = some r) : u ≠ t ∧ s.held u = some r := by
  obtain ⟨hne, hheld⟩ := held_of_setThread (by rfl) u r h
  split at hheld
  · exact ⟨hne, hheld⟩
  · exact ⟨hne, hheld⟩

theorem store_proceed (s : LogState S) (t : Nat) (call : Call) : (p.proceed s t call).store = s.store := by
  unfold proceed finish
  split
  · split
    · rfl
    · rfl
  · rfl

theorem store_fail (s : LogState S) (t : Nat) (call : Call) : (fail s t call).store = s.store := by
  unfold fail setThread
  dsimp only
  split
  · rfl
  · rfl

theorem held_eq {s : LogState S} {t : Nat} {r : SessionRecord} (h : s.held t = some r) :
    ∃ call, s.threads t = .appending r call := by
  unfold LogState.held Thread.held at h
  split at h
  · rename_i record call hthread
    obtain rfl : record = r := Option.some.inj h
    exact ⟨call, hthread⟩
  · exact nomatch h

variable {p records}

theorem Effect.of_proceed {s s₁ : LogState S} {e : Event} (hother : ∀ t, e ≠ .append t) (t : Nat) (call : Call)
    (hstore : s₁.store = s.store) (hthreads : s₁.threads = s.threads) : Effect p records s (p.proceed s₁ t call) e := by
  refine .quiet e hother ?_ fun u r h => ?_
  · rw [store_proceed, hstore]
  · have hheld := (p.held_proceed s₁ t call u r h).2
    rwa [LogState.held, hthreads] at hheld

theorem Effect.same {s : LogState S} {e : Event} (hother : ∀ t, e ≠ .append t) : Effect p records s s e :=
  .quiet e hother rfl fun _ _ h => h

theorem takeNumber_effect (s : LogState S) (t now : Nat) : Effect p records s (takeNumber s t now) (.takeNumber t now) := by
  unfold takeNumber
  split
  case h_2 => exact .same nofun
  case h_1 sessionId entry entries cursor hthread =>
    refine .taken t now _ ⟨sessionId, _, entry.timestampMs.getD now, entry.event⟩ hthread rfl rfl rfl fun u r h => ?_
    rw [held_setThread] at h
    split at h
    case isTrue heq => exact .inl ⟨heq, (Option.some.inj h).symm⟩
    case isFalse hne => exact .inr ⟨hne, h⟩

theorem append_effect (hcorrect : p.backend.Correct records) (s : LogState S) (t : Nat) :
    Effect p records s (p.append s t) (.append t) := by
  unfold append
  split
  case h_2 hidle =>
    refine .refused t (fun r hr => ?_) rfl fun _ _ h => h
    obtain ⟨call, hthread⟩ := held_eq hr
    exact absurd hthread (hidle r call)
  case h_1 record call hthread =>
    have hheld : s.held t = some record := by rw [LogState.held, hthread, Thread.held]
    split
    case h_1 store happend =>
      refine .appended t record hheld (congrArg Prod.fst happend) ?_ fun u r h => ?_
      · rw [store_proceed]
        exact hcorrect.append_ok happend
      · exact p.held_proceed { s with store := store } t call u r h
    case h_2 error store happend =>
      refine .refused t (fun r hr haccepted => ?_) ?_ fun u r h => (held_fail { s with store := store } t call u r h).2
      · obtain rfl : record = r := Option.some.inj (hheld.symm.trans hr)
        rw [happend] at haccepted
        cases haccepted
      rw [store_fail]
      exact hcorrect.append_error happend

theorem forkSession_effect (hcorrect : p.backend.Correct records) (s : LogState S) (t : Nat) (sessionId pointId : String)
    (now : Nat) :
    Effect p records s (p.forkSession s t sessionId pointId now) (.forkSession t sessionId pointId now) := by
  unfold forkSession
  split
  case isFalse => exact .same nofun
  case isTrue hidle =>
    split
    case h_1 newId store hfork =>
      obtain ⟨hnew, index, _, _, _, hrecords⟩ := hcorrect.fork_ok hfork
      exact .forked t sessionId pointId now newId index hidle (congrArg Prod.fst hfork) hnew hrecords fun u r h =>
        (held_of_setThread (by rfl) u r h).2
    case h_2 error store hfork => exact .quiet _ nofun (hcorrect.fork_error hfork) fun _ _ h => h

theorem replay_effect (hcorrect : p.backend.Correct records) (s : LogState S) (t : Nat) :
    Effect p records s (p.replay s t) (.replay t) := by
  unfold replay
  split
  case h_2 => exact .same nofun
  case h_1 sessionId newId hthread =>
    split
    case h_1 found store hreplay =>
      exact .quiet _ nofun (hcorrect.replay hreplay).1 fun u r h => (held_of_setThread (by rfl) u r h).2
    case h_2 error store hreplay =>
      exact .quiet _ nofun (hcorrect.replay hreplay).1 fun u r h => (held_of_setThread (by rfl) u r h).2

theorem step_effect (hcorrect : p.backend.Correct records) (s : LogState S) (e : Event) :
    Effect p records s (p.step s e) e := by
  match e with
  | .onRequest t messages =>
    show Effect p records s (p.onRequest s t messages) _
    unfold onRequest
    split
    · exact .of_proceed (by nofun) t _ rfl rfl
    · exact .same nofun
  | .onStreamChunk t chunk =>
    show Effect p records s (p.onStreamChunk s t chunk) _
    unfold onStreamChunk
    split
    · exact .of_proceed (by nofun) t _ rfl rfl
    · exact .same nofun
  | .onResponseComplete t durationMs promptTokens completionTokens =>
    show Effect p records s (p.onResponseComplete s t durationMs promptTokens completionTokens) _
    unfold onResponseComplete
    split
    · exact .of_proceed (by nofun) t _ rfl rfl
    · exact .same nofun
  | .appendLog t sessionId record =>
    show Effect p records s (p.appendLog s t sessionId record) _
    unfold appendLog
    split
    · exact .of_proceed (by nofun) t _ rfl rfl
    · exact .same nofun
  | .forkSession t sessionId pointId now => exact forkSession_effect hcorrect s t sessionId pointId now
  | .takeNumber t now => exact takeNumber_effect s t now
  | .append t => exact append_effect hcorrect s t
  | .replay t => exact replay_effect hcorrect s t
  | .realign t =>
    show Effect p records s (realign s t) _
    unfold realign
    split
    case h_2 => exact .same nofun
    case h_1 => exact .quiet _ nofun rfl fun u r h => (held_of_setThread (by rfl) u r h).2

/-! ## Runs -/

variable (p records)

/-- An append that the backend accepts puts the record at the place of its number. -/
def Lands (s : LogState S) : Event → Prop
  | .append t => ∀ r, s.held t = some r → (p.backend.append s.store r).1 = .ok () →
      r.sequence = (records s.store r.sessionId).length
  | _ => True

/-- Numbers are taken when the counter is at the count of the records and no other number of the session is on loan, and
a fork waits for the loans of the two sessions. -/
def Orderly (s : LogState S) : Event → Prop
  | .takeNumber t _ => ∀ call, s.threads t = .logging call →
      (s.sequence.lookup call.sessionId).getD 0 = (records s.store call.sessionId).length ∧
        ∀ u r, s.held u = some r → r.sessionId ≠ call.sessionId
  | .forkSession t sessionId pointId now => isIdle s t = true →
      ∀ newId, (p.backend.fork s.store sessionId pointId now).1 = .ok newId →
        ∀ u r, s.held u = some r → r.sessionId ≠ sessionId ∧ r.sessionId ≠ newId
  | _ => True

/-- The numbers on loan: each is the next one of its session, and its only one. -/
structure Lent (s : LogState S) : Prop where
  next : ∀ t r, s.held t = some r → r.sequence = (records s.store r.sessionId).length
  only : ∀ t u r r', s.held t = some r → s.held u = some r' → r.sessionId = r'.sessionId → t = u

variable {p records}

theorem labelled_step (hcorrect : p.backend.Correct records) (s : LogState S) (e : Event)
    (h : Labelled (records s.store)) : Labelled (records (p.step s e).store) := by
  rcases step_effect hcorrect s e with ⟨_, _, hrecords, _⟩ | ⟨t, now, call, record, _, _, _, hrecords, _⟩ |
    ⟨t, _, hrecords, _⟩ | ⟨t, record, _, _, hrecords, _⟩ | ⟨t, sessionId, pointId, now, newId, index, _, _, _, hrecords, _⟩
  · rwa [hrecords]
  · rwa [hrecords]
  · rwa [hrecords]
  · rw [hrecords]
    refine h.update fun r hr => ?_
    rcases List.mem_append.mp hr with hold | hlast
    · exact h _ r hold
    · rw [List.mem_singleton.mp hlast]
  · rw [hrecords]
    refine (h.update mem_relabelled).update fun r hr => ?_
    rcases List.mem_append.mp hr with hold | hlast
    · exact h _ r hold
    · rw [List.mem_singleton.mp hlast, auditRecord]

/-- **One step** keeps the records in order just when its append lands. -/
theorem contiguous_step_iff (hcorrect : p.backend.Correct records) (s : LogState S) (e : Event)
    (h : Contiguous (records s.store)) : Contiguous (records (p.step s e).store) ↔ p.Lands records s e := by
  have hquiet (hrecords : records (p.step s e).store = records s.store) :
      Contiguous (records (p.step s e).store) := by rwa [hrecords]
  rcases step_effect hcorrect s e with ⟨_, hother, hrecords, _⟩ | ⟨t, now, call, record, _, _, _, hrecords, _⟩ |
    ⟨t, hrefused, hrecords, _⟩ | ⟨t, record, hthread, haccepted, hrecords, _⟩ | ⟨t, sessionId, pointId, now, newId, index, _, _, hnew, hrecords, _⟩
  · refine iff_of_true (hquiet hrecords) ?_
    cases e with
    | append t => exact absurd rfl (hother t)
    | _ => trivial
  · exact iff_of_true (hquiet hrecords) trivial
  · exact iff_of_true (hquiet hrecords) fun r hr haccepted => absurd haccepted (hrefused r hr)
  · rw [hrecords, contiguous_push_iff h]
    refine ⟨fun hlast r hr _ => ?_, fun hlands => hlands record hthread haccepted⟩
    obtain rfl : record = r := Option.some.inj (hthread.symm.trans hr)
    exact hlast
  · refine iff_of_true ?_ trivial
    have hbranch : Contiguous (Function.update (records s.store) newId _) :=
      (contiguous_update_iff h).mpr (h.relabelled sessionId newId (index + 1))
    rw [hrecords, contiguous_update_iff hbranch]
    have hpush := (contiguous_push_iff h sessionId
      (auditRecord sessionId pointId newId (records s.store sessionId).length now)).mpr rfl
    exact (contiguous_update_iff h).mp hpush

theorem Lent.step (hcorrect : p.backend.Correct records) {s : LogState S} {e : Event} (h : p.Orderly records s e)
    (hlent : Lent records s) : Lent records (p.step s e) := by
  have hkept (hrecords : records (p.step s e).store = records s.store)
      (hheld : ∀ u r, (p.step s e).held u = some r → s.held u = some r) : Lent records (p.step s e) := by
    refine ⟨fun t r hr => ?_, fun t u r r' hr hr' => hlent.only t u r r' (hheld t r hr) (hheld u r' hr')⟩
    rw [hrecords]
    exact hlent.next t r (hheld t r hr)
  rcases step_effect hcorrect s e with ⟨_, _, hrecords, hheld⟩ |
    ⟨t, now, call, record, hthread, hsession, hnext, hrecords, hheld⟩ | ⟨t, _, hrecords, hheld⟩ |
    ⟨t, record, hthread, _, hrecords, hheld⟩ | ⟨t, sessionId, pointId, now, newId, index, hidle, haccepted, _, hrecords, hheld⟩
  · exact hkept hrecords hheld
  · obtain ⟨haligned, hfree⟩ := h call hthread
    refine ⟨fun u r hr => ?_, fun u u' r r' hr hr' hsame => ?_⟩
    · rw [hrecords]
      rcases hheld u r hr with ⟨_, rfl⟩ | ⟨_, hold⟩
      · rw [hsession, hnext, haligned]
      · exact hlent.next u r hold
    · rcases hheld u r hr with ⟨hu, rfl⟩ | ⟨_, hold⟩
      · rcases hheld u' r' hr' with ⟨hu', _⟩ | ⟨_, hold'⟩
        · exact hu.trans hu'.symm
        · exact absurd (hsame.symm.trans hsession) (hfree u' r' hold')
      · rcases hheld u' r' hr' with ⟨_, rfl⟩ | ⟨_, hold'⟩
        · exact absurd (hsame.trans hsession) (hfree u r hold)
        · exact hlent.only u u' r r' hold hold' hsame
  · exact hkept hrecords hheld
  · refine ⟨fun u r hr => ?_, fun u u' r r' hr hr' => hlent.only u u' r r' (hheld u r hr).2 (hheld u' r' hr').2⟩
    obtain ⟨hne, hold⟩ := hheld u r hr
    -- the record that came in was the only loan of its session
    have hother : r.sessionId ≠ record.sessionId := fun hsame => hne (hlent.only u t r record hold hthread hsame)
    rw [hrecords, Function.update_of_ne hother]
    exact hlent.next u r hold
  · refine ⟨fun u r hr => ?_, fun u u' r r' hr hr' => hlent.only u u' r r' (hheld u r hr) (hheld u' r' hr')⟩
    obtain ⟨horiginal, hbranch⟩ := h hidle newId haccepted u r (hheld u r hr)
    rw [hrecords, Function.update_of_ne horiginal, Function.update_of_ne hbranch]
    exact hlent.next u r (hheld u r hr)

theorem Lent.lands {s : LogState S} (h : Lent records s) (e : Event) : p.Lands records s e := by
  cases e with
  | append t => exact fun r hr _ => h.next t r hr
  | _ => trivial

theorem lent_new (store : S) : Lent records (.new store) := ⟨fun _ _ h => (nomatch h), fun _ _ _ _ h => nomatch h⟩

theorem along_lands (hcorrect : p.backend.Correct records) {s : LogState S} (hlent : Lent records s) {events : List Event}
    (h : Along p.step (p.Orderly records) s events) : Along p.step (p.Lands records) s events := by
  induction events generalizing s with
  | nil => trivial
  | cons e events ih => exact ⟨hlent.lands e, ih (hlent.step hcorrect h.1) h.2⟩

/-- **The numbers of the log**: over a correct backend, the records of every session carry the numbers of their places,
and no two records one point id, throughout just the runs whose appends all land; and the appends of an orderly run do. -/
theorem sequenced_iff (p : SessionLogPlugin S) {records : S → String → List SessionRecord}
    (hcorrect : p.backend.Correct records) (store : S) (hlabelled : Labelled (records store))
    (hsequenced : Sequenced (records store)) (events : List Event) :
    (Throughout p.step (fun s => Sequenced (records s.store)) (.new store) events ↔
        Along p.step (p.Lands records) (.new store) events) ∧
      (Along p.step (p.Orderly records) (.new store) events →
        Throughout p.step (fun s => Sequenced (records s.store)) (.new store) events) := by
  have hboth : Throughout p.step (fun s => Labelled (records s.store) ∧ Contiguous (records s.store)) (.new store) events ↔
      Along p.step (p.Lands records) (.new store) events := by
    refine throughout_iff_along (fun s e ⟨hl, hc⟩ => ?_) ⟨hlabelled, hsequenced.contiguous⟩ events
    rw [contiguous_step_iff hcorrect s e hc]
    exact and_iff_right (labelled_step hcorrect s e hl)
  have hall : Throughout p.step (fun s => Labelled (records s.store)) (.new store) events :=
    throughout_invariant (fun s e hl => labelled_step hcorrect s e hl) hlabelled events
  have hiff : Throughout p.step (fun s => Sequenced (records s.store)) (.new store) events ↔
      Along p.step (p.Lands records) (.new store) events := by
    rw [← hboth]
    constructor
    · exact fun h => hall.and (h.imp fun _ hs => hs.contiguous)
    · exact fun h => h.imp fun _ hs => (sequenced_iff_contiguous hs.1).mpr hs.2
  exact ⟨hiff, fun horderly => hiff.mpr (along_lands hcorrect (lent_new store) horderly)⟩

/-! ## Over the store in memory -/

def inMemory : SessionLogPlugin InMemoryStore := new InMemoryBackend.new.backend

/-- A record as `append_log` is given it. -/
def said (sessionId : String) : SessionRecord := ⟨sessionId, 0, 1, .output "said"⟩

/-- A call of `append_log`, to its end. -/
def logs (thread : Nat) (sessionId : String) : List Event :=
  [.appendLog thread sessionId (said sessionId), .takeNumber thread 1, .append thread]

def forks (thread : Nat) (sessionId pointId : String) : List Event :=
  [.forkSession thread sessionId pointId 1, .replay thread, .realign thread]

theorem sequenced_iff_forked :
    Throughout inMemory.step (fun s => Sequenced (InMemoryBackend.records s.store)) (.new InMemoryBackend.empty)
        (logs 0 "a" ++ forks 0 "a" "a:0" ++ logs 0 "a") ↔
      Along inMemory.step (inMemory.Lands InMemoryBackend.records) (.new InMemoryBackend.empty)
        (logs 0 "a" ++ forks 0 "a" "a:0" ++ logs 0 "a") :=
  (sequenced_iff inMemory (InMemoryBackend.inMemory_correct _) InMemoryBackend.empty (fun _ _ h => (nomatch h))
    ⟨fun _ _ _ h => (nomatch h), fun _ _ _ _ _ _ h => (nomatch h)⟩ _).1

/-- After a fork the branch has the numbers of its prefix, and the plugin starts again from 0; and of two threads, the
second to take a number can be the first to append. -/
theorem misnumbered :
    ¬ Throughout inMemory.step (fun s => Sequenced (InMemoryBackend.records s.store)) (.new InMemoryBackend.empty)
        (logs 0 "a" ++ forks 0 "a" "a:0" ++ logs 0 "a:fork:a:0:0") ∧
      ¬ Throughout inMemory.step (fun s => Sequenced (InMemoryBackend.records s.store)) (.new InMemoryBackend.empty)
        [.appendLog 0 "a" (said "a"), .appendLog 1 "a" (said "a"), .takeNumber 0 1, .takeNumber 1 1, .append 1, .append 0] := by
  constructor
  · intro h
    have hsequence := h.last.contiguous "a:fork:a:0:0" 1 ⟨"a:fork:a:0:0", 0, 1, .output "said"⟩ (by rfl)
    exact nomatch hsequence
  · intro h
    have hsequence := h.last.contiguous "a" 0 ⟨"a", 1, 1, .output "said"⟩ (by rfl)
    exact nomatch hsequence

end SessionLogPlugin
end Cuca.Session
