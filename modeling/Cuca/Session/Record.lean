import Cuca.Lib.Assoc
import Cuca.Types

/-!
# Session records

One record for each logged event. A record is named by its point id, the session and the sequence number.

* `pointId_injective` : the name tells both;
* `SessionBackend` : the storage seam, `Correct` : what it promises about the records of each session;
* `InMemoryBackend` : the capped store in memory, `inMemory_correct` : it keeps the promise.
-/

namespace Cuca.Session

inductive SessionEvent where
  | systemPrompt (text : String)
  | message (role : MessageRole) (content : List MessageContentBlock)
  | reasoning (reasoning : String) (signature : Option String)
  | output (text : String)
  | toolCall (id : String) (name : String) (arguments : Value)
  | toolResult (toolCallId : String) (output : String) (stdout stderr : Option String) (exitCode : Option Int)
  | modelSwap (fromModel toModel : String) (reason : String)
  | latency (durationMs : Nat)
  | tokenUsage (promptTokens completionTokens : Nat)
  | fork (fromPoint : String) (toSession : String)
  deriving Repr

structure SessionRecord where
  sessionId : String
  sequence : Nat
  timestampMs : Nat
  event : SessionEvent
  deriving Repr

def SessionRecord.pointId (r : SessionRecord) : String := s!"{r.sessionId}:{r.sequence}"

/-- **Point ids**: the last colon ends the session id, since a number has none. -/
theorem pointId_injective {r r' : SessionRecord} (h : r.pointId = r'.pointId) :
    r.sessionId = r'.sessionId ∧ r.sequence = r'.sequence := by
  have hcolon (n : Nat) : ':' ∉ (Nat.toDigits 10 n).reverse := fun hmem => by
    have hdigit := Nat.isDigit_of_mem_toDigits (by decide) (by decide) (List.mem_reverse.mp hmem)
    exact absurd hdigit (by decide)
  have hlist (r : SessionRecord) : r.pointId.toList = r.sessionId.toList ++ ':' :: Nat.toDigits 10 r.sequence := by
    show (r.sessionId ++ ":" ++ Nat.repr r.sequence).toList = _
    simp [String.toList_append, Nat.toList_repr]
  have hreverse := congrArg (fun s => s.toList.reverse) h
  simp only [hlist, List.reverse_append, List.reverse_cons, List.append_assoc, List.singleton_append] at hreverse
  -- reading backwards, the number is what comes before the first colon
  have hnumber (n : Nat) (rest : List Char) :
      ((Nat.toDigits 10 n).reverse ++ ':' :: rest).takeWhile (· ≠ ':') = (Nat.toDigits 10 n).reverse := by
    have hother : ∀ c ∈ (Nat.toDigits 10 n).reverse, decide (c ≠ ':') = true := by
      intro c hc
      refine decide_eq_true fun heq => hcolon n ?_
      rwa [heq] at hc
    rw [List.takeWhile_append_of_pos hother]
    simp
  have hdigits : (Nat.toDigits 10 r.sequence).reverse = (Nat.toDigits 10 r'.sequence).reverse := by
    rw [← hnumber r.sequence r.sessionId.toList.reverse, hreverse, hnumber]
  rw [hdigits] at hreverse
  obtain ⟨_, hsession⟩ := List.cons.inj (List.append_cancel_left hreverse)
  refine ⟨String.toList_injective (List.reverse_injective hsession), ?_⟩
  rw [← @Nat.ofDigitChars_ten_toDigits r.sequence, List.reverse_injective hdigits, Nat.ofDigitChars_ten_toDigits]

/-! ## Storage of session records -/

/-- The operations of a store with states `S`, at a time in epoch millis where they read the clock. -/
structure SessionBackend (S : Type) where
  append : S → SessionRecord → Except PluginError Unit × S
  replay : S → String → Except PluginError (List SessionRecord) × S
  fork : S → String → String → Nat → Except PluginError String × S

def relabelled (records : List SessionRecord) (newId : String) : List SessionRecord :=
  records.map fun r => { r with sessionId := newId }

def auditRecord (sessionId pointId newId : String) (sequence now : Nat) : SessionRecord :=
  ⟨sessionId, sequence, now, .fork pointId newId⟩

/-! ## The store in memory -/

structure InMemoryStore where
  sessions : AList (fun _ : String => List SessionRecord)
  total : Nat
  forkCounter : Nat

structure InMemoryBackend where
  maxRecords : Nat
  nonzero : maxRecords ≠ 0

namespace InMemoryBackend

def new : InMemoryBackend := ⟨65536, by decide⟩

def withMaxRecords (maxRecords : Nat) : Except PluginError InMemoryBackend :=
  if h : maxRecords = 0 then .error (.validation "max_records" "max_records must be non-zero") else .ok ⟨maxRecords, h⟩

def empty : InMemoryStore := ⟨∅, 0, 0⟩

def fullError (b : InMemoryBackend) (needed total : Nat) : PluginError :=
  .internal (s!"in-memory session log full: {total} of {b.maxRecords} records stored and {needed} more needed; " ++
    "raise max_records or use FileBackend for disk-bound growth")

def records (s : InMemoryStore) (sessionId : String) : List SessionRecord := (s.sessions.lookup sessionId).getD []

def append (b : InMemoryBackend) (s : InMemoryStore) (record : SessionRecord) : Except PluginError Unit × InMemoryStore :=
  if s.total ≥ b.maxRecords then (.error (b.fullError 1 s.total), s)
  else
    (.ok (), { s with
      sessions := s.sessions.insert record.sessionId (records s record.sessionId ++ [record])
      total := s.total + 1 })

def replay (s : InMemoryStore) (sessionId : String) : Except PluginError (List SessionRecord) × InMemoryStore :=
  (.ok (records s sessionId), s)

def fork (b : InMemoryBackend) (s : InMemoryStore) (sessionId pointId : String) (now : Nat) :
    Except PluginError String × InMemoryStore :=
  let stored := records s sessionId
  match stored.findIdx? fun r => r.pointId == pointId with
  | none =>
    (.error (.validation "point_id" s!"no record with point_id `{pointId}` in session `{sessionId}`"), s)
  | some index =>
    let needed := index + 2
    if s.total + needed > b.maxRecords then (.error (b.fullError needed s.total), s)
    else
      let newId := s!"{sessionId}:fork:{pointId}:{s.forkCounter}"
      let sessions := s.sessions.insert newId (relabelled (stored.take (index + 1)) newId)
      let sessions := match sessions.lookup sessionId with
        | some v => sessions.insert sessionId (v ++ [auditRecord sessionId pointId newId stored.length now])
        | none => sessions
      (.ok newId, ⟨sessions, s.total + needed, s.forkCounter + 1⟩)

def backend (b : InMemoryBackend) : SessionBackend InMemoryStore := ⟨b.append, replay, b.fork⟩

end InMemoryBackend

/-! ## What a store promises -/

/-- Every operation that answers `Err` leaves the records as they were; an append adds the record, as it is, at the end
of its session; a fork adds a branch, the prefix up to the point, and the audit record at the end of the original. -/
structure SessionBackend.Correct {S : Type} (b : SessionBackend S) (records : S → String → List SessionRecord) : Prop where
  append_ok : ∀ {s s' r}, b.append s r = (.ok (), s') →
    records s' = Function.update (records s) r.sessionId (records s r.sessionId ++ [r])
  append_error : ∀ {s s' r e}, b.append s r = (.error e, s') → records s' = records s
  replay : ∀ {s s' id answer}, b.replay s id = (answer, s') →
    records s' = records s ∧ ∀ rs, answer = .ok rs → rs = records s id
  fork_ok : ∀ {s s' id pointId now newId}, b.fork s id pointId now = (.ok newId, s') →
    newId ≠ id ∧ ∃ index r, (records s id)[index]? = some r ∧ r.pointId = pointId ∧
      records s' = Function.update
        (Function.update (records s) newId (relabelled ((records s id).take (index + 1)) newId)) id
        (records s id ++ [auditRecord id pointId newId (records s id).length now])
  fork_error : ∀ {s s' id pointId now e}, b.fork s id pointId now = (.error e, s') → records s' = records s

namespace InMemoryBackend

theorem records_insert (sessions : AList (fun _ : String => List SessionRecord)) (total counter : Nat) (id : String)
    (v : List SessionRecord) :
    records ⟨sessions.insert id v, total, counter⟩ = Function.update (records ⟨sessions, total, counter⟩) id v := by
  funext other
  rcases eq_or_ne other id with rfl | hne
  · simp [records]
  · simp [records, hne]

theorem newId_ne (sessionId pointId : String) (n : Nat) : s!"{sessionId}:fork:{pointId}:{n}" ≠ sessionId := by
  intro h
  have hcolon : (":" : String).toList.length = 1 := by decide
  change sessionId ++ ":fork:" ++ pointId ++ ":" ++ Nat.repr n = sessionId at h
  have htotal := congrArg (fun s => s.toList.length) h
  simp only [String.toList_append, List.length_append] at htotal
  omega

theorem append_spec (b : InMemoryBackend) (s : InMemoryStore) (r : SessionRecord) :
    (∃ e, b.append s r = (.error e, s)) ∨
      ∃ s', b.append s r = (.ok (), s') ∧
        records s' = Function.update (records s) r.sessionId (records s r.sessionId ++ [r]) := by
  rw [append]
  split
  · exact .inl ⟨_, rfl⟩
  · exact .inr ⟨_, rfl, records_insert ..⟩

theorem fork_spec (b : InMemoryBackend) (s : InMemoryStore) (id pointId : String) (now : Nat) :
    (∃ e, b.fork s id pointId now = (.error e, s)) ∨
      ∃ newId s' index r, b.fork s id pointId now = (.ok newId, s') ∧ newId ≠ id ∧
        (records s id)[index]? = some r ∧ r.pointId = pointId ∧
        records s' = Function.update
          (Function.update (records s) newId (relabelled ((records s id).take (index + 1)) newId)) id
          (records s id ++ [auditRecord id pointId newId (records s id).length now]) := by
  rw [fork]
  dsimp only
  split
  case h_1 => exact .inl ⟨_, rfl⟩
  case h_2 index hindex =>
    obtain ⟨hlt, hpoint, _⟩ := List.findIdx?_eq_some_iff_getElem.mp hindex
    split
    · exact .inl ⟨_, rfl⟩
    · refine .inr ⟨_, _, index, _, rfl, newId_ne id pointId s.forkCounter, List.getElem?_eq_getElem hlt, eq_of_beq hpoint, ?_⟩
      -- the original is in the map, since it has the record at the fork point
      obtain ⟨v, hv⟩ : ∃ v, s.sessions.lookup id = some v := by
        rcases hlookup : s.sessions.lookup id with _ | v
        · rw [records, hlookup] at hlt
          exact absurd hlt (Nat.not_lt_zero _)
        · exact ⟨v, rfl⟩
      have hrecords : records s id = v := by rw [records, hv, Option.getD_some]
      rw [AList.lookup_insert_ne (newId_ne id pointId s.forkCounter).symm, hv]
      dsimp only
      rw [records_insert, records_insert, hrecords]
      rfl

/-- **The store in memory** keeps the promise. -/
theorem inMemory_correct (b : InMemoryBackend) : b.backend.Correct records where
  append_ok := by
    intro s s' r h
    rcases b.append_spec s r with ⟨e, herror⟩ | ⟨s'', hok, hrecords⟩
    · cases h.symm.trans herror
    · cases h.symm.trans hok
      exact hrecords
  append_error := by
    intro s s' r e h
    rcases b.append_spec s r with ⟨e', herror⟩ | ⟨s'', hok, hrecords⟩
    · cases h.symm.trans herror
      rfl
    · cases h.symm.trans hok
  replay := by
    intro s s' id answer h
    cases h
    exact ⟨rfl, fun rs hrs => (Except.ok.inj hrs).symm⟩
  fork_ok := by
    intro s s' id pointId now newId h
    rcases b.fork_spec s id pointId now with ⟨e, herror⟩ | ⟨newId', s'', index, r, hok, hne, hr, hpoint, hrecords⟩
    · cases h.symm.trans herror
    · cases h.symm.trans hok
      exact ⟨hne, index, r, hr, hpoint, hrecords⟩
  fork_error := by
    intro s s' id pointId now e h
    rcases b.fork_spec s id pointId now with ⟨e', herror⟩ | ⟨newId', s'', index, r, hok, _⟩
    · cases h.symm.trans herror
      rfl
    · cases h.symm.trans hok

end InMemoryBackend
end Cuca.Session
