import Cuca.Memory.ClearedResults
import Cuca.Lib.History

/-!
# File reads that are read again

The pass goes over the messages from the last one back, but over the calls of one message from the first one on, so that of two
reads of one path in one message it takes the first for the newer one. Its lookup ends at a Tool message without a text, also
where that message carries the result as a block.

* `resultPlace` : where the result of a call is; `reached` : whether the lookup comes to it;
* `supersededPlaces`, `lastPlaces` : the results of the reads whose path is read again, and of the others;
* `dedupFileReads_eq` : what the pass blanks;
* `NewestLast` : the messages in which that is what is superseded;
* `dedups_iff` : the pass blanks the superseded results, and no other, exactly for these.
-/

namespace Cuca.Memory.Compaction

/-! ## Results of calls -/

/-- The id of a call and the path it reads. -/
abbrev Call := String × String

def isResultOf (callId : String) : MessageContentBlock → Bool
  | .toolResult toolCallId _ => toolCallId == callId
  | _ => false

def answers (callId : String) (msg : UnifiedMessage) : Bool := msg.role == .tool && msg.toolCallId == some callId

/-- Where the result of a call is: the texts of its Tool message, or a block under its id, whichever is first. -/
def resultPlace (callId : String) : List UnifiedMessage → Option (Nat × Option Nat)
  | [] => none
  | msg :: messages =>
    if answers callId msg && msg.content.any isText then some (0, none)
    else
      match msg.content.findIdx? (isResultOf callId) with
      | some j => some (0, some j)
      | none => (resultPlace callId messages).map fun place => (place.1 + 1, place.2)

/-- No Tool message of the call that has no text stands before its result or holds it. -/
def reached (callId : String) (messages : List UnifiedMessage) : Bool :=
  match resultPlace callId messages with
  | none => false
  | some place => !(messages.take (place.1 + 1)).any fun msg => answers callId msg && !msg.content.any isText

def textOf : MessageContentBlock → Option String
  | .text t => some t
  | _ => none

/-- The texts of an output. -/
def outputAt (messages : List UnifiedMessage) : Nat × Option Nat → List String
  | (i, some j) =>
    match blockAt messages i j with
    | some (.toolResult _ output) => [output]
    | _ => []
  | (i, none) => ((messages[i]?.map UnifiedMessage.content).getD []).filterMap textOf

/-! ## Reads -/

def reads (toolName : String) (messages : List UnifiedMessage) : List Call := (messages.map (readCalls toolName)).flatten

/-- The results of the reads whose path is read again later, with a result. -/
def supersededPlaces (messages : List UnifiedMessage) : List Call → List (Nat × Option Nat)
  | [] => []
  | r :: later =>
    (if later.any fun r' => r'.2 == r.2 && (resultPlace r'.1 messages).isSome then (resultPlace r.1 messages).toList else []) ++
      supersededPlaces messages later

/-- The results of the reads whose path is not. -/
def lastPlaces (messages : List UnifiedMessage) : List Call → List (Nat × Option Nat)
  | [] => []
  | r :: later =>
    (if later.any fun r' => r'.2 == r.2 && (resultPlace r'.1 messages).isSome then [] else (resultPlace r.1 messages).toList) ++
      lastPlaces messages later

/-- The superseded results are blanked and nothing else is, and the result of the last read of each path stays. -/
def DedupsReads {W : Type} (toolName : String) (s : Prompt W) : Prop :=
  let after := (MemoryPlugin.strategyDedupFileReads toolName s).2.messages
  after = blanking (supersededPlaces s.messages (reads toolName s.messages)) s.messages ∧
    ∀ place ∈ lastPlaces s.messages (reads toolName s.messages), outputAt after place = outputAt s.messages place

/-- A read of the path of `r` that the pass takes for the newer one: in a later message, or before it in its own. -/
def Overtakes (toolName : String) (messages : List UnifiedMessage) (r' r : Call) : Prop :=
  r'.2 = r.2 ∧ ((∃ calls ∈ messages.map (readCalls toolName), Before calls r' r) ∨
    ∃ calls newer, Before (messages.map (readCalls toolName)) calls newer ∧ r ∈ calls ∧ r' ∈ newer)

/-- The messages in which the pass finds the newest read of each path. -/
structure NewestLast (toolName : String) (messages : List UnifiedMessage) : Prop where
  /-- No result is both that of a last read and that of a superseded one. -/
  apart : ∀ place ∈ lastPlaces messages (reads toolName messages), place ∈ supersededPlaces messages (reads toolName messages) →
    IsBlank messages place
  /-- A last read whose result is reached has no such read of its path before it in its message. -/
  alone : ∀ place ∈ lastPlaces messages (reads toolName messages), ∀ calls ∈ messages.map (readCalls toolName), ∀ r r',
    Before calls r' r → r'.2 = r.2 → resultPlace r.1 messages = some place → reached r.1 messages = true →
    reached r'.1 messages = true → IsBlank messages place
  /-- The result of a superseded read is reached, and so is that of a read that overtakes it. -/
  found : ∀ place ∈ supersededPlaces messages (reads toolName messages), ¬ IsBlank messages place → ∃ r r',
    Overtakes toolName messages r' r ∧ resultPlace r.1 messages = some place ∧ reached r.1 messages = true ∧
      reached r'.1 messages = true

theorem mem_supersededPlaces {messages : List UnifiedMessage} {calls : List Call} {place : Nat × Option Nat} :
    place ∈ supersededPlaces messages calls ↔ ∃ r r', Before calls r r' ∧ r'.2 = r.2 ∧
      resultPlace r.1 messages = some place ∧ (resultPlace r'.1 messages).isSome = true := by
  induction calls with
  | nil =>
    refine iff_of_false List.not_mem_nil ?_
    rintro ⟨r, r', h, _⟩
    exact Before.not_nil h
  | cons c later ih =>
    have hany : (later.any fun r' => r'.2 == c.2 && (resultPlace r'.1 messages).isSome) = true ↔
        ∃ r' ∈ later, r'.2 = c.2 ∧ (resultPlace r'.1 messages).isSome = true := by
      simp only [List.any_eq_true, Bool.and_eq_true, beq_iff_eq]
    rw [supersededPlaces, List.mem_append, ih]
    constructor
    · rintro (h | ⟨r, r', hbefore, h⟩)
      · split_ifs at h with hlater
        · obtain ⟨r', hr', hpath, hresult⟩ := hany.mp hlater
          exact ⟨c, r', Before.before_cons.mpr (.inl ⟨rfl, hr'⟩), hpath, Option.mem_toList.mp h, hresult⟩
        · exact absurd h List.not_mem_nil
      · exact ⟨r, r', Before.before_cons.mpr (.inr hbefore), h⟩
    · rintro ⟨r, r', hbefore, hpath, hplace, hresult⟩
      rcases Before.before_cons.mp hbefore with ⟨rfl, hr'⟩ | hbefore
      · refine .inl ?_
        rw [if_pos (hany.mpr ⟨r', hr', hpath, hresult⟩)]
        exact Option.mem_toList.mpr hplace
      · exact .inr ⟨r, r', hbefore, hpath, hplace, hresult⟩

theorem mem_lastPlaces_or {messages : List UnifiedMessage} {calls : List Call} {r : Call} (hr : r ∈ calls)
    {place : Nat × Option Nat} (hplace : resultPlace r.1 messages = some place) :
    place ∈ lastPlaces messages calls ∨ place ∈ supersededPlaces messages calls := by
  induction calls with
  | nil => exact absurd hr List.not_mem_nil
  | cons c later ih =>
    rw [lastPlaces, supersededPlaces, List.mem_append, List.mem_append]
    rcases List.mem_cons.mp hr with rfl | hr
    · have hmem : place ∈ (resultPlace r.1 messages).toList := Option.mem_toList.mpr hplace
      split_ifs
      · exact .inr (.inl hmem)
      · exact .inl (.inl hmem)
    · exact (ih hr).imp .inr .inr

/-! ## The lookup -/

theorem findResultLocation_cons (callId : String) (msg : UnifiedMessage) (messages : List UnifiedMessage) :
    findResultLocation callId (msg :: messages) =
      if answers callId msg then if msg.content.any isText then some (0, none) else none
      else
        match msg.content.findIdx? (isResultOf callId) with
        | some j => some (0, some j)
        | none => (findResultLocation callId messages).map fun place => (place.1 + 1, place.2) := rfl

def silent (callId : String) (msg : UnifiedMessage) : Bool := answers callId msg && !msg.content.any isText

theorem reached_of_some {callId : String} {messages : List UnifiedMessage} {place : Nat × Option Nat}
    (h : resultPlace callId messages = some place) : reached callId messages = !(messages.take (place.1 + 1)).any (silent callId) := by
  rw [reached, h]
  rfl

theorem reached_isSome {callId : String} {messages : List UnifiedMessage} (h : reached callId messages = true) :
    ∃ place, resultPlace callId messages = some place := by
  rcases hplace : resultPlace callId messages with _ | place
  · rw [reached, hplace] at h
    exact absurd h Bool.false_ne_true
  · exact ⟨place, rfl⟩

theorem findResultLocation_eq (callId : String) (messages : List UnifiedMessage) :
    findResultLocation callId messages = if reached callId messages then resultPlace callId messages else none := by
  induction messages with
  | nil => rfl
  | cons msg messages ih =>
    rw [findResultLocation_cons]
    by_cases hanswers : answers callId msg = true
    · rw [if_pos hanswers]
      by_cases htext : msg.content.any isText = true
      · have hplace : resultPlace callId (msg :: messages) = some (0, none) := by
          rw [resultPlace, if_pos (by rw [hanswers, htext]; rfl)]
        have hsilent : silent callId msg = false := by rw [silent, hanswers, htext]; rfl
        rw [if_pos htext, reached_of_some hplace, hplace]
        simp only [Nat.zero_add, List.take_succ_cons, List.take_zero, List.any_cons, List.any_nil, hsilent, Bool.or_false,
          Bool.not_false, if_true]
      · rw [if_neg htext]
        have hsilent : silent callId msg = true := by
          rw [silent, hanswers, Bool.true_and, Bool.not_eq_true']
          exact Bool.not_eq_true _ ▸ htext
        rcases hplace : resultPlace callId (msg :: messages) with _ | place
        · rw [ite_self]
        · rw [reached_of_some hplace, List.take_succ_cons, List.any_cons, hsilent, Bool.true_or]
          rfl
    · rw [if_neg hanswers]
      have hsilent : silent callId msg = false := by
        rw [silent, Bool.and_eq_false_iff]
        exact .inl (Bool.not_eq_true _ ▸ hanswers)
      have hcons : resultPlace callId (msg :: messages) = match msg.content.findIdx? (isResultOf callId) with
          | some j => some (0, some j)
          | none => (resultPlace callId messages).map fun place => (place.1 + 1, place.2) := by
        rw [resultPlace, if_neg]
        intro h
        exact hanswers (Bool.and_eq_true_iff.mp h).1
      rcases hblock : msg.content.findIdx? (isResultOf callId) with _ | j
      · rw [hblock] at hcons
        dsimp only at hcons ⊢
        rw [ih]
        rcases hplace : resultPlace callId messages with _ | place
        · rw [hplace] at hcons
          rw [hcons, Option.map_none, ite_self, ite_self]
          rfl
        · rw [hplace] at hcons
          rw [reached_of_some hplace, reached_of_some hcons, hcons, List.take_succ_cons, List.any_cons, hsilent, Bool.false_or]
          split_ifs
          · rfl
          · rfl
      · rw [hblock] at hcons
        rw [reached_of_some hcons, hcons]
        simp only [Nat.zero_add, List.take_succ_cons, List.take_zero, List.any_cons, List.any_nil, hsilent, Bool.or_false,
          Bool.not_false, if_true]

def KeepsPlaces (f : Nat → Nat → MessageContentBlock → MessageContentBlock) : Prop :=
  ∀ i j block, isText (f i j block) = isText block ∧ ∀ callId, isResultOf callId (f i j block) = isResultOf callId block

theorem keepsPlaces_blankBlock (units : List (Nat × Option Nat)) : KeepsPlaces (blankBlock units) := by
  intro i j block
  cases block <;> exact ⟨rfl, fun _ => rfl⟩

theorem map_mapIdx_eq {α β : Type} {f : Nat → α → α} {q : α → β} (h : ∀ i x, q (f i x) = q x) (xs : List α) :
    (xs.mapIdx f).map q = xs.map q := by
  induction xs generalizing f with
  | nil => rfl
  | cons x xs ih => rw [List.mapIdx_cons, List.map_cons, List.map_cons, h, ih fun i x => h (i + 1) x]

theorem findResultLocation_mapIdx (callId : String) {f : Nat → Nat → MessageContentBlock → MessageContentBlock} (h : KeepsPlaces f)
    (messages : List UnifiedMessage) :
    findResultLocation callId (messages.mapIdx fun i msg => { msg with content := msg.content.mapIdx (f i) }) =
      findResultLocation callId messages := by
  induction messages generalizing f with
  | nil => rfl
  | cons msg messages ih =>
    have htext : (msg.content.mapIdx (f 0)).any isText = msg.content.any isText := by
      have hmap := congrArg (List.any · id) (map_mapIdx_eq (fun j block => (h 0 j block).1) msg.content)
      rw [List.any_map, List.any_map] at hmap
      exact hmap
    have hblock : (msg.content.mapIdx (f 0)).findIdx? (isResultOf callId) = msg.content.findIdx? (isResultOf callId) := by
      have hmap := congrArg (List.findIdx? id) (map_mapIdx_eq (fun j block => (h 0 j block).2 callId) msg.content)
      rw [List.findIdx?_map, List.findIdx?_map] at hmap
      exact hmap
    have hanswers : answers callId { msg with content := msg.content.mapIdx (f 0) } = answers callId msg := rfl
    rw [List.mapIdx_cons, findResultLocation_cons, findResultLocation_cons, ih fun i => h (i + 1), hanswers, htext, hblock]

theorem findResultLocation_blanking (callId : String) (units : List (Nat × Option Nat)) (messages : List UnifiedMessage) :
    findResultLocation callId (blanking units messages) = findResultLocation callId messages :=
  findResultLocation_mapIdx callId (keepsPlaces_blankBlock units) messages

/-- The read that a block asks for. -/
def readCall (toolName : String) : MessageContentBlock → Option Call
  | .toolCall id name arguments =>
    if name = toolName then ((arguments.get "path").bind Value.asStr).map fun path => (id, path) else none
  | _ => none

theorem readCalls_eq (toolName : String) (msg : UnifiedMessage) :
    readCalls toolName msg = (msg.content.map (readCall toolName)).filterMap id := by
  rw [List.filterMap_map]
  rfl

theorem readCalls_blanking (toolName : String) (units : List (Nat × Option Nat)) (messages : List UnifiedMessage) (i : Nat) :
    (blanking units messages)[i]?.map (readCalls toolName) = messages[i]?.map (readCalls toolName) := by
  rw [getElem?_blanking, Option.map_map]
  congr 1
  funext msg
  have hmap := map_mapIdx_eq (f := blankBlock units i) (q := readCall toolName)
    (fun j block => by cases block <;> rfl) msg.content
  rw [Function.comp, readCalls_eq, readCalls_eq, hmap]

/-! ## The walk -/

/-- What the pass has done behind some reads: it has blanked these units, and seen these paths. -/
structure Walked (messages : List UnifiedMessage) (calls : List Call) (s : Reads) (units : List (Nat × Option Nat)) : Prop where
  after : s.messages = blanking units messages
  blanked : ∀ place, place ∈ units ↔ ∃ r r', Before calls r' r ∧ r'.2 = r.2 ∧ resultPlace r.1 messages = some place ∧
    reached r.1 messages = true ∧ reached r'.1 messages = true
  seen : ∀ path, path ∈ s.seen ↔ ∃ r ∈ calls, r.2 = path ∧ reached r.1 messages = true

theorem walked_nil (messages : List UnifiedMessage) : Walked messages [] ⟨[], false, messages⟩ [] where
  after := (blanking_nil messages).symm
  blanked place := by
    refine iff_of_false List.not_mem_nil ?_
    rintro ⟨r, r', h, _⟩
    exact Before.not_nil h
  seen path := iff_of_false List.not_mem_nil fun ⟨_, h, _⟩ => absurd h List.not_mem_nil

theorem walked_read {messages : List UnifiedMessage} {calls : List Call} {s : Reads} {units : List (Nat × Option Nat)}
    (h : Walked messages calls s units) (c : Call) : ∃ units', Walked messages (calls ++ [c]) (s.read c) units' := by
  have hlookup : findResultLocation c.1 s.messages = if reached c.1 messages then resultPlace c.1 messages else none := by
    rw [h.after, findResultLocation_blanking, findResultLocation_eq]
  by_cases hreached : reached c.1 messages = true
  · obtain ⟨place, hplace⟩ := reached_isSome hreached
    rw [if_pos hreached, hplace] at hlookup
    have hunits (place' : Nat × Option Nat) : (∃ r r', Before (calls ++ [c]) r' r ∧ r'.2 = r.2 ∧
        resultPlace r.1 messages = some place' ∧ reached r.1 messages = true ∧ reached r'.1 messages = true) ↔
        place' ∈ units ∨ place' = place ∧ c.2 ∈ s.seen := by
      rw [h.blanked, h.seen]
      constructor
      · rintro ⟨r, r', hbefore, hpath, hat, hr, hr'⟩
        rcases Before.before_concat.mp hbefore with hbefore | ⟨hmem, rfl⟩
        · exact .inl ⟨r, r', hbefore, hpath, hat, hr, hr'⟩
        · exact .inr ⟨Option.some.inj (hat.symm.trans hplace), r', hmem, hpath, hr'⟩
      · rintro (⟨r, r', hbefore, hrest⟩ | ⟨rfl, r', hmem, hpath, hr'⟩)
        · exact ⟨r, r', Before.before_concat.mpr (.inl hbefore), hrest⟩
        · exact ⟨c, r', Before.before_concat.mpr (.inr ⟨hmem, rfl⟩), hpath, hplace, hreached, hr'⟩
    have hseen (path : String) : (∃ r ∈ calls ++ [c], r.2 = path ∧ reached r.1 messages = true) ↔ path ∈ s.seen ∨ path = c.2 := by
      rw [h.seen]
      constructor
      · rintro ⟨r, hmem, hpath, hr⟩
        rcases List.mem_append.mp hmem with hmem | hmem
        · exact .inl ⟨r, hmem, hpath, hr⟩
        · rw [List.mem_singleton.mp hmem] at hpath
          exact .inr hpath.symm
      · rintro (⟨r, hmem, hrest⟩ | rfl)
        · exact ⟨r, List.mem_append_left _ hmem, hrest⟩
        · exact ⟨c, List.mem_append_right _ List.mem_cons_self, rfl, hreached⟩
    rw [Reads.read, hlookup]
    dsimp only
    by_cases hmem : c.2 ∈ s.seen
    · rw [if_pos hmem]
      refine ⟨units ++ [place], ?_, fun place' => ?_, fun path => ?_⟩
      · rw [← blanking_append, ← h.after]
        exact blankResult_eq s.messages place
      · rw [hunits, List.mem_append, List.mem_singleton, and_iff_left hmem]
      · rw [hseen]
        exact ⟨.inl, fun h => h.elim id fun h => h ▸ hmem⟩
    · rw [if_neg hmem]
      refine ⟨units, h.after, fun place' => ?_, fun path => ?_⟩
      · rw [hunits]
        exact ⟨.inl, fun h => h.elim id fun h => absurd h.2 hmem⟩
      · rw [hseen, List.mem_cons, or_comm]
  · rw [if_neg hreached] at hlookup
    rw [Reads.read, hlookup]
    refine ⟨units, h.after, fun place' => ?_, fun path => ?_⟩
    · rw [h.blanked]
      constructor
      · rintro ⟨r, r', hbefore, hrest⟩
        exact ⟨r, r', Before.before_concat.mpr (.inl hbefore), hrest⟩
      · rintro ⟨r, r', hbefore, hpath, hat, hr, hr'⟩
        rcases Before.before_concat.mp hbefore with hbefore | ⟨_, rfl⟩
        · exact ⟨r, r', hbefore, hpath, hat, hr, hr'⟩
        · exact absurd hr hreached
    · rw [h.seen]
      constructor
      · rintro ⟨r, hmem, hrest⟩
        exact ⟨r, List.mem_append_left _ hmem, hrest⟩
      · rintro ⟨r, hmem, hpath, hr⟩
        rcases List.mem_append.mp hmem with hmem | hmem
        · exact ⟨r, hmem, hpath, hr⟩
        · rw [List.mem_singleton.mp hmem] at hr
          exact absurd hr hreached

theorem walked_foldl {messages : List UnifiedMessage} {before calls : List Call} {s : Reads} {units : List (Nat × Option Nat)}
    (h : Walked messages before s units) : ∃ units', Walked messages (before ++ calls) (calls.foldl Reads.read s) units' := by
  induction calls generalizing before s units with
  | nil => exact ⟨units, by rw [List.append_nil]; exact h⟩
  | cons c calls ih =>
    obtain ⟨units', h'⟩ := walked_read h c
    obtain ⟨units'', h''⟩ := ih h'
    rw [List.append_assoc, List.singleton_append] at h''
    exact ⟨units'', h''⟩

/-- **The messages from one list of places on**, the calls of each in their order. -/
theorem walked_readAll {toolName : String} {messages : List UnifiedMessage} {before : List Call} {s : Reads}
    {units : List (Nat × Option Nat)} (h : Walked messages before s units) (indices : List Nat) : ∃ units',
    Walked messages (before ++ indices.flatMap fun i => (messages[i]?.map (readCalls toolName)).getD [])
      (indices.foldl (Reads.readAll toolName) s) units' := by
  induction indices generalizing before s units with
  | nil => exact ⟨units, by rw [List.flatMap_nil, List.append_nil]; exact h⟩
  | cons i indices ih =>
    obtain ⟨units', h'⟩ := @walked_foldl _ _ ((messages[i]?.map (readCalls toolName)).getD []) _ _ h
    have hcalls : s.readAll toolName i = ((messages[i]?.map (readCalls toolName)).getD []).foldl Reads.read s := by
      rw [Reads.readAll, h.after, readCalls_blanking]
    rw [← hcalls] at h'
    obtain ⟨units'', h''⟩ := ih h'
    rw [List.append_assoc] at h''
    exact ⟨units'', by rw [List.flatMap_cons]; exact h''⟩

/-- **What the pass blanks**: the results of the reads that are overtaken. -/
theorem dedupFileReads_eq {W : Type} (toolName : String) (s : Prompt W) : ∃ units,
    (MemoryPlugin.strategyDedupFileReads toolName s).2.messages = blanking units s.messages ∧
      ∀ place, place ∈ units ↔ ∃ r r', Overtakes toolName s.messages r' r ∧ resultPlace r.1 s.messages = some place ∧
        reached r.1 s.messages = true ∧ reached r'.1 s.messages = true := by
  obtain ⟨units, h⟩ := @walked_readAll toolName _ _ _ _ (walked_nil s.messages) (List.range s.messages.length).reverse
  have hcalls : ((List.range s.messages.length).reverse.flatMap fun i => (s.messages[i]?.map (readCalls toolName)).getD []) =
      (s.messages.map (readCalls toolName)).reverse.flatten := by
    rw [List.flatMap_def, List.map_reverse]
    congr 2
    apply List.ext_getElem (by rw [List.length_map, List.length_range, List.length_map])
    intro i h₁ h₂
    rw [List.getElem_map, List.getElem_range, List.getElem_map, List.getElem?_eq_getElem (by rwa [List.length_map] at h₂)]
    rfl
  rw [List.nil_append, hcalls] at h
  refine ⟨units, h.after, fun place => ?_⟩
  rw [h.blanked]
  refine exists₂_congr fun r r' => ?_
  have hbefore : Before (s.messages.map (readCalls toolName)).reverse.flatten r' r ↔
      (∃ calls ∈ s.messages.map (readCalls toolName), Before calls r' r) ∨
        ∃ calls newer, Before (s.messages.map (readCalls toolName)) calls newer ∧ r ∈ calls ∧ r' ∈ newer := by
    rw [Before.before_flatten]
    simp only [List.mem_reverse, Before.before_reverse]
    refine or_congr_right ⟨?_, ?_⟩
    · rintro ⟨newer, calls, horder, hr', hr⟩
      exact ⟨calls, newer, horder, hr, hr'⟩
    · rintro ⟨calls, newer, horder, hr, hr'⟩
      exact ⟨newer, calls, horder, hr', hr⟩
  rw [hbefore, Overtakes, and_assoc, and_left_comm]

/-! ## Outputs -/

theorem textOf_blankBlock (units : List (Nat × Option Nat)) (i j : Nat) (block : MessageContentBlock) :
    textOf (blankBlock units i j block) = (textOf block).map fun t => if (i, none) ∈ units then "" else t := by
  cases block <;> rfl

theorem outputAt_blanking (units : List (Nat × Option Nat)) (messages : List UnifiedMessage) (place : Nat × Option Nat) :
    outputAt (blanking units messages) place = (outputAt messages place).map fun t => if place ∈ units then "" else t := by
  obtain ⟨i, _ | j⟩ := place
  · rw [outputAt, outputAt, getElem?_blanking]
    rcases messages[i]? with _ | msg
    · rfl
    · have hcontent : ∀ (content : List MessageContentBlock) (f : Nat → MessageContentBlock → MessageContentBlock),
          (∀ j block, textOf (f j block) = (textOf block).map fun t => if (i, none) ∈ units then "" else t) →
          (content.mapIdx f).filterMap textOf = (content.filterMap textOf).map fun t => if (i, none) ∈ units then "" else t := by
        intro content
        induction content with
        | nil => exact fun _ _ => rfl
        | cons block content ih =>
          intro f hf
          rw [List.mapIdx_cons, List.filterMap_cons, List.filterMap_cons, hf, ih _ fun j => hf (j + 1)]
          rcases textOf block with _ | t
          · rfl
          · rfl
      exact hcontent msg.content _ (textOf_blankBlock units i)
  · rw [outputAt, outputAt, blockAt_blanking]
    rcases blockAt messages i j with _ | block
    · rfl
    · cases block <;> rfl

theorem isBlank_iff {messages : List UnifiedMessage} {place : Nat × Option Nat} :
    IsBlank messages place ↔ ∀ t ∈ outputAt messages place, t = "" := by
  obtain ⟨i, _ | j⟩ := place
  · rw [IsBlank, outputAt]
    simp only [blockAt]
    rcases messages[i]? with _ | msg
    · simp
    · simp only [Option.bind_some, Option.map_some, Option.getD_some, List.mem_filterMap]
      constructor
      · rintro h t ⟨block, hmem, ht⟩
        obtain ⟨j, hj⟩ := List.mem_iff_getElem?.mp hmem
        apply h j t
        cases block <;> cases ht
        exact hj
      · intro h j t ht
        exact h t ⟨_, List.mem_of_getElem? ht, rfl⟩
  · rw [IsBlank, outputAt]
    rcases blockAt messages i j with _ | block
    · simp
    · cases block <;> simp

theorem outputAt_blanking_eq_iff {units : List (Nat × Option Nat)} {messages : List UnifiedMessage} {place : Nat × Option Nat} :
    outputAt (blanking units messages) place = outputAt messages place ↔ (place ∈ units → IsBlank messages place) := by
  rw [outputAt_blanking, isBlank_iff]
  by_cases hmem : place ∈ units
  · simp only [hmem, if_true, true_implies]
    induction outputAt messages place with
    | nil => simp
    | cons t ts ih => rw [List.map_cons, List.cons.injEq, List.forall_mem_cons, ih, eq_comm]
  · simp only [hmem, if_false, List.map_id', false_implies]

/-! ## What is superseded -/

theorem Overtakes.order {toolName : String} {messages : List UnifiedMessage} {r' r : Call} (h : Overtakes toolName messages r' r) :
    Before (reads toolName messages) r r' ∨ ∃ calls ∈ messages.map (readCalls toolName), Before calls r' r := by
  rcases h.2 with hsame | hlater
  · exact .inr hsame
  · exact .inl (Before.before_flatten.mpr (.inr hlater))

/-- **The pass blanks the superseded results**, and keeps the last of each path, exactly where it finds the newest reads. -/
theorem dedups_iff {W : Type} (toolName : String) (s : Prompt W) :
    DedupsReads toolName s ↔ NewestLast toolName s.messages := by
  obtain ⟨units, hafter, hunits⟩ := dedupFileReads_eq toolName s
  rw [DedupsReads, hafter, blanking_eq_blanking_iff]
  constructor
  · rintro ⟨hsame, hkept⟩
    have hlast {place : Nat × Option Nat} (hplace : place ∈ lastPlaces s.messages (reads toolName s.messages))
        (hmem : place ∈ units) : IsBlank s.messages place := outputAt_blanking_eq_iff.mp (hkept place hplace) hmem
    refine ⟨fun place hplace hold => ?_, fun place hplace calls hcalls r r' hbefore hpath hat hr hr' => ?_,
      fun place hold hfull => ?_⟩
    · by_contra hfull
      exact hfull (hlast hplace ((hsame place hfull).mpr hold))
    · exact hlast hplace ((hunits place).mpr ⟨r, r', ⟨hpath, .inl ⟨calls, hcalls, hbefore⟩⟩, hat, hr, hr'⟩)
    · exact (hunits place).mp ((hsame place hfull).mpr hold)
  · intro h
    have hsound {place : Nat × Option Nat} (hfull : ¬ IsBlank s.messages place) (hmem : place ∈ units) :
        place ∈ supersededPlaces s.messages (reads toolName s.messages) := by
      obtain ⟨r, r', hover, hat, hr, hr'⟩ := (hunits place).mp hmem
      obtain ⟨place', hat'⟩ := reached_isSome hr'
      rcases hover.order with hbehind | ⟨calls, hcalls, hbefore⟩
      · exact mem_supersededPlaces.mpr ⟨r, r', hbehind, hover.1, hat, by rw [hat']; rfl⟩
      · have hread : r ∈ reads toolName s.messages := List.mem_flatten.mpr ⟨calls, hcalls, hbefore.right_mem⟩
        rcases mem_lastPlaces_or hread hat with hlast | hold
        · exact absurd (h.alone place hlast calls hcalls r r' hbefore hover.1 hat hr hr') hfull
        · exact hold
    refine ⟨fun place hfull => ⟨hsound hfull, fun hold => (hunits place).mpr (h.found place hold hfull)⟩, fun place hlast => ?_⟩
    apply outputAt_blanking_eq_iff.mpr
    intro hmem
    by_contra hfull
    exact hfull (h.apart place hlast (hsound hfull hmem))

def reading (id path : String) : MessageContentBlock := .toolCall id "read_file" (.object [("path", .string path)])

def textAnswer (id output : String) : UnifiedMessage := ⟨.tool, [.text output], none, some id⟩

def readTwice : List UnifiedMessage :=
  [⟨.assistant, [reading "c1" "/a", reading "c2" "/a"], none, none⟩, textAnswer "c1" "old", textAnswer "c2" "new"]

/-- **The newer of two reads in one message** is blanked, and the older one stays. -/
theorem newest_read_blanked : ¬ DedupsReads "read_file" (⟨(), readTwice⟩ : Prompt Unit) := by
  rintro ⟨-, hkept⟩
  have hnew := hkept (2, none) (by decide)
  revert hnew
  decide

end Cuca.Memory.Compaction
