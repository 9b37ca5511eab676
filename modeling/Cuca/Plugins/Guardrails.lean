import Cuca.Canonical
import Cuca.Sse.Parser
import Mathlib.Data.List.AList

/-!
# JSON guardrails

A tool call whose arguments fail the tool's schema is replaced by a result that reports the violations, so that the model tries
again. A counter for each call id is to bound how often.

Compiling a schema and parsing a text as JSON are parameters.

* `AttemptCounters`, `JsonGuardrailPlugin.onStreamChunk` : the plugin;
* `run` : the blocks of a conversation, one after the other;
* `Bounded` : at most so many results invite a retry, and all later ones are final;
* `retries_bounded_iff` : calls with ids of their own are bounded exactly if there are no more of them.
-/

namespace Cuca.Guardrails
open Canonical

/-- A compiled schema: the violations of a value. -/
abbrev Validator := Value → List String

structure AttemptCounters where
  counts : AList fun _ : String => Nat
  /-- The ids in the order of their first failures. -/
  order : List String

structure JsonGuardrailPlugin where
  schemas : AList fun _ : String => Validator
  attempts : AttemptCounters
  maxAttempts : Nat
  lastRetryEvent : Option (String × String × Nat)

/-- `MAX_TRACKED_CALLS` -/
def maxTrackedCalls : Nat := 4096

/-! ## Counters -/

namespace AttemptCounters

/-- Forgets the oldest ids, until there is room for one more. -/
def evict (counts : AList fun _ : String => Nat) : List String → AttemptCounters
  | [] => ⟨counts, []⟩
  | oldest :: order =>
    if (oldest :: order).length ≥ maxTrackedCalls then evict (counts.erase oldest) order else ⟨counts, oldest :: order⟩

/-- One more failure of a call, and how many there are. -/
def fail (a : AttemptCounters) (id : String) : AttemptCounters × Nat :=
  match a.counts.lookup id with
  | some count => (⟨a.counts.insert id ((count + 1) % 2 ^ 32), a.order⟩, (count + 1) % 2 ^ 32)
  | none =>
    let kept := evict a.counts a.order
    (⟨kept.counts.insert id 1, kept.order ++ [id]⟩, 1)

def clear (a : AttemptCounters) (id : String) : AttemptCounters :=
  if id ∈ a.counts then ⟨a.counts.erase id, a.order.filter (· ≠ id)⟩ else a

end AttemptCounters

/-! ## The plugin -/

def errorOutput (error tool : String) (issues : List String) : String :=
  canonicalValue (fun _ => []) (.object [("error", .string error), ("tool", .string tool), ("issues", .array (issues.map .string))])

namespace JsonGuardrailPlugin

/-- The first schema that does not compile is reported. -/
def compile (validatorFor : Value → Except String Validator) (schemas : AList fun _ : String => Value) (maxAttempts : Nat) :
    Except PluginError JsonGuardrailPlugin := do
  let compiled ← schemas.entries.foldlM (fun (compiled : AList fun _ : String => Validator) schema =>
    match validatorFor schema.2 with
    | .ok validator => .ok (compiled.insert schema.1 validator)
    | .error e => .error (.validation schema.1 e)) ∅
  return { schemas := compiled, attempts := ⟨∅, []⟩, maxAttempts, lastRetryEvent := none }

def validate (p : JsonGuardrailPlugin) (toolName : String) (value : Value) : Except (List String) Unit :=
  match p.schemas.lookup toolName with
  | none => .ok ()
  | some validator => if (validator value).isEmpty then .ok () else .error (validator value)

/-- The plugin and the block after the hook. -/
def onStreamChunk (parseJson : String → Option Value) (p : JsonGuardrailPlugin) :
    MessageContentBlock → JsonGuardrailPlugin × MessageContentBlock
  | .toolCall id name arguments =>
    match p.validate name arguments with
    | .ok () => ({ p with attempts := p.attempts.clear id }, .toolCall id name arguments)
    | .error issues =>
      let (attempts, n) := p.attempts.fail id
      let error := if n ≤ p.maxAttempts then "schema_validation_failed" else "guardrail_exhausted"
      ({ p with attempts, lastRetryEvent := some (name, error, n) }, .toolResult id (errorOutput error name issues))
  | .text text =>
    if (text.toList.dropWhile Sse.isWhitespace).head? = some '\x7b' then
      match parseJson text with
      | none => (p, .text text)
      | some value =>
        match p.validate "response" value with
        | .ok () => (p, .text text)
        | .error issues => (p, .text (errorOutput "schema_validation_failed" "response" issues))
    else (p, .text text)
  | block => (p, block)

/-- The blocks of a conversation, and what becomes of each. -/
def run (parseJson : String → Option Value) (p : JsonGuardrailPlugin) :
    List MessageContentBlock → List (MessageContentBlock × MessageContentBlock)
  | [] => []
  | block :: blocks =>
    (block, (p.onStreamChunk parseJson block).2) :: run parseJson (p.onStreamChunk parseJson block).1 blocks

end JsonGuardrailPlugin

/-! ## The loop it is to bound -/

/-- The id of a tool call. -/
def callId : MessageContentBlock → Option String
  | .toolCall id _ _ => some id
  | _ => none

theorem callIds_sublist (block : MessageContentBlock) (blocks : List MessageContentBlock) :
    (blocks.filterMap callId).Sublist ((block :: blocks).filterMap callId) := (List.sublist_cons_self block blocks).filterMap callId

def callsTool (tool : String) : MessageContentBlock → Bool
  | .toolCall _ name _ => name == tool
  | _ => false

def resultsOf (tool : String) (outcomes : List (MessageContentBlock × MessageContentBlock)) : List MessageContentBlock :=
  (outcomes.filter fun outcome => callsTool tool outcome.1).map Prod.snd

theorem callsTool_iff {tool : String} {block : MessageContentBlock} :
    callsTool tool block = true ↔ ∃ id arguments, block = .toolCall id tool arguments := by
  constructor
  · intro h
    cases block with
    | toolCall id name arguments => exact ⟨id, arguments, by rw [eq_of_beq (show (name == tool) = true from h)]⟩
    | _ => exact nomatch h
  · rintro ⟨id, arguments, rfl⟩
    exact beq_self_eq_true tool

theorem resultsOf_cons (tool : String) (outcome : MessageContentBlock × MessageContentBlock)
    (outcomes : List (MessageContentBlock × MessageContentBlock)) :
    resultsOf tool (outcome :: outcomes) =
      if callsTool tool outcome.1 then outcome.2 :: resultsOf tool outcomes else resultsOf tool outcomes := by
  rw [resultsOf, List.filter_cons]
  split <;> rfl

def Reports (tool error : String) (block : MessageContentBlock) : Prop :=
  ∃ id issues, block = .toolResult id (errorOutput error tool issues)

/-- At most so many results invite a retry, and every later one is final. -/
def Bounded (maxAttempts : Nat) (tool : String) (results : List MessageContentBlock) : Prop :=
  ∃ retries ≤ maxAttempts, (∀ result ∈ results.take retries, Reports tool "schema_validation_failed" result) ∧
    ∀ result ∈ results.drop retries, Reports tool "guardrail_exhausted" result

theorem errorOutput_toList (error tool : String) (issues : List String) :
    ∃ rest, (errorOutput error tool issues).toList = '\x7b' :: (quoted "error" ++ ':' :: (quoted error ++ rest)) := by
  have hissues : "error" ≤ "issues" := by decide
  have htool : "error" ≤ "tool" := by decide
  have hlast : ¬ "tool" ≤ "issues" := by decide
  refine ⟨',' :: ((quoted "issues" ++ ':' :: sortedText (fun _ => []) (.array (issues.map .string))) ++
    ',' :: ((quoted "tool" ++ ':' :: quoted tool) ++ ['\x7d'])), ?_⟩
  simp only [errorOutput, canonicalValue, String.toList_ofList, sortedText, memberTexts, List.insertionSort, List.orderedInsert,
    List.foldr, hissues, htool, hlast, if_true, if_false]
  simp [bracketed]

theorem Reports.error_eq {tool error error' : String} {block : MessageContentBlock} (h : Reports tool error block)
    (h' : Reports tool error' block) : error = error' := by
  obtain ⟨id, issues, rfl⟩ := h
  obtain ⟨id', issues', heq⟩ := h'
  obtain ⟨-, htext⟩ := MessageContentBlock.toolResult.inj heq
  obtain ⟨rest, hrest⟩ := errorOutput_toList error tool issues
  obtain ⟨rest', hrest'⟩ := errorOutput_toList error' tool issues'
  rw [htext, hrest'] at hrest
  have hbehind := List.append_cancel_left (List.cons.inj hrest).2
  exact (delimits_quoted error' error _ _ (List.cons.inj hbehind).2).1.symm

/-! ## Ids of their own -/

theorem mem_evict (counts : AList fun _ : String => Nat) (order : List String) {id : String}
    (h : id ∈ (AttemptCounters.evict counts order).counts) : id ∈ counts := by
  induction order generalizing counts with
  | nil => exact h
  | cons oldest order ih =>
    rw [AttemptCounters.evict] at h
    split at h
    · exact (AList.mem_erase.mp (ih _ h)).2
    · exact h

theorem mem_fail (a : AttemptCounters) (id : String) {id' : String} (h : id' ∈ (a.fail id).1.counts) : id' = id ∨ id' ∈ a.counts := by
  unfold AttemptCounters.fail at h
  split at h
  · exact (AList.mem_insert _).mp h
  · exact ((AList.mem_insert _).mp h).imp_right (mem_evict _ _)

theorem fail_untracked (a : AttemptCounters) {id : String} (h : id ∉ a.counts) : (a.fail id).2 = 1 := by
  unfold AttemptCounters.fail
  rw [AList.lookup_eq_none.mpr h]

theorem mem_clear (a : AttemptCounters) (id : String) {id' : String} (h : id' ∈ (a.clear id).counts) : id' ∈ a.counts := by
  unfold AttemptCounters.clear at h
  split at h
  · exact (AList.mem_erase.mp h).2
  · exact h

namespace JsonGuardrailPlugin
variable (parseJson : String → Option Value)

theorem onStreamChunk_keeps (p : JsonGuardrailPlugin) (block : MessageContentBlock) :
    (p.onStreamChunk parseJson block).1.schemas = p.schemas ∧ (p.onStreamChunk parseJson block).1.maxAttempts = p.maxAttempts ∧
      ∀ id ∈ (p.onStreamChunk parseJson block).1.attempts.counts, id ∈ callId block ∨ id ∈ p.attempts.counts := by
  cases block with
  | toolCall id name arguments =>
    rw [onStreamChunk]
    split
    · exact ⟨rfl, rfl, fun id' h => .inr (mem_clear _ _ h)⟩
    · exact ⟨rfl, rfl, fun id' h => (mem_fail _ _ h).imp_left fun heq => by rw [heq]; rfl⟩
  | text text =>
    rw [onStreamChunk]
    split
    · split
      · exact ⟨rfl, rfl, fun _ => .inr⟩
      · split <;> exact ⟨rfl, rfl, fun _ => .inr⟩
    · exact ⟨rfl, rfl, fun _ => .inr⟩
  | imageBase64 | thinking | toolResult => exact ⟨rfl, rfl, fun _ => .inr⟩

variable {parseJson}

/-- **A call that fails**, and whose id was not tracked, is answered as a first failure. -/
theorem onStreamChunk_fails {p : JsonGuardrailPlugin} {id tool : String} {arguments : Value} {issues : List String}
    (hfails : p.validate tool arguments = .error issues) (hfresh : id ∉ p.attempts.counts) :
    (p.onStreamChunk parseJson (.toolCall id tool arguments)).2 =
      .toolResult id (errorOutput (if 1 ≤ p.maxAttempts then "schema_validation_failed" else "guardrail_exhausted") tool issues) := by
  rw [onStreamChunk, hfails]
  show MessageContentBlock.toolResult id (errorOutput (if (p.attempts.fail id).2 ≤ p.maxAttempts then _ else _) tool issues) = _
  rw [fail_untracked _ hfresh]

theorem length_resultsOf (p : JsonGuardrailPlugin) (tool : String) (blocks : List MessageContentBlock) :
    (resultsOf tool (p.run parseJson blocks)).length = blocks.countP (callsTool tool) := by
  induction blocks generalizing p with
  | nil => rfl
  | cons block blocks ih =>
    rw [run, resultsOf_cons, List.countP_cons]
    split
    · rw [List.length_cons, ih]
    · exact ih _

/-- **Every failing call** with an id of its own is answered as a first failure. -/
theorem resultsOf_run {p : JsonGuardrailPlugin} {tool : String} {blocks : List MessageContentBlock}
    (hfails : ∀ id arguments, .toolCall id tool arguments ∈ blocks → ∃ issues, p.validate tool arguments = .error issues)
    (hown : (blocks.filterMap callId).Nodup) (hfresh : ∀ id ∈ blocks.filterMap callId, id ∉ p.attempts.counts) :
    ∀ result ∈ resultsOf tool (p.run parseJson blocks),
      Reports tool (if 1 ≤ p.maxAttempts then "schema_validation_failed" else "guardrail_exhausted") result := by
  induction blocks generalizing p with
  | nil => exact nofun
  | cons block blocks ih =>
    obtain ⟨hschemas, hmax, htracked⟩ := onStreamChunk_keeps parseJson p block
    have hrest := ih (p := (p.onStreamChunk parseJson block).1)
      (fun id arguments hmem => by
        rw [validate, hschemas]
        exact hfails id arguments (List.mem_cons_of_mem _ hmem))
      (hown.sublist (callIds_sublist block blocks))
      (fun id hid htrack => by
        rcases htracked id htrack with hself | hold
        · rw [List.filterMap_cons, Option.mem_def.mp hself] at hown
          exact (List.nodup_cons.mp hown).1 hid
        · exact hfresh id ((callIds_sublist block blocks).subset hid) hold)
    rw [hmax] at hrest
    intro result hresult
    rw [run, resultsOf_cons] at hresult
    split at hresult
    · rename_i hcalls
      rcases List.mem_cons.mp hresult with rfl | hlater
      · obtain ⟨id, arguments, rfl⟩ := callsTool_iff.mp hcalls
        obtain ⟨issues, hissues⟩ := hfails id arguments List.mem_cons_self
        exact ⟨id, issues, onStreamChunk_fails hissues (hfresh id (List.mem_cons_self ..))⟩
      · exact hrest result hlater
    · exact hrest result hresult

theorem not_bounded_of_more {p : JsonGuardrailPlugin} {tool : String} {blocks : List MessageContentBlock}
    (hfails : ∀ id arguments, .toolCall id tool arguments ∈ blocks → ∃ issues, p.validate tool arguments = .error issues)
    (hown : (blocks.filterMap callId).Nodup) (hfresh : ∀ id ∈ blocks.filterMap callId, id ∉ p.attempts.counts)
    (hretries : 1 ≤ p.maxAttempts) (hmore : p.maxAttempts < blocks.countP (callsTool tool)) :
    ¬ Bounded p.maxAttempts tool (resultsOf tool (p.run parseJson blocks)) := by
  rintro ⟨retries, hle, -, hlater⟩
  have hbehind : (resultsOf tool (p.run parseJson blocks)).drop retries ≠ [] := by
    rw [Ne, List.drop_eq_nil_iff, length_resultsOf]
    omega
  obtain ⟨result, hresult⟩ := List.exists_mem_of_ne_nil _ hbehind
  have hfirst := resultsOf_run hfails hown hfresh result (List.mem_of_mem_drop hresult)
  rw [if_pos hretries] at hfirst
  exact absurd (hfirst.error_eq (hlater result hresult)) (by decide)

/-- **The loop is bounded** exactly if no retry is allowed, or there are no more calls than retries: every call is a first failure. -/
theorem retries_bounded_iff (parseJson : String → Option Value) (p : JsonGuardrailPlugin) (tool : String)
    (blocks : List MessageContentBlock)
    (hfails : ∀ id arguments, .toolCall id tool arguments ∈ blocks → ∃ issues, p.validate tool arguments = .error issues)
    (hown : (blocks.filterMap callId).Nodup) (hfresh : ∀ id ∈ blocks.filterMap callId, id ∉ p.attempts.counts) :
    Bounded p.maxAttempts tool (resultsOf tool (p.run parseJson blocks)) ↔
      p.maxAttempts = 0 ∨ blocks.countP (callsTool tool) ≤ p.maxAttempts := by
  have hresults := @resultsOf_run parseJson p tool blocks hfails hown hfresh
  by_cases hzero : p.maxAttempts = 0
  · refine iff_of_true ⟨0, Nat.zero_le _, (by rw [List.take_zero]; exact nofun), ?_⟩ (.inl hzero)
    rw [hzero] at hresults
    exact hresults
  · have hretries : 1 ≤ p.maxAttempts := Nat.pos_of_ne_zero hzero
    constructor
    · intro hbounded
      refine .inr (Nat.le_of_not_lt fun hmore => ?_)
      exact not_bounded_of_more hfails hown hfresh hretries hmore hbounded
    · rintro (h | hfew)
      · exact absurd h hzero
      · rw [if_pos hretries] at hresults
        refine ⟨p.maxAttempts, Nat.le_refl _, fun result h => hresults result (List.mem_of_mem_take h), ?_⟩
        rw [List.drop_of_length_le (by rw [length_resultsOf]; exact hfew)]
        exact nofun

/-- A schema that nothing satisfies, and one retry. -/
def strict : JsonGuardrailPlugin where
  schemas := (∅ : AList fun _ : String => Validator).insert "get_weather" fun _ => ["\"city\" is a required property"]
  attempts := ⟨∅, []⟩
  maxAttempts := 1
  lastRetryEvent := none

theorem strict_fails (arguments : Value) : ∃ issues, strict.validate "get_weather" arguments = .error issues :=
  ⟨["\"city\" is a required property"], by
    rw [validate, show strict.schemas.lookup "get_weather" = some _ from AList.lookup_insert _]
    rfl⟩

theorem strict_untracked (id : String) : id ∉ strict.attempts.counts := AList.notMem_empty id

theorem strict_bounded : Bounded 1 "get_weather"
    (resultsOf "get_weather" (strict.run (fun _ => none) [.toolCall "call-1" "get_weather" (.object [])])) :=
  (retries_bounded_iff (fun _ => none) strict "get_weather" [.toolCall "call-1" "get_weather" (.object [])]
    (fun _ arguments _ => strict_fails arguments) (by decide) fun id _ => strict_untracked id).mpr (.inr (by decide))

/-- Two calls are not: both are invited to retry. -/
theorem strict_unbounded : ¬ ∀ (p : JsonGuardrailPlugin) (blocks : List MessageContentBlock),
    (∀ id arguments, .toolCall id "get_weather" arguments ∈ blocks → ∃ issues, p.validate "get_weather" arguments = .error issues) →
    (blocks.filterMap callId).Nodup → (∀ id ∈ blocks.filterMap callId, id ∉ p.attempts.counts) →
    Bounded p.maxAttempts "get_weather" (resultsOf "get_weather" (p.run (fun _ => none) blocks)) := by
  intro h
  have hids : ([.toolCall "call-1" "get_weather" (.object []), .toolCall "call-2" "get_weather" (.object [])].filterMap callId).Nodup := by
    decide
  exact not_bounded_of_more (fun _ arguments _ => strict_fails arguments) hids (fun id _ => strict_untracked id) (by decide) (by decide)
    (h strict _ (fun _ arguments _ => strict_fails arguments) hids fun id _ => strict_untracked id)

end JsonGuardrailPlugin

end Cuca.Guardrails
