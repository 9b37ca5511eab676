import Cuca.Anthropic.Request
import Cuca.OpenAiCompat.Carried

/-!
# What Anthropic events say, and what the translator makes of them

The events of a reply say that blocks start, go on and stop; control events may stand anywhere. The accumulators are all that
the translator keeps between two of them.

* `WireEvent`, `Says` : what an event says;
* `Accumulators.step` : what the translator makes of it, and `translate_said`;
* `translateAll` : the blocks of a run of events, and `translateAll_said`.
-/

namespace Cuca.Anthropic
open Sse
open OpenAiCompat.ChatCompletionTranslator (argumentsOf)

/-- A call as the server sends it: the input its block starts with, and the fragments of its JSON. -/
structure ToolUse where
  id : String
  name : String
  input : List (String × Value)
  fragments : List String

inductive WireEvent where
  /-- `ping`, `message_start` or `message_delta`. -/
  | control
  | startText
  | startThinking
  | startToolUse (use : ToolUse)
  | textDelta (text : String)
  | thinkingDelta (thinking : String)
  | signatureDelta (signature : String)
  | inputJsonDelta (fragment : String)
  | stop

def WireEvent.isControl : WireEvent → Bool
  | control => true
  | _ => false

/-! ## Events -/

section
variable (fromStr : String → Except String Value)

def HasString (key text : String) (value : Value) : Prop := value.get key = some (.string text)

def Carries (event key : String) (part : Value → Prop) (ev : SseEvent) : Prop :=
  ev.event = event ∧ ∃ frame value, fromStr ev.data = .ok frame ∧ frame.get key = some value ∧ part value

def Says (ev : SseEvent) : WireEvent → Prop
  | .control => ev.event = "ping" ∨ ev.event = "message_start" ∨ ev.event = "message_delta"
  | .startText => Carries fromStr "content_block_start" "content_block" (HasString "type" "text") ev
  | .startThinking => Carries fromStr "content_block_start" "content_block" (HasString "type" "thinking") ev
  | .startToolUse use => Carries fromStr "content_block_start" "content_block" (fun block => HasString "type" "tool_use" block ∧
      HasString "id" use.id block ∧ HasString "name" use.name block ∧ block.get "input" = some (.object use.input)) ev
  | .textDelta text => Carries fromStr "content_block_delta" "delta"
      (fun delta => HasString "type" "text_delta" delta ∧ HasString "text" text delta) ev
  | .thinkingDelta thinking => Carries fromStr "content_block_delta" "delta"
      (fun delta => HasString "type" "thinking_delta" delta ∧ HasString "thinking" thinking delta) ev
  | .signatureDelta signature => Carries fromStr "content_block_delta" "delta"
      (fun delta => HasString "type" "signature_delta" delta ∧ HasString "signature" signature delta) ev
  | .inputJsonDelta fragment => Carries fromStr "content_block_delta" "delta"
      (fun delta => HasString "type" "input_json_delta" delta ∧ HasString "partial_json" fragment delta) ev
  | .stop => ev.event = "content_block_stop" ∧ ∃ frame, fromStr ev.data = .ok frame

/-- The blocks of a run of events, up to the first error. -/
def translateAll : AnthropicTranslator → List SseEvent → Except CucaError (List MessageContentBlock)
  | _, [] => .ok []
  | t, ev :: events =>
    match t.translate fromStr ev with
    | (.error e, _) => .error e
    | (.ok emitted, t) =>
      match translateAll t events with
      | .error e => .error e
      | .ok more => .ok (emitted.toList ++ more)

/-! ## The accumulators -/

structure Accumulators where
  current : Option BlockKind
  toolAcc : Option (String × String × String)
  reasoning : Option String
  signature : Option String

def AnthropicTranslator.accumulators (t : AnthropicTranslator) : Accumulators :=
  ⟨t.current, t.toolAcc, t.reasoning, t.signature⟩

namespace Accumulators

def step (a : Accumulators) : WireEvent → Option MessageContentBlock × Accumulators
  | .control => (none, a)
  | .startText => (none, { a with current := some .text })
  | .startThinking => (none, { a with current := some .thinking, reasoning := some "", signature := none })
  | .startToolUse use => (none, { a with current := some .toolUse, toolAcc := some (use.id, use.name, "") })
  | .textDelta text => (if text = "" then none else some (.text text), a)
  | .thinkingDelta thinking => (none, { a with reasoning := a.reasoning.map (· ++ thinking) })
  | .signatureDelta signature => (none, if signature = "" then a else { a with signature := some signature })
  | .inputJsonDelta fragment =>
    (none, { a with toolAcc := a.toolAcc.map fun (id, name, acc) => (id, name, acc ++ fragment) })
  | .stop =>
    match a.current with
    | none => (none, a)
    | some .text => (none, { a with current := none })
    | some .thinking =>
      (some (.thinking (a.reasoning.getD "") a.signature), { a with current := none, reasoning := none, signature := none })
    | some .toolUse =>
      let (id, name, fragment) := a.toolAcc.getD ("", "", "")
      (some (.toolCall id name (argumentsOf fromStr fragment)), { a with current := none, toolAcc := none })

def run (a : Accumulators) : List WireEvent → List MessageContentBlock × Accumulators
  | [] => ([], a)
  | w :: wire => (((a.step fromStr w).1.toList ++ (run (a.step fromStr w).2 wire).1), (run (a.step fromStr w).2 wire).2)

theorem run_append (a : Accumulators) (first second : List WireEvent) : a.run fromStr (first ++ second) =
    ((a.run fromStr first).1 ++ ((a.run fromStr first).2.run fromStr second).1, ((a.run fromStr first).2.run fromStr second).2) := by
  induction first generalizing a with
  | nil => rfl
  | cons w first ih => rw [List.cons_append, run, run, ih, List.append_assoc]

theorem run_filter (a : Accumulators) (wire : List WireEvent) :
    a.run fromStr (wire.filter fun w => !w.isControl) = a.run fromStr wire := by
  induction wire generalizing a with
  | nil => rfl
  | cons w wire ih =>
    cases w with
    | control =>
      rw [List.filter_cons_of_neg (by exact Bool.false_ne_true), ih, run]
      rfl
    | _ => rw [List.filter_cons_of_pos rfl, run, run, ih]

end Accumulators

end

section
variable {fromStr : String → Except String Value}

theorem stringAt_of_hasString {key text : String} {value : Value} (h : HasString key text value) : stringAt key value = text := by
  rw [stringAt, h]
  rfl

theorem translate_content {t : AnthropicTranslator} {ev : SseEvent} {frame : Value} (hread : fromStr ev.data = .ok frame) :
    (ev.event = "content_block_start" → t.translate fromStr ev = (.ok none, t.onBlockStart frame)) ∧
      (ev.event = "content_block_delta" → t.translate fromStr ev = (.ok (t.onBlockDelta frame).1, (t.onBlockDelta frame).2)) ∧
      (ev.event = "content_block_stop" → t.translate fromStr ev = (.ok (t.onBlockStop fromStr).1, (t.onBlockStop fromStr).2)) := by
  refine ⟨fun h => ?_, fun h => ?_, fun h => ?_⟩
  · simp [AnthropicTranslator.translate, h, hread]
  · simp [AnthropicTranslator.translate, h, hread]
  · simp [AnthropicTranslator.translate, h, hread]

theorem type_of_hasString {text : String} {value : Value} (h : HasString "type" text value) :
    (value.get "type").bind Value.asStr = some text := by
  rw [h]
  rfl

theorem onBlockStop_eq (t : AnthropicTranslator) : (t.onBlockStop fromStr).1 = (t.accumulators.step fromStr .stop).1 ∧
    (t.onBlockStop fromStr).2.accumulators = (t.accumulators.step fromStr .stop).2 := by
  obtain ⟨current, toolAcc, reasoning, signature, done, usage⟩ := t
  rcases current with _ | _ | _ | _
  · exact ⟨rfl, rfl⟩
  · exact ⟨rfl, rfl⟩
  · exact ⟨rfl, rfl⟩
  · exact ⟨rfl, rfl⟩

/-- **One event**: the translator makes of it what it says. -/
theorem translate_said {t : AnthropicTranslator} {ev : SseEvent} {w : WireEvent} (h : Says fromStr ev w) :
    ∃ t', t.translate fromStr ev = (.ok (t.accumulators.step fromStr w).1, t') ∧
      t'.accumulators = (t.accumulators.step fromStr w).2 := by
  cases w with
  | control =>
    rcases h with hping | hstart | hdelta
    · exact ⟨t, by simp [AnthropicTranslator.translate, hping, Accumulators.step], rfl⟩
    · rcases hread : fromStr ev.data with e | frame
      · exact ⟨t, by simp [AnthropicTranslator.translate, hstart, hread, Accumulators.step], rfl⟩
      · exact ⟨{ t with promptCacheUsage := promptCacheUsageOf frame },
          by simp [AnthropicTranslator.translate, hstart, hread, Accumulators.step], rfl⟩
    · exact ⟨t, by simp [AnthropicTranslator.translate, hdelta, Accumulators.step], rfl⟩
  | startText =>
    obtain ⟨hevent, frame, block, hread, hblock, htype⟩ := h
    refine ⟨_, (translate_content hread).1 hevent, ?_⟩
    rw [AnthropicTranslator.onBlockStart, hblock]
    dsimp only
    rw [type_of_hasString htype]
    rfl
  | startThinking =>
    obtain ⟨hevent, frame, block, hread, hblock, htype⟩ := h
    refine ⟨_, (translate_content hread).1 hevent, ?_⟩
    rw [AnthropicTranslator.onBlockStart, hblock]
    dsimp only
    rw [type_of_hasString htype]
    rfl
  | startToolUse use =>
    obtain ⟨hevent, frame, block, hread, hblock, htype, hid, hname, _⟩ := h
    refine ⟨_, (translate_content hread).1 hevent, ?_⟩
    rw [AnthropicTranslator.onBlockStart, hblock]
    dsimp only
    rw [type_of_hasString htype, stringAt_of_hasString hid, stringAt_of_hasString hname]
    rfl
  | textDelta text =>
    obtain ⟨hevent, frame, delta, hread, hdelta, htype, htext⟩ := h
    have hfold : t.onBlockDelta frame = (if text = "" then none else some (.text text), t) := by
      rw [AnthropicTranslator.onBlockDelta, hdelta]
      dsimp only
      rw [type_of_hasString htype, stringAt_of_hasString htext]
      rfl
    exact ⟨t, by rw [(translate_content hread).2.1 hevent, hfold]; rfl, rfl⟩
  | thinkingDelta thinking =>
    obtain ⟨hevent, frame, delta, hread, hdelta, htype, htext⟩ := h
    have hfold : t.onBlockDelta frame = (none, { t with reasoning := t.reasoning.map (· ++ thinking) }) := by
      rw [AnthropicTranslator.onBlockDelta, hdelta]
      dsimp only
      rw [type_of_hasString htype, stringAt_of_hasString htext]
      rfl
    exact ⟨_, by rw [(translate_content hread).2.1 hevent, hfold]; rfl, rfl⟩
  | signatureDelta signature =>
    obtain ⟨hevent, frame, delta, hread, hdelta, htype, htext⟩ := h
    have hfold : t.onBlockDelta frame = (none, if signature = "" then t else { t with signature := some signature }) := by
      rw [AnthropicTranslator.onBlockDelta, hdelta]
      dsimp only
      rw [type_of_hasString htype, stringAt_of_hasString htext]
      rfl
    refine ⟨_, by rw [(translate_content hread).2.1 hevent, hfold]; rfl, ?_⟩
    rw [Accumulators.step]
    split_ifs
    · rfl
    · rfl
  | inputJsonDelta fragment =>
    obtain ⟨hevent, frame, delta, hread, hdelta, htype, htext⟩ := h
    have hfold : t.onBlockDelta frame =
        (none, { t with toolAcc := t.toolAcc.map fun (id, name, acc) => (id, name, acc ++ fragment) }) := by
      rw [AnthropicTranslator.onBlockDelta, hdelta]
      dsimp only
      rw [type_of_hasString htype, stringAt_of_hasString htext]
      rfl
    exact ⟨_, by rw [(translate_content hread).2.1 hevent, hfold]; rfl, rfl⟩
  | stop =>
    obtain ⟨hevent, frame, hread⟩ := h
    refine ⟨_, (translate_content hread).2.2 hevent ▸ Prod.ext (congrArg Except.ok (onBlockStop_eq t).1) rfl, (onBlockStop_eq t).2⟩

theorem translateAll_said {t : AnthropicTranslator} {events : List SseEvent} {wire : List WireEvent}
    (h : List.Forall₂ (Says fromStr) events wire) : translateAll fromStr t events = .ok (t.accumulators.run fromStr wire).1 := by
  induction h generalizing t with
  | nil => rfl
  | @cons ev w events wire hsaid _ ih =>
    obtain ⟨t', htranslate, haccumulators⟩ := translate_said (t := t) hsaid
    rw [translateAll, htranslate]
    dsimp only
    rw [ih, haccumulators]
    rfl

end

end Cuca.Anthropic
