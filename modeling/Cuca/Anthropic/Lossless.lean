import Cuca.Anthropic.Wire
import Cuca.OpenAiCompat.Lossless

/-!
# Nothing of an Anthropic reply is lost, but for the input of calls without fragments

A reply is a list of blocks, each opened, sent in deltas of any split, and closed. The translator emits the texts, one thinking
block for each and one call for each tool use; the input of a call that sends no fragment is not the one its block starts with.

* `WireBlock`, `WellFormed` : the event sequences of a reply;
* `Renders` : the blocks that lose nothing of it;
* `WireBlock.emitted`, `translateAll_wellFormed` : the blocks of the translator;
* `rendered_iff` : they lose nothing if and only if each tool use sends a fragment.
-/

namespace Cuca.Anthropic
open Sse
open OpenAiCompat (textOf textOf_append callsOf callsOf_append knowing)
open OpenAiCompat.ChatCompletionTranslator (argumentsOf)

/-! ## Replies -/

inductive ThinkingDelta where
  | thinking (text : String)
  | signature (text : String)

def ThinkingDelta.event : ThinkingDelta → WireEvent
  | thinking text => .thinkingDelta text
  | signature text => .signatureDelta text

def ThinkingDelta.text : ThinkingDelta → String
  | thinking text => text
  | signature _ => ""

/-- The signature after the delta; an empty one is none. -/
def ThinkingDelta.sign (signature : Option String) : ThinkingDelta → Option String
  | thinking _ => signature
  | .signature text => if text = "" then signature else some text

def thinkingOf (deltas : List ThinkingDelta) : String := String.join (deltas.map ThinkingDelta.text)

def signatureOf (deltas : List ThinkingDelta) : Option String := deltas.foldl ThinkingDelta.sign none

inductive WireBlock where
  | text (deltas : List String)
  | thinking (deltas : List ThinkingDelta)
  | toolUse (use : ToolUse)

def ToolUse.json (use : ToolUse) : String := String.join use.fragments

namespace WireBlock

/-- The events of a block: its start, its deltas, its stop. -/
def events : WireBlock → List WireEvent
  | text deltas => .startText :: (deltas.map .textDelta ++ [.stop])
  | thinking deltas => .startThinking :: (deltas.map ThinkingDelta.event ++ [.stop])
  | toolUse use => .startToolUse use :: (use.fragments.map .inputJsonDelta ++ [.stop])

def use : WireBlock → Option ToolUse
  | toolUse use => some use
  | _ => none

def deltas : WireBlock → List String
  | text deltas => deltas
  | _ => []

end WireBlock

/-- The event sequence says these blocks, with control events anywhere, and the fragments of each input are JSON. -/
structure WellFormed (fromStr : String → Except String Value) (blocks : List WireBlock) (events : List SseEvent) : Prop where
  said : ∃ wire : List WireEvent, List.Forall₂ (Says fromStr) events wire ∧
    (wire.filter fun w => !w.isControl) = blocks.flatMap WireBlock.events
  inputs : ∀ use ∈ blocks.filterMap WireBlock.use, use.json ≠ "" → ∃ input, fromStr use.json = .ok input

section
variable (fromStr : String → Except String Value)

def IsInput (use : ToolUse) (input : Value) : Prop :=
  if use.json = "" then input = .object use.input else fromStr use.json = .ok input

/-- **Nothing lost, in order**: the texts are whole, each thinking block is one block, each tool use one call. -/
inductive Renders : List WireBlock → List MessageContentBlock → Prop
  | nil : Renders [] []
  | text {deltas texts blocks emitted} : String.join texts = String.join deltas → Renders blocks emitted →
      Renders (.text deltas :: blocks) (texts.map .text ++ emitted)
  | thinking {deltas blocks emitted} : Renders blocks emitted →
      Renders (.thinking deltas :: blocks) (.thinking (thinkingOf deltas) (signatureOf deltas) :: emitted)
  | toolUse {use input blocks emitted} : IsInput fromStr use input → Renders blocks emitted →
      Renders (.toolUse use :: blocks) (.toolCall use.id use.name input :: emitted)

/-! ## What the translator emits -/

def ToolUse.call (use : ToolUse) : MessageContentBlock := .toolCall use.id use.name (argumentsOf fromStr use.json)

def WireBlock.emitted : WireBlock → List MessageContentBlock
  | text deltas => (deltas.filter (· ≠ "")).map .text
  | thinking deltas => [.thinking (thinkingOf deltas) (signatureOf deltas)]
  | toolUse use => [use.call fromStr]

namespace Accumulators

theorem run_textDeltas (a : Accumulators) (deltas : List String) :
    a.run fromStr (deltas.map .textDelta) = ((deltas.filter (· ≠ "")).map .text, a) := by
  induction deltas with
  | nil => rfl
  | cons delta deltas ih =>
    rw [List.map_cons, run]
    show ((if delta = "" then none else some (MessageContentBlock.text delta)).toList ++
      (a.run fromStr (deltas.map .textDelta)).1, (a.run fromStr (deltas.map .textDelta)).2) = _
    rw [ih]
    by_cases hempty : delta = ""
    · simp [hempty]
    · simp [hempty]

theorem run_thinkingDeltas (deltas : List ThinkingDelta) : ∀ (a : Accumulators) (text : String), a.reasoning = some text →
    a.run fromStr (deltas.map ThinkingDelta.event) =
      ([], { a with reasoning := some (text ++ thinkingOf deltas), signature := deltas.foldl ThinkingDelta.sign a.signature }) := by
  induction deltas with
  | nil =>
    intro a text h
    have hnone : text ++ thinkingOf [] = text := String.append_empty
    rw [hnone, ← h]
    rfl
  | cons delta deltas ih =>
    intro a text h
    have hcons : thinkingOf (delta :: deltas) = delta.text ++ thinkingOf deltas := by
      rw [thinkingOf, List.map_cons, String.join_cons]
      rfl
    rw [List.map_cons, run, List.foldl_cons, hcons]
    cases delta with
    | thinking more =>
      rw [ThinkingDelta.event, step, ih _ (text ++ more) (by rw [h]; rfl), String.append_assoc]
      rfl
    | signature signed =>
      rw [ThinkingDelta.event, step]
      by_cases hempty : signed = ""
      · rw [if_pos hempty, ih a text h, ThinkingDelta.sign, if_pos hempty, ThinkingDelta.text, String.empty_append]
        rfl
      · rw [if_neg hempty, ih { a with signature := some signed } text h, ThinkingDelta.sign, if_neg hempty, ThinkingDelta.text,
          String.empty_append]
        rfl

theorem run_inputJsonDeltas (id name : String) (fragments : List String) : ∀ (a : Accumulators) (acc : String),
    a.toolAcc = some (id, name, acc) → a.run fromStr (fragments.map .inputJsonDelta) =
      ([], { a with toolAcc := some (id, name, acc ++ String.join fragments) }) := by
  induction fragments with
  | nil =>
    intro a acc h
    rw [String.join_nil, String.append_empty, ← h]
    rfl
  | cons fragment fragments ih =>
    intro a acc h
    rw [List.map_cons, run, step, ih _ (acc ++ fragment) (by rw [h]; rfl), String.join_cons, String.append_assoc]
    rfl

/-- **One block**: whatever the block before left, its events give its blocks. -/
theorem run_block (a : Accumulators) (block : WireBlock) : (a.run fromStr block.events).1 = block.emitted fromStr := by
  cases block with
  | text deltas =>
    rw [WireBlock.events, run, run_append, step, run_textDeltas]
    exact List.append_nil _
  | thinking deltas =>
    rw [WireBlock.events, run, run_append, step, run_thinkingDeltas fromStr deltas _ "" rfl, String.empty_append]
    rfl
  | toolUse use =>
    rw [WireBlock.events, run, run_append, step, run_inputJsonDeltas fromStr use.id use.name use.fragments _ "" rfl,
      String.empty_append]
    rfl

theorem run_blocks (blocks : List WireBlock) : ∀ a : Accumulators,
    (a.run fromStr (blocks.flatMap WireBlock.events)).1 = blocks.flatMap (WireBlock.emitted fromStr) := by
  induction blocks with
  | nil => exact fun a => rfl
  | cons block blocks ih =>
    intro a
    rw [List.flatMap_cons, run_append, run_block, ih, List.flatMap_cons]

end Accumulators

theorem translateAll_wellFormed {t : AnthropicTranslator} {blocks : List WireBlock} {events : List SseEvent}
    (h : WellFormed fromStr blocks events) :
    translateAll fromStr t events = .ok (blocks.flatMap (WireBlock.emitted fromStr)) := by
  obtain ⟨wire, hsaid, hblocks⟩ := h.said
  rw [translateAll_said hsaid, ← Accumulators.run_filter, hblocks, Accumulators.run_blocks]

end

section
variable {fromStr : String → Except String Value}

theorem join_filter_ne_empty (texts : List String) : String.join (texts.filter (· ≠ "")) = String.join texts := by
  induction texts with
  | nil => rfl
  | cons text texts ih =>
    by_cases hempty : text = ""
    · rw [List.filter_cons_of_neg (by simpa using hempty), ih, String.join_cons, hempty, String.empty_append]
    · rw [List.filter_cons_of_pos (by simpa using hempty), String.join_cons, ih, String.join_cons]

theorem callsOf_texts (texts : List String) : callsOf (texts.map MessageContentBlock.text) = [] := by
  apply List.filter_eq_nil_iff.mpr
  intro block hblock
  obtain ⟨text, _, rfl⟩ := List.mem_map.mp hblock
  exact Bool.false_ne_true

/-! ## What loses nothing -/

theorem Renders.calls {blocks : List WireBlock} {emitted : List MessageContentBlock} (h : Renders fromStr blocks emitted) :
    List.Forall₂ (fun use call => ∃ input, IsInput fromStr use input ∧ call = .toolCall use.id use.name input)
      (blocks.filterMap WireBlock.use) (callsOf emitted) := by
  induction h with
  | nil => exact .nil
  | @text deltas texts blocks emitted _ _ ih =>
    rw [callsOf_append, callsOf_texts]
    exact ih
  | thinking _ ih => exact ih
  | @toolUse use input _ _ hinput _ ih => exact .cons ⟨input, hinput, rfl⟩ ih

theorem mem_uses_iff {blocks : List WireBlock} {use : ToolUse} :
    use ∈ blocks.filterMap WireBlock.use ↔ .toolUse use ∈ blocks := by
  rw [List.mem_filterMap]
  constructor
  · rintro ⟨block, hblock, huse⟩
    cases block with
    | text deltas => exact nomatch huse
    | thinking deltas => exact nomatch huse
    | toolUse other =>
      cases huse
      exact hblock
  · exact fun h => ⟨_, h, rfl⟩

theorem ToolUse.json_ne_empty_iff (use : ToolUse) : use.json ≠ "" ↔ ∃ fragment ∈ use.fragments, fragment ≠ "" := by
  rw [ToolUse.json]
  induction use.fragments with
  | nil => simp
  | cons fragment fragments ih =>
    rw [String.join_cons, List.exists_mem_cons_iff, ← ih]
    by_cases hfragment : fragment = ""
    · simp [hfragment]
    · simp [hfragment]

theorem callsOf_emitted (blocks : List WireBlock) : callsOf (blocks.flatMap (WireBlock.emitted fromStr)) =
    (blocks.filterMap WireBlock.use).map (ToolUse.call fromStr) := by
  induction blocks with
  | nil => rfl
  | cons block blocks ih =>
    rw [List.flatMap_cons, callsOf_append, ih]
    cases block with
    | text deltas =>
      rw [WireBlock.emitted, callsOf_texts]
      rfl
    | thinking deltas => rfl
    | toolUse use => rfl

theorem renders_emitted {blocks : List WireBlock}
    (h : ∀ use ∈ blocks.filterMap WireBlock.use, IsInput fromStr use (argumentsOf fromStr use.json)) :
    Renders fromStr blocks (blocks.flatMap (WireBlock.emitted fromStr)) := by
  induction blocks with
  | nil => exact .nil
  | cons block blocks ih =>
    rw [List.flatMap_cons]
    cases block with
    | text deltas => exact .text (join_filter_ne_empty deltas) (ih h)
    | thinking deltas => exact .thinking (ih h)
    | toolUse use =>
      have hall := List.forall_mem_cons.mp h
      exact .toolUse hall.1 (ih hall.2)

theorem isInput_call_iff (hempty : ∃ e, fromStr "" = .error e) {use : ToolUse}
    (hparses : use.json ≠ "" → ∃ input, fromStr use.json = .ok input) :
    IsInput fromStr use (argumentsOf fromStr use.json) ↔ use.json ≠ "" := by
  obtain ⟨e, he⟩ := hempty
  by_cases hnone : use.json = ""
  · rw [IsInput, if_pos hnone, hnone, argumentsOf, he]
    exact ⟨fun h => (nomatch h), fun h => absurd rfl h⟩
  · obtain ⟨input, hinput⟩ := hparses hnone
    rw [IsInput, if_neg hnone, argumentsOf, hinput]
    exact ⟨fun _ => hnone, fun _ => rfl⟩

end

/-- **What is emitted**: nothing of a well-formed reply is lost if and only if each tool use sends a fragment that is not empty. -/
theorem rendered_iff (fromStr : String → Except String Value) (hempty : ∃ e, fromStr "" = .error e)
    (blocks : List WireBlock) (events : List SseEvent) (hwellFormed : WellFormed fromStr blocks events) :
    ∃ emitted, translateAll fromStr .new events = .ok emitted ∧
      (Renders fromStr blocks emitted ↔ ∀ use, .toolUse use ∈ blocks → ∃ fragment ∈ use.fragments, fragment ≠ "") := by
  refine ⟨_, translateAll_wellFormed fromStr hwellFormed, ?_⟩
  have hinput : ∀ use ∈ blocks.filterMap WireBlock.use,
      (IsInput fromStr use (argumentsOf fromStr use.json) ↔ ∃ fragment ∈ use.fragments, fragment ≠ "") :=
    fun use huse => (isInput_call_iff hempty (hwellFormed.inputs use huse)).trans use.json_ne_empty_iff
  constructor
  · intro h use huse
    have hcalls := h.calls
    rw [callsOf_emitted, List.forall₂_map_right_iff, List.forall₂_same] at hcalls
    obtain ⟨input, hisInput, hcall⟩ := hcalls use (mem_uses_iff.mpr huse)
    rw [ToolUse.call, MessageContentBlock.toolCall.injEq] at hcall
    exact (hinput use (mem_uses_iff.mpr huse)).mp (hcall.2.2 ▸ hisInput)
  · intro h
    exact renders_emitted fun use huse => (hinput use huse).mpr (h use (mem_uses_iff.mp huse))

/-! ## A call with and without a fragment -/

/-- The frames of a call of `now`, and the fragment of its input. -/
def nowTexts : List (String × Value) :=
  [("\x7b\"content_block\":\x7b\"type\":\"tool_use\",\"id\":\"c\",\"name\":\"now\",\"input\":\x7b\x7d\x7d\x7d",
      .object [("content_block", .object [("type", .string "tool_use"), ("id", .string "c"), ("name", .string "now"), ("input", .object [])])]),
    ("\x7b\"delta\":\x7b\"type\":\"input_json_delta\",\"partial_json\":\"\x7b\x7d\"\x7d\x7d",
      .object [("delta", .object [("type", .string "input_json_delta"), ("partial_json", .string "\x7b\x7d")])]),
    ("\x7b\"type\":\"content_block_stop\"\x7d", .object [("type", .string "content_block_stop")]),
    ("\x7b\x7d", .object [])]

def nowStart : SseEvent :=
  ⟨"content_block_start", "\x7b\"content_block\":\x7b\"type\":\"tool_use\",\"id\":\"c\",\"name\":\"now\",\"input\":\x7b\x7d\x7d\x7d", none, none⟩

def nowDelta : SseEvent :=
  ⟨"content_block_delta", "\x7b\"delta\":\x7b\"type\":\"input_json_delta\",\"partial_json\":\"\x7b\x7d\"\x7d\x7d", none, none⟩

def nowStop : SseEvent := ⟨"content_block_stop", "\x7b\"type\":\"content_block_stop\"\x7d", none, none⟩

def now (fragments : List String) : ToolUse := ⟨"c", "now", [], fragments⟩

theorem nowStart_said (fragments : List String) : Says (knowing nowTexts) nowStart (.startToolUse (now fragments)) :=
  ⟨rfl, _, _, rfl, rfl, rfl, rfl, rfl, rfl⟩

theorem nowStop_said : Says (knowing nowTexts) nowStop .stop := ⟨rfl, _, rfl⟩

theorem now_wellFormed : WellFormed (knowing nowTexts) [.toolUse (now ["\x7b\x7d"])] [nowStart, nowDelta, nowStop] where
  said := ⟨[.startToolUse (now ["\x7b\x7d"]), .inputJsonDelta "\x7b\x7d", .stop],
    .cons (nowStart_said _) (.cons ⟨rfl, _, _, rfl, rfl, rfl, rfl⟩ (.cons nowStop_said .nil)), rfl⟩
  inputs use huse _ := by
    rw [List.eq_of_mem_singleton huse]
    exact ⟨_, rfl⟩

theorem rendered_iff_now : ∃ emitted, translateAll (knowing nowTexts) .new [nowStart, nowDelta, nowStop] = .ok emitted ∧
    (Renders (knowing nowTexts) [.toolUse (now ["\x7b\x7d"])] emitted ↔
      ∀ use, .toolUse use ∈ [WireBlock.toolUse (now ["\x7b\x7d"])] → ∃ fragment ∈ use.fragments, fragment ≠ "") :=
  rendered_iff (knowing nowTexts) ⟨_, rfl⟩ _ _ now_wellFormed

theorem rendered_silent : WellFormed (knowing nowTexts) [.toolUse (now [])] [nowStart, nowStop] ∧
    translateAll (knowing nowTexts) .new [nowStart, nowStop] = .ok [.toolCall "c" "now" .null] ∧
    ¬ Renders (knowing nowTexts) [.toolUse (now [])] [.toolCall "c" "now" .null] := by
  refine ⟨⟨⟨[.startToolUse (now []), .stop], .cons (nowStart_said _) (.cons nowStop_said .nil), rfl⟩, fun use huse h => ?_⟩,
    rfl, fun h => ?_⟩
  · rw [List.eq_of_mem_singleton huse] at h
    exact absurd rfl h
  · obtain ⟨input, hinput, hcall⟩ := (List.forall₂_cons.mp h.calls).1
    have hstart : input = .object [] := hinput
    rw [hstart] at hcall
    exact nomatch hcall

end Cuca.Anthropic
