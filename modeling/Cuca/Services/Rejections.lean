import Cuca.Anthropic.Request
import Cuca.OpenAiCompat.Request
import Cuca.Gemini.Request
import Cuca.Services.Orchestrator

/-!
# What a rejection tells the slow tier

A rejection is appended to the request as a tool message. Anthropic's adapter sends no tool messages, and elsewhere the message
answers a call that need not stand in the request: the rejected call itself never does.

* `ProviderAdapter` : bodies, their messages, and the calls and results in these;
* `Conveys` : the request of the next execution tells the rejection, as the provider requires it;
* `Answerable`, `conveyed_iff` : when it does.
-/

namespace Cuca.Orchestrator
open Provider Anthropic OpenAiCompat Gemini

/-! ## Adapters -/

inductive ProviderAdapter where
  | anthropic
  | openAiCompat
  | gemini
  deriving DecidableEq

def elementsAt (key : String) (value : Value) : List Value := ((value.get key).bind Value.asArray).getD []

def textAt (key : String) (value : Value) : Option String := (value.get key).bind Value.asStr

/-- An Anthropic content block, as a call or a result. -/
def anthropicExchange (block : Value) : Option Exchange :=
  match textAt "type" block with
  | some "tool_use" => some (.call (textAt "id" block))
  | some "tool_result" => some (.answer (textAt "tool_use_id" block))
  | _ => none

/-- A Gemini part, as a call or a result; they go by name. -/
def geminiExchange (part : Value) : Option Exchange :=
  match part.get "functionCall", part.get "functionResponse" with
  | some call, _ => some (.call (textAt "name" call))
  | none, some response => some (.answer (textAt "name" response))
  | none, none => none

namespace ProviderAdapter

def build (serde : Serde) (req : UnifiedRequest) : ProviderAdapter → Except String Value
  | anthropic => buildAnthropicRequest serde req
  | openAiCompat => .ok (buildChatCompletionBody serde req)
  | gemini => .ok (buildGenerateContentBody serde req)

/-- The messages of a body. -/
def messages (body : Value) : ProviderAdapter → List Value
  | anthropic => elementsAt "messages" body
  | openAiCompat => elementsAt "messages" body
  | gemini => elementsAt "contents" body

/-- The calls and the results of a message on the wire. -/
def exchanges (message : Value) : ProviderAdapter → List Exchange
  | anthropic => (elementsAt "content" message).filterMap anthropicExchange
  | openAiCompat =>
    if textAt "role" message = some "tool" then [.answer (textAt "tool_call_id" message)]
    else (elementsAt "tool_calls" message).map fun call => .call (textAt "id" call)
  | gemini => (elementsAt "parts" message).filterMap geminiExchange

end ProviderAdapter

/-- The request after a rejection tells the reason, each result in it answers a call before it, and it is not the body that was
already answered with the rejected block. -/
def Conveys (serde : Serde) (adapter : ProviderAdapter) (request : UnifiedRequest) (block : MessageContentBlock) (reason : String) :
    Prop :=
  ∃ drafted rerun, adapter.build serde request = .ok drafted ∧
    adapter.build serde (extended request [rejectionMessage block reason]) = .ok rerun ∧
    (∃ message ∈ adapter.messages rerun, Contains reason message) ∧
    Paired ((adapter.messages rerun).flatMap fun message => adapter.exchanges message) ∧
    rerun ≠ drafted

/-! ## The condition -/

/-- The calls and the results of a message that an adapter sends. -/
def toolExchanges (msg : UnifiedMessage) : ProviderAdapter → List Exchange
  | .anthropic => []
  | .openAiCompat =>
    match msg.role with
    | .tool => [.answer (answeredCall msg)]
    | .assistant => msg.content.filterMap fun
      | .toolCall id _ _ => some (.call (some id))
      | _ => none
    | _ => []
  | .gemini =>
    match msg.role with
    | .system => []
    | _ => msg.content.filterMap fun
      | .toolCall _ name _ => some (.call (some name))
      | .toolResult toolCallId _ => some (.answer (some (msg.name.getD toolCallId)))
      | _ => none

/-- The id a rejection answers. -/
def rejectedId : MessageContentBlock → String
  | .toolCall id _ _ => id
  | _ => ""

/-- The adapter sends tool messages, those of the request are paired, and there is a call that goes by the rejected id. -/
def Answerable (adapter : ProviderAdapter) (request : UnifiedRequest) (block : MessageContentBlock) : Prop :=
  adapter ≠ .anthropic ∧ Paired (request.messages.flatMap fun msg => toolExchanges msg adapter) ∧
    .call (some (rejectedId block)) ∈ request.messages.flatMap fun msg => toolExchanges msg adapter

/-! ## Anthropic -/

theorem mark_append {messages more : List UnifiedMessage} {marks marks' : List (Nat × Nat)} {bp : PromptCacheBreakpoint}
    (h : mark messages marks bp = .ok marks') : mark (messages ++ more) marks bp = .ok marks' := by
  unfold mark at h ⊢
  dsimp only at h ⊢
  rcases hmsg : messages[bp.messageIndex]? with _ | msg
  · rw [hmsg] at h
    exact nomatch h
  · rw [hmsg] at h
    rw [List.getElem?_append_left (List.getElem?_eq_some_iff.mp hmsg).1, hmsg]
    exact h

theorem marks_append {messages more : List UnifiedMessage} (breakpoints : List PromptCacheBreakpoint) :
    ∀ {marks marks' : List (Nat × Nat)}, breakpoints.foldlM (mark messages) marks = .ok marks' →
      breakpoints.foldlM (mark (messages ++ more)) marks = .ok marks' := by
  induction breakpoints with
  | nil => exact fun h => h
  | cons bp breakpoints ih =>
    intro marks marks' h
    rw [List.foldlM_cons] at h ⊢
    rcases hmark : mark messages marks bp with e | next
    · rw [hmark] at h
      exact nomatch h
    · rw [hmark] at h
      rw [mark_append hmark]
      exact ih h

/-- **Tool messages are not sent**: a rejection changes nothing. -/
theorem buildAnthropicRequest_rejected {serde : Serde} {request : UnifiedRequest} {body : Value} (block : MessageContentBlock)
    (reason : String) (h : buildAnthropicRequest serde request = .ok body) :
    buildAnthropicRequest serde (extended request [rejectionMessage block reason]) = .ok body := by
  unfold buildAnthropicRequest at h ⊢
  rcases hmarks : cacheMarks request with e | marks
  · rw [hmarks] at h
    exact nomatch h
  · have hsame : cacheMarks (extended request [rejectionMessage block reason]) = .ok marks := marks_append _ hmarks
    rw [hmarks] at h
    rw [hsame, ← h]
    dsimp only [extended]
    rw [List.zipIdx_append, List.flatMap_append, List.filterMap_append]
    have hsystem : (List.zipIdx [rejectionMessage block reason] (0 + request.messages.length)).flatMap (systemTexts marks) = [] := rfl
    have hmessages : (List.zipIdx [rejectionMessage block reason] (0 + request.messages.length)).filterMap
      (messageToAnthropic marks) = [] := rfl
    rw [hsystem, hmessages, List.append_nil, List.append_nil]
    rfl

/-! ## Chat completions -/

section
variable {serde : Serde} {request : UnifiedRequest}

theorem messages_chat : ProviderAdapter.openAiCompat.messages (buildChatCompletionBody serde request) =
    request.messages.map (messageToWire serde) := rfl

theorem exchanges_calls (content : List MessageContentBlock) :
    ((content.filterMap (callToWire serde)).map fun call => Exchange.call (textAt "id" call)) =
      content.filterMap fun
        | .toolCall id _ _ => some (.call (some id))
        | _ => none := by
  rw [List.map_filterMap]
  congr 1
  funext block
  cases block <;> rfl

theorem calls_of_not_any {content : List MessageContentBlock} (h : ¬ content.any isCall = true) :
    content.filterMap (fun
      | .toolCall id _ _ => some (Exchange.call (some id))
      | _ => none) = [] := by
  rw [List.filterMap_eq_nil_iff]
  intro block hblock
  rw [List.any_eq_true, not_exists] at h
  cases block with
  | toolCall id name arguments => exact absurd ⟨hblock, rfl⟩ (h _)
  | _ => rfl

theorem exchanges_members {role : String} {reasoning : Option String} {calls : List (String × Value)} {content : Value}
    (hrole : role ≠ "tool") (hcalls : calls = [] ∨ ∃ elements, calls = [("tool_calls", .array elements)]) :
    ProviderAdapter.openAiCompat.exchanges (.object ([("role", .string role)] ++ optional "reasoning_content" .string reasoning
      ++ calls ++ [("content", content)])) =
        (elementsAt "tool_calls" (.object calls)).map fun call => .call (textAt "id" call) := by
  have hnot : textAt "role" (.object ([("role", .string role)] ++ optional "reasoning_content" .string reasoning
      ++ calls ++ [("content", content)])) ≠ some "tool" := fun h => hrole (Option.some.inj h)
  rw [ProviderAdapter.exchanges, if_neg hnot]
  congr 1
  rcases hcalls with hnone | ⟨elements, hsome⟩
  · rw [hnone]
    cases reasoning <;> rfl
  · rw [hsome]
    cases reasoning <;> rfl

theorem exchanges_message (msg : UnifiedMessage) :
    ProviderAdapter.openAiCompat.exchanges (messageToWire serde msg) = toolExchanges msg .openAiCompat := by
  obtain ⟨role, content, name, toolCallId⟩ := msg
  cases role with
  | tool =>
    show ProviderAdapter.openAiCompat.exchanges (toolMessageToWire ⟨.tool, content, name, toolCallId⟩) =
      [.answer (answeredCall ⟨.tool, content, name, toolCallId⟩)]
    unfold toolMessageToWire
    cases answeredCall ⟨.tool, content, name, toolCallId⟩ <;> rfl
  | assistant =>
    by_cases hany : content.any isCall = true
    · have hhas : hasToolCalls ⟨.assistant, content, name, toolCallId⟩ = true := hany
      unfold messageToWire
      rw [hhas, if_pos rfl]
      exact (exchanges_members (by decide : roleName .assistant ≠ "tool") (.inr ⟨_, rfl⟩)).trans (exchanges_calls content)
    · have hhas : hasToolCalls ⟨.assistant, content, name, toolCallId⟩ = false := Bool.eq_false_iff.mpr hany
      unfold messageToWire
      rw [hhas, if_neg Bool.false_ne_true]
      exact (exchanges_members (by decide : roleName .assistant ≠ "tool") (.inl rfl)).trans (calls_of_not_any hany).symm
  | system => exact exchanges_members (by decide : roleName .system ≠ "tool") (.inl rfl)
  | user => exact exchanges_members (by decide : roleName .user ≠ "tool") (.inl rfl)

theorem exchanges_chat (serde : Serde) (request : UnifiedRequest) :
    (ProviderAdapter.openAiCompat.messages (buildChatCompletionBody serde request)).flatMap
        (fun message => ProviderAdapter.openAiCompat.exchanges message) =
      request.messages.flatMap fun msg => toolExchanges msg .openAiCompat := by
  rw [messages_chat, List.flatMap_map]
  congr 1
  funext msg
  exact exchanges_message msg

/-! ## Gemini -/

theorem messages_gemini (request : UnifiedRequest) : ProviderAdapter.gemini.messages (buildGenerateContentBody serde request) =
    request.messages.filterMap messageToContent := by
  rw [ProviderAdapter.messages, buildGenerateContentBody]
  split_ifs <;> cases request.thinking <;> rfl

theorem exchanges_content (msg : UnifiedMessage) :
    (messageToContent msg).toList.flatMap (fun message => ProviderAdapter.gemini.exchanges message) = toolExchanges msg .gemini := by
  obtain ⟨role, content, name, toolCallId⟩ := msg
  have hparts : (content.map (blockToPart name)).filterMap geminiExchange = content.filterMap (fun
      | .toolCall _ name _ => some (Exchange.call (some name))
      | .toolResult toolCallId _ => some (.answer (some (name.getD toolCallId)))
      | _ => none) := by
    rw [List.filterMap_map]
    congr 1
    funext block
    cases block <;> rfl
  cases role with
  | system => rfl
  | _ => exact (List.append_nil _).trans hparts

theorem exchanges_gemini (serde : Serde) (request : UnifiedRequest) :
    (ProviderAdapter.gemini.messages (buildGenerateContentBody serde request)).flatMap
        (fun message => ProviderAdapter.gemini.exchanges message) =
      request.messages.flatMap fun msg => toolExchanges msg .gemini := by
  rw [messages_gemini, List.filterMap_eq_flatMap_toList, List.flatMap_assoc]
  congr 1
  funext msg
  exact exchanges_content msg

end

/-! ## The condition is exact -/

theorem toolExchanges_rejection {adapter : ProviderAdapter} (hadapter : adapter ≠ .anthropic) (block : MessageContentBlock)
    (reason : String) : toolExchanges (rejectionMessage block reason) adapter = [.answer (some (rejectedId block))] := by
  cases adapter with
  | anthropic => exact absurd rfl hadapter
  | openAiCompat => cases block <;> rfl
  | gemini => cases block <;> rfl

theorem paired_rejected_iff {adapter : ProviderAdapter} (hadapter : adapter ≠ .anthropic) (request : UnifiedRequest)
    (block : MessageContentBlock) (reason : String) :
    Paired ((extended request [rejectionMessage block reason]).messages.flatMap fun msg => toolExchanges msg adapter) ↔
      Answerable adapter request block := by
  rw [extended, List.flatMap_append, List.flatMap_singleton, toolExchanges_rejection hadapter, paired_concat_answer_iff]
  exact (and_iff_right hadapter).symm

theorem conveys_of_appended {serde : Serde} {adapter : ProviderAdapter} {request : UnifiedRequest} {block : MessageContentBlock}
    {reason : String} {drafted rerun message : Value} (hdrafted : adapter.build serde request = .ok drafted)
    (hrerun : adapter.build serde (extended request [rejectionMessage block reason]) = .ok rerun)
    (hmessages : adapter.messages rerun = adapter.messages drafted ++ [message]) (hreason : Contains reason message)
    (hpaired : Paired ((adapter.messages rerun).flatMap fun message => adapter.exchanges message)) :
    Conveys serde adapter request block reason := by
  refine ⟨drafted, rerun, hdrafted, hrerun, ⟨message, ?_, hreason⟩, hpaired, fun hsame => ?_⟩
  · rw [hmessages]
    exact List.mem_append_right _ (List.mem_singleton_self message)
  · have hlength := congrArg List.length hmessages
    rw [hsame, List.length_append, List.length_singleton] at hlength
    omega

theorem contains_chat (serde : Serde) (block : MessageContentBlock) (reason : String) :
    Contains reason (messageToWire serde (rejectionMessage block reason)) :=
  .member (List.mem_append_right _ (List.mem_singleton_self ("content", Value.string reason))) .here

theorem messageToContent_rejection (block : MessageContentBlock) (reason : String) :
    ∃ content, messageToContent (rejectionMessage block reason) = some content ∧ Contains reason content := by
  refine ⟨_, rfl, ?_⟩
  apply Contains.member (List.mem_cons_of_mem _ (List.mem_singleton_self _))
  apply Contains.element (List.mem_singleton_self _)
  apply Contains.member (List.mem_singleton_self _)
  apply Contains.member (List.mem_cons_of_mem _ (List.mem_singleton_self _))
  exact .member (List.mem_singleton_self _) .here

theorem not_conveys_anthropic {serde : Serde} {request : UnifiedRequest} {block : MessageContentBlock} {reason : String} :
    ¬ Conveys serde .anthropic request block reason := by
  rintro ⟨drafted, rerun, hdrafted, hrerun, _, _, hdiffers⟩
  have hsame := (buildAnthropicRequest_rejected block reason hdrafted).symm.trans hrerun
  exact hdiffers (Except.ok.inj hsame).symm

theorem answerable_of_conveys {serde : Serde} {adapter : ProviderAdapter} {request : UnifiedRequest} {block : MessageContentBlock}
    {reason : String} (h : Conveys serde adapter request block reason) : Answerable adapter request block := by
  cases adapter with
  | anthropic => exact absurd h not_conveys_anthropic
  | openAiCompat =>
    obtain ⟨drafted, rerun, _, hrerun, _, hpaired, _⟩ := h
    cases hrerun
    rw [exchanges_chat] at hpaired
    exact (paired_rejected_iff (by decide) request block reason).mp hpaired
  | gemini =>
    obtain ⟨drafted, rerun, _, hrerun, _, hpaired, _⟩ := h
    cases hrerun
    rw [exchanges_gemini] at hpaired
    exact (paired_rejected_iff (by decide) request block reason).mp hpaired

theorem conveys_of_answerable (serde : Serde) {adapter : ProviderAdapter} {request : UnifiedRequest} {block : MessageContentBlock}
    (reason : String) (h : Answerable adapter request block) : Conveys serde adapter request block reason := by
  have hpaired := (paired_rejected_iff h.1 request block reason).mpr h
  cases adapter with
  | anthropic => exact absurd rfl h.1
  | openAiCompat =>
    rw [← exchanges_chat serde] at hpaired
    refine conveys_of_appended rfl rfl ?_ (contains_chat serde block reason) hpaired
    rw [messages_chat, extended, List.map_append]
    rfl
  | gemini =>
    rw [← exchanges_gemini serde] at hpaired
    obtain ⟨content, hcontent, hreason⟩ := messageToContent_rejection block reason
    refine conveys_of_appended rfl rfl ?_ hreason hpaired
    rw [messages_gemini, messages_gemini, extended, List.filterMap_append, List.filterMap_cons_some hcontent]
    rfl

/-- **What the slow tier is told**: the rejection, as the provider requires it, if and only if it is `Answerable`. -/
theorem conveyed_iff (serde : Serde) (adapter : ProviderAdapter) (request : UnifiedRequest) (block : MessageContentBlock)
    (reason : String) : Conveys serde adapter request block reason ↔ Answerable adapter request block :=
  ⟨answerable_of_conveys, conveys_of_answerable serde reason⟩

/-! ## A rejected call -/

/-- One user message. -/
def asking : UnifiedRequest where
  model := "m"
  provider := .anthropic
  messages := [⟨.user, [.text "what time is it?"], none, none⟩]
  temperature := none
  maxTokens := none
  stream := true
  thinking := none
  tools := []
  promptCache := .disabled

theorem not_conveys_unasked (adapter : ProviderAdapter) (serde : Serde) (reason : String) :
    ¬ Conveys serde adapter asking (.toolCall "c" "" .null) reason := by
  intro h
  have hcall := (answerable_of_conveys h).2.2
  cases adapter with
  | anthropic => exact nomatch hcall
  | openAiCompat => exact nomatch hcall
  | gemini => exact nomatch hcall

def nullSerde : Serde := ⟨fun _ => .null, fun _ => "null"⟩

/-- No adapter conveys the rejection of a call without a name: Anthropic's sends the same body again, and the others a result of a
call that is not there. -/
theorem nameless_call_not_conveyed :
    ¬ Conveys nullSerde .anthropic asking (.toolCall "c" "" .null) "tool call name must be non-empty" ∧
      ¬ Conveys nullSerde .openAiCompat asking (.toolCall "c" "" .null) "tool call name must be non-empty" ∧
      ¬ Conveys nullSerde .gemini asking (.toolCall "c" "" .null) "tool call name must be non-empty" :=
  ⟨not_conveys_unasked .anthropic nullSerde _, not_conveys_unasked .openAiCompat nullSerde _, not_conveys_unasked .gemini nullSerde _⟩

end Cuca.Orchestrator
