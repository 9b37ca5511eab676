import Cuca.Anthropic.Request
import Cuca.Gemini.Request
import Cuca.OpenAiCompat.Lossless
import Cuca.Provider.Cuts

/-!
# Where cuts show in the three provider streams

* `openAiCompat_lawful`, `anthropic_lawful`, `gemini_lawful` : the translators keep the laws;
* `cuts_agree_iff` : the byte streams whose cuts do not show.
-/

namespace Cuca.Provider
open Sse OpenAiCompat Anthropic Gemini

/-! ## The laws -/

section OpenAiCompat
variable (fromStr : String → Except String Value)

theorem flushAccumulated_pending (t : ChatCompletionTranslator) :
    ∃ more, (t.flushAccumulated fromStr).pending = t.pending ++ more := by
  unfold ChatCompletionTranslator.flushAccumulated
  generalize t.toolAcc.keys.insertionSort (· ≤ ·) = indices
  induction indices generalizing t with
  | nil => exact ⟨[], (List.append_nil _).symm⟩
  | cons index indices ih =>
    obtain ⟨more, hmore⟩ := ih (t.flushIndex fromStr index)
    rw [List.foldl_cons, hmore]
    rcases (@flushIndex_frame fromStr index t).2 with ⟨hpending, -⟩ | ⟨call, -, hpending⟩
    · exact ⟨more, by rw [hpending]⟩
    · exact ⟨call.block fromStr :: more, by rw [hpending, List.append_assoc]; rfl⟩

theorem translate_pending (t : ChatCompletionTranslator) (payload : String) (block : Option MessageContentBlock)
    (next : ChatCompletionTranslator) (h : t.translate fromStr payload = (.ok block, next)) :
    ∃ more, block.toList ++ next.pending = t.pending ++ more := by
  by_cases hdone : payload = "[DONE]"
  · subst hdone
    rw [ChatCompletionTranslator.translate, if_pos rfl] at h
    cases h
    exact flushAccumulated_pending fromStr t
  · cases hpending : t.pending with
    | nil => exact ⟨_, rfl⟩
    | cons first pending =>
      simp only [ChatCompletionTranslator.translate, hdone, hpending, if_false] at h
      cases h
      exact ⟨[], (List.append_nil _).symm⟩

theorem translate_marker (t : ChatCompletionTranslator) (payload : String) (h : t.done = true) :
    (t.translate fromStr payload).2.done = true := by
  by_cases hdone : payload = "[DONE]"
  · subst hdone
    rw [ChatCompletionTranslator.translate, if_pos rfl]
  · rw [translate_done hdone, h]

theorem openAiCompat_refuses (t : ChatCompletionTranslator) (payload : String) (e : CucaError)
    (next : ChatCompletionTranslator) (h : t.translate fromStr payload = (.error e, next)) (message : String) :
    e ≠ .sseParse message := by
  unfold ChatCompletionTranslator.translate at h
  split_ifs at h
  · cases h
  · split at h
    · cases h
    · split at h
      · cases h
        exact nofun
      · split at h
        · cases h
          exact nofun
        · cases h

def openAiCompat_lawful : (openAiCompat fromStr).Lawful where
  forget t := withUsage t none
  forget_forget t := rfl
  forget_taken t := rfl
  translate_forget t event := by
    obtain ⟨later, h⟩ := @translate_withUsage fromStr t none event.data
    show ((withUsage t none).translate fromStr event.data).1.map Option.toList = _ ∧
      withUsage ((withUsage t none).translate fromStr event.data).2 none = _
    rw [h]
    exact ⟨rfl, rfl⟩
  done_forget t := rfl
  drain_forget t := rfl
  grows t event blocks next h := by
    have hnext : (t.translate fromStr event.data).2 = next := congrArg Prod.snd h
    refine ⟨?_, fun hdone => hnext ▸ translate_marker fromStr t event.data hdone⟩
    cases hblock : (t.translate fromStr event.data).1 with
    | error e =>
      have hblocks : (t.translate fromStr event.data).1.map Option.toList = .ok blocks := congrArg Prod.fst h
      rw [hblock] at hblocks
      cases hblocks
    | ok block =>
      have hblocks : (t.translate fromStr event.data).1.map Option.toList = .ok blocks := congrArg Prod.fst h
      rw [hblock] at hblocks
      cases hblocks
      exact translate_pending fromStr t event.data block next (Prod.ext hblock hnext)
  refuses t event e next h := by
    cases hblock : (t.translate fromStr event.data).1 with
    | error e' =>
      have herror : (t.translate fromStr event.data).1.map Option.toList = .error e := congrArg Prod.fst h
      rw [hblock] at herror
      cases herror
      exact openAiCompat_refuses fromStr t event.data _ _ (Prod.ext hblock rfl)
    | ok block =>
      have herror : (t.translate fromStr event.data).1.map Option.toList = .error e := congrArg Prod.fst h
      rw [hblock] at herror
      cases herror

end OpenAiCompat

section Anthropic
variable (fromStr : String → Except String Value)

def withCacheUsage (t : AnthropicTranslator) (usage : Option PromptCacheUsage) : AnthropicTranslator :=
  { t with promptCacheUsage := usage }

theorem onBlockStart_withCacheUsage (t : AnthropicTranslator) (usage : Option PromptCacheUsage) (value : Value) :
    (withCacheUsage t usage).onBlockStart value = withCacheUsage (t.onBlockStart value) usage := by
  unfold AnthropicTranslator.onBlockStart
  cases value.get "content_block" with
  | none => rfl
  | some block => simp only; split <;> rfl

theorem onBlockDelta_withCacheUsage (t : AnthropicTranslator) (usage : Option PromptCacheUsage) (value : Value) :
    (withCacheUsage t usage).onBlockDelta value =
      ((t.onBlockDelta value).1, withCacheUsage (t.onBlockDelta value).2 usage) := by
  unfold AnthropicTranslator.onBlockDelta
  cases value.get "delta" with
  | none => rfl
  | some delta =>
    simp only
    split
    · rfl
    · rfl
    · split_ifs <;> rfl
    · rfl
    · rfl

theorem onBlockStop_withCacheUsage (t : AnthropicTranslator) (usage : Option PromptCacheUsage) :
    (withCacheUsage t usage).onBlockStop fromStr =
      ((t.onBlockStop fromStr).1, withCacheUsage (t.onBlockStop fromStr).2 usage) := by
  obtain ⟨current, toolAcc, reasoning, signature, done, cacheUsage⟩ := t
  cases current with
  | none => rfl
  | some kind => cases kind <;> rfl

theorem anthropic_translate_withCacheUsage (t : AnthropicTranslator) (ev : SseEvent) :
    ((withCacheUsage t none).translate fromStr ev).1 = (t.translate fromStr ev).1 ∧
      withCacheUsage ((withCacheUsage t none).translate fromStr ev).2 none =
        withCacheUsage (t.translate fromStr ev).2 none := by
  unfold AnthropicTranslator.translate
  simp only [onBlockStart_withCacheUsage, onBlockDelta_withCacheUsage, onBlockStop_withCacheUsage]
  split_ifs
  · exact ⟨rfl, rfl⟩
  · cases fromStr ev.data <;> exact ⟨rfl, rfl⟩
  · exact ⟨rfl, rfl⟩
  all_goals cases fromStr ev.data <;> exact ⟨rfl, rfl⟩

theorem anthropic_marker (t : AnthropicTranslator) (ev : SseEvent) (h : t.done = true) :
    (t.translate fromStr ev).2.done = true := by
  have hstart (value : Value) : (t.onBlockStart value).done = true := by
    unfold AnthropicTranslator.onBlockStart
    cases value.get "content_block" with
    | none => exact h
    | some block => simp only; split <;> exact h
  have hdelta (value : Value) : (t.onBlockDelta value).2.done = true := by
    unfold AnthropicTranslator.onBlockDelta
    cases value.get "delta" with
    | none => exact h
    | some delta =>
      simp only
      split
      · exact h
      · exact h
      · split_ifs <;> exact h
      · exact h
      · exact h
  have hstop : (t.onBlockStop fromStr).2.done = true := by
    unfold AnthropicTranslator.onBlockStop
    split <;> exact h
  unfold AnthropicTranslator.translate
  split_ifs
  · rfl
  · split <;> exact h
  · exact h
  all_goals split
  all_goals first | exact h | exact hstart _ | exact hdelta _ | exact hstop

theorem anthropic_refuses (t : AnthropicTranslator) (ev : SseEvent) (e : CucaError) (next : AnthropicTranslator)
    (h : t.translate fromStr ev = (.error e, next)) (message : String) : e ≠ .sseParse message := by
  unfold AnthropicTranslator.translate at h
  cases hvalue : fromStr ev.data with
  | error text =>
    simp only [hvalue] at h
    split_ifs at h <;> cases h
    exact nofun
  | ok value =>
    simp only [hvalue] at h
    split_ifs at h <;> cases h
    exact nofun

def anthropic_lawful : (anthropic fromStr).Lawful where
  forget t := withCacheUsage t none
  forget_forget t := rfl
  forget_taken t := rfl
  translate_forget t event := by
    obtain ⟨hblock, hnext⟩ := anthropic_translate_withCacheUsage fromStr t event
    refine ⟨?_, hnext⟩
    show ((withCacheUsage t none).translate fromStr event).1.map Option.toList = _
    rw [hblock]
  done_forget t := rfl
  drain_forget t := rfl
  grows t event blocks next h := by
    have hnext : (t.translate fromStr event).2 = next := congrArg Prod.snd h
    exact ⟨⟨blocks, List.append_nil _⟩, fun hdone => hnext ▸ anthropic_marker fromStr t event hdone⟩
  refuses t event e next h := by
    have herror : (t.translate fromStr event).1.map Option.toList = .error e := congrArg Prod.fst h
    cases hblock : (t.translate fromStr event).1 with
    | error e' =>
      rw [hblock] at herror
      cases herror
      exact anthropic_refuses fromStr t event _ _ (Prod.ext hblock rfl)
    | ok block =>
      rw [hblock] at herror
      cases herror

end Anthropic

def gemini_lawful (fromStr : String → Except String Value) : (gemini fromStr).Lawful where
  forget t := t
  forget_forget t := rfl
  forget_taken t := rfl
  translate_forget t event := ⟨rfl, rfl⟩
  done_forget t := rfl
  drain_forget t := rfl
  grows t event blocks next _ := ⟨⟨blocks, List.append_nil _⟩, id⟩
  refuses t event e next h message := by
    have herror : Gemini.translate fromStr event.data = .error e := congrArg Prod.fst h
    unfold Gemini.translate at herror
    split at herror
    · cases herror
      exact CucaError.noConfusion
    · split at herror <;> cases herror
      exact CucaError.noConfusion

/-! ## The three streams -/

/-- The streams of the provider adapters. -/
inductive StreamKind where
  | openAiCompatStream
  | anthropicStream
  | geminiStream
deriving DecidableEq, Repr

def StreamKind.adapter (fromStr : String → Except String Value) : StreamKind → Adapter
  | .openAiCompatStream => openAiCompat fromStr
  | .anthropicStream => anthropic fromStr
  | .geminiStream => gemini fromStr

/-- **Cuts show** in the streams whose frames are not seamless. -/
theorem cuts_agree_iff (fromStr : String → Except String Value) (kind : StreamKind) (stream : List UInt8) :
    CutsAgree (kind.adapter fromStr) stream ↔
      Seamless (kind.adapter fromStr) none (kind.adapter fromStr).new false (frames stream) := by
  cases kind with
  | openAiCompatStream => exact cutsAgree_iff_seamless (openAiCompat_lawful fromStr) rfl stream
  | anthropicStream => exact cutsAgree_iff_seamless (anthropic_lawful fromStr) rfl stream
  | geminiStream => exact cutsAgree_iff_seamless (gemini_lawful fromStr) rfl stream

/-- A text in the chunk of a malformed frame is lost; in a chunk of its own it is yielded. -/
theorem block_before_error_lost :
    ¬ CutsAgree (StreamKind.openAiCompatStream.adapter (knowing oneCall)) (chunkOf [contentText, "x"]) := by
  show ¬ CutsAgree (openAiCompat (knowing oneCall)) (chunkOf [contentText, "x"])
  rw [cutsAgree_iff_seamless (openAiCompat_lawful (knowing oneCall)) rfl]
  have hframes : frames (chunkOf [contentText, "x"]) = [[ascii "data: " ++ ascii contentText], [ascii "data: x"]] := by
    decide +kernel
  have hfirst : parseGroup none [ascii "data: " ++ ascii contentText] = .ok (⟨"message", contentText, none, none⟩, none) := by
    decide +kernel
  have hsecond : parseGroup none [ascii "data: x"] = .ok (⟨"message", "x", none, none⟩, none) := by decide +kernel
  have htext : translateEvent (openAiCompat (knowing oneCall)) ChatCompletionTranslator.new
      ⟨"message", contentText, none, none⟩ = (.ok [.text "a"], ChatCompletionTranslator.new) := by rfl
  have hrefused : translateEvent (openAiCompat (knowing oneCall)) ChatCompletionTranslator.new
      ⟨"message", "x", none, none⟩ = (.error (.json "invalid chat completion frame: expected value at line 1 column 1"), ChatCompletionTranslator.new) := by
    rfl
  have hopen : ChatCompletionTranslator.new.done = false := rfl
  rw [hframes]
  simp [Seamless, hfirst, htext, hsecond, hrefused, hopen]

end Cuca.Provider
