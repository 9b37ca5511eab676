import Cuca.OpenAiCompat.Carried
import Cuca.Provider.Stream

/-!
# An OpenAI-compatible stream loses nothing of the frames whose steps drop nothing

* `openAiCompat` : the adapter of `OpenAiCompatStream`;
* `Response` : a response of well-formed frames, in any chunks;
* `Reading` : the translator after the frames so far, with the blocks it emitted;
* `lossless_of_carried` : no block, and no part of one, is lost.
-/

namespace Cuca.OpenAiCompat
open Transition Sse Provider ChatCompletionTranslator

/-- The adapter of `OpenAiCompatStream`. -/
abbrev openAiCompat (fromStr : String → Except String Value) : Adapter where
  Translator := ChatCompletionTranslator
  Usage := TokenUsage
  new := ChatCompletionTranslator.new
  translate t event := ((t.translate fromStr event.data).1.map Option.toList, (t.translate fromStr event.data).2)
  done t := t.done
  drain t := (t.pending, { t with pending := [] })
  takeUsage t := t.takeUsage

/-! ## Responses -/

/-- A well-formed frame: JSON, and no error body. -/
structure Frame (fromStr : String → Except String Value) where
  payload : String
  value : Value
  notDone : payload ≠ "[DONE]"
  parses : fromStr payload = .ok value
  noError : errorMessage value = none

inductive Ending where
  | done
  | endOfStream
deriving DecidableEq, Repr

def Ending.payloads : Ending → List String
  | .done => ["[DONE]"]
  | .endOfStream => []

def payloadsOf (events : List SseEvent) : List String := (events.map SseEvent.data).filter (!·.isEmpty)

/-- What a byte stream answers, whose chunks hold the frames and the ending. -/
structure Response (fromStr : String → Except String Value) where
  inner : Answers
  frames : List (Frame fromStr)
  ending : Ending
  delivered : Delivered inner
  holds : (feedFresh (chunksOf inner)).1.map payloadsOf = .ok (frames.map Frame.payload ++ ending.payloads)

/-- The frames read, the translator after them and the blocks it emitted. -/
structure Reading where
  frames : List Value
  translator : ChatCompletionTranslator
  blocks : List MessageContentBlock

namespace Reading
variable {fromStr : String → Except String Value}

def start : Reading := ⟨[], ChatCompletionTranslator.new, []⟩

def step (r : Reading) (f : Frame fromStr) : Reading :=
  ⟨r.frames ++ [f.value], (r.translator.translate fromStr f.payload).2,
    r.blocks ++ ((r.translator.translate fromStr f.payload).1.toOption.bind id).toList⟩

def seen (r : Reading) : List Value := r.frames.flatMap toolCalls

end Reading

namespace Response
variable {fromStr : String → Except String Value}

/-- No step drops anything, and a response without `[DONE]` leaves no call open. -/
def Carries (r : Response fromStr) : Prop :=
  Along Reading.step (fun reading f => FrameCarried fromStr reading.seen reading.translator f.value) Reading.start
      r.frames ∧
    (r.ending = .endOfStream → (run Reading.step Reading.start r.frames).translator.toolAcc.keys = [])

/-- The stream yields blocks that lose nothing of the frames. -/
def LosesNothing (r : Response fromStr) : Prop :=
  ∃ blocks : List MessageContentBlock,
    (∀ items, Drains (BlockStream.new (openAiCompat fromStr) r.inner) items ↔ items = blocks.map .ok) ∧
      Lossless fromStr (r.frames.map Frame.value) blocks

end Response

/-! ## Usage plays no part -/

section Usage
variable {fromStr : String → Except String Value}

def withUsage (t : ChatCompletionTranslator) (usage : Option TokenUsage) : ChatCompletionTranslator :=
  { t with usage := usage }

theorem accumulateToolCall_withUsage (fromStr : String → Except String Value) (t : ChatCompletionTranslator) (usage : Option TokenUsage) (entry : Value) :
    (withUsage t usage).accumulateToolCall fromStr entry =
      ((t.accumulateToolCall fromStr entry).1, withUsage (t.accumulateToolCall fromStr entry).2 usage) := by
  cases hlookup : t.toolAcc.lookup (entryIndex entry) with
  | none => cases hopens : entryOpening entry <;> simp [accumulateToolCall, withUsage, hlookup, hopens]
  | some call =>
    by_cases hfragment : entryFragment entry = ""
    · by_cases hempty : call.fragment = ""
      · simp [accumulateToolCall, tryComplete, withUsage, hlookup, hfragment, hempty]
      · cases hparse : fromStr call.fragment <;>
          simp [accumulateToolCall, tryComplete, withUsage, hlookup, hfragment, hempty, hparse]
    · simp [accumulateToolCall, withUsage, hlookup, hfragment]

theorem accumulateToolCalls_withUsage (usage : Option TokenUsage) (entries : List Value) :
    ∀ t : ChatCompletionTranslator, (withUsage t usage).accumulateToolCalls fromStr entries =
      ((t.accumulateToolCalls fromStr entries).1, withUsage (t.accumulateToolCalls fromStr entries).2 usage) := by
  induction entries with
  | nil => intro t; rfl
  | cons entry entries ih =>
    intro t
    simp only [accumulateToolCalls, accumulateToolCall_withUsage]
    rcases t.accumulateToolCall fromStr entry with ⟨_ | block, next⟩
    · exact ih next
    · rfl

theorem flushAccumulated_withUsage (t : ChatCompletionTranslator) (usage : Option TokenUsage) :
    (withUsage t usage).flushAccumulated fromStr = withUsage (t.flushAccumulated fromStr) usage := by
  unfold flushAccumulated
  show List.foldl _ _ (t.toolAcc.keys.insertionSort (· ≤ ·)) = _
  generalize t.toolAcc.keys.insertionSort (· ≤ ·) = indices
  induction indices generalizing t with
  | nil => rfl
  | cons index indices ih =>
    have hindex : (withUsage t usage).flushIndex fromStr index = withUsage (t.flushIndex fromStr index) usage := by
      cases hlookup : t.toolAcc.lookup index <;> simp [flushIndex, withUsage, hlookup]
    rw [List.foldl_cons, hindex, ih]
    rfl

theorem translateFrame_withUsage (fromStr : String → Except String Value) (t : ChatCompletionTranslator) (usage : Option TokenUsage) (frame : Value) :
    (withUsage t usage).translateFrame fromStr frame =
      ((t.translateFrame fromStr frame).1, withUsage (t.translateFrame fromStr frame).2 usage) := by
  rw [translateFrame_eq, translateFrame_eq, accumulateToolCalls_withUsage, flushAccumulated_withUsage]
  split_ifs <;> rfl

theorem translate_withUsage (t : ChatCompletionTranslator) (usage : Option TokenUsage) (payload : String) :
    ∃ later, (withUsage t usage).translate fromStr payload =
      ((t.translate fromStr payload).1, withUsage (t.translate fromStr payload).2 later) := by
  by_cases hdone : payload = "[DONE]"
  · refine ⟨usage, ?_⟩
    unfold ChatCompletionTranslator.translate
    rw [if_pos hdone, if_pos hdone, flushAccumulated_withUsage]
    rfl
  · cases hpending : t.pending with
    | cons block pending =>
      refine ⟨((withUsage t usage).translate fromStr payload).2.usage, ?_⟩
      simp [ChatCompletionTranslator.translate, withUsage, hdone, hpending]
    | nil =>
      cases hparse : fromStr payload with
      | error e => exact ⟨usage, by simp [ChatCompletionTranslator.translate, withUsage, hdone, hpending, hparse]⟩
      | ok frame =>
        cases hmessage : errorMessage frame with
        | some message => exact ⟨usage, by simp [ChatCompletionTranslator.translate, withUsage, hdone, hpending, hparse, hmessage]⟩
        | none =>
          refine ⟨(tokenUsageOf frame).or usage, ?_⟩
          have hleft := translateFrame_withUsage fromStr t ((tokenUsageOf frame).or usage) frame
          have hright := translateFrame_withUsage fromStr t ((tokenUsageOf frame).or t.usage) frame
          simp only [withUsage, hpending] at hleft hright
          simp [ChatCompletionTranslator.translate, withUsage, hdone, hpending, hparse, hmessage, hleft, hright]

theorem entriesCarried_withUsage (usage : Option TokenUsage) (entries : List Value) :
    ∀ (seen : List Value) (t : ChatCompletionTranslator), EntriesCarried fromStr seen t entries →
      EntriesCarried fromStr seen (withUsage t usage) entries := by
  induction entries with
  | nil => intro seen t _; trivial
  | cons entry entries ih =>
    intro seen t h
    unfold EntriesCarried at h ⊢
    show ite (completes fromStr t entry = true) _ _
    by_cases hcompletes : completes fromStr t entry = true
    · rw [if_pos hcompletes] at h ⊢
      exact h
    · rw [if_neg hcompletes] at h ⊢
      rw [accumulateToolCall_withUsage]
      exact ⟨h.1, ih _ _ h.2⟩

end Usage

/-! ## The stream and the translator -/

section Payloads
variable {fromStr : String → Except String Value}

/-- The blocks of the payloads to come, and those pending after them. -/
def finalBlocks (fromStr : String → Except String Value) (t : ChatCompletionTranslator) :
    List String → List MessageContentBlock
  | [] => t.pending
  | payload :: payloads =>
    ((t.translate fromStr payload).1.toOption.bind id).toList ++ finalBlocks fromStr (t.translate fromStr payload).2 payloads

/-- No payload is refused, and `[DONE]` is the last. -/
def Clean (fromStr : String → Except String Value) (t : ChatCompletionTranslator) : List String → Prop
  | [] => True
  | payload :: payloads =>
    (∃ block, (t.translate fromStr payload).1 = .ok block) ∧ (payload = "[DONE]" → payloads = []) ∧
      Clean fromStr (t.translate fromStr payload).2 payloads

theorem finalBlocks_withUsage (fromStr : String → Except String Value) (payloads : List String) : ∀ (t : ChatCompletionTranslator) (usage : Option TokenUsage),
    finalBlocks fromStr (withUsage t usage) payloads = finalBlocks fromStr t payloads ∧
      (Clean fromStr t payloads → Clean fromStr (withUsage t usage) payloads) := by
  induction payloads with
  | nil => exact fun t usage => ⟨rfl, id⟩
  | cons payload payloads ih =>
    intro t usage
    obtain ⟨later, hpayload⟩ := @translate_withUsage fromStr t usage payload
    unfold finalBlocks Clean
    rw [hpayload]
    refine ⟨?_, fun h => ⟨h.1, h.2.1, (ih _ later).2 h.2.2⟩⟩
    rw [(ih _ later).1]

theorem flushIndex_done (t : ChatCompletionTranslator) (index : Nat) : (t.flushIndex fromStr index).done = t.done := by
  unfold flushIndex
  cases t.toolAcc.lookup index <;> rfl

theorem flushAccumulated_done (t : ChatCompletionTranslator) : (t.flushAccumulated fromStr).done = t.done := by
  unfold flushAccumulated
  generalize t.toolAcc.keys.insertionSort (· ≤ ·) = indices
  induction indices generalizing t with
  | nil => rfl
  | cons index indices ih =>
    rw [List.foldl_cons, ih]
    exact flushIndex_done t index

theorem accumulateToolCall_done (fromStr : String → Except String Value) (t : ChatCompletionTranslator) (entry : Value) :
    (t.accumulateToolCall fromStr entry).2.done = t.done := by
  cases hcompletes : completes fromStr t entry with
  | true =>
    obtain ⟨call, -, -, hstep⟩ := accumulate_completes hcompletes
    rw [hstep]
  | false => rw [accumulate_continues hcompletes]

theorem accumulateToolCalls_done (entries : List Value) : ∀ t : ChatCompletionTranslator,
    (t.accumulateToolCalls fromStr entries).2.done = t.done := by
  induction entries with
  | nil => exact fun t => rfl
  | cons entry entries ih =>
    intro t
    have hentry := accumulateToolCall_done fromStr t entry
    simp only [accumulateToolCalls]
    rcases hstep : t.accumulateToolCall fromStr entry with ⟨_ | block, next⟩ <;> rw [hstep] at hentry
    · exact (ih next).trans hentry
    · exact hentry

theorem translate_done {t : ChatCompletionTranslator} {payload : String} (h : payload ≠ "[DONE]") :
    (t.translate fromStr payload).2.done = t.done := by
  unfold ChatCompletionTranslator.translate
  rw [if_neg h]
  cases t.pending with
  | cons block pending => rfl
  | nil =>
    cases fromStr payload with
    | error e => rfl
    | ok frame =>
      cases hmessage : errorMessage frame with
      | some message => simp only [hmessage]
      | none =>
        simp only [hmessage]
        rw [translateFrame_eq]
        split_ifs
        · rfl
        · rfl
        · exact (flushAccumulated_done _).trans (accumulateToolCalls_done _ _)
        · exact accumulateToolCalls_done _ _

theorem translateEvents_clean (events : List SseEvent) : ∀ (t : ChatCompletionTranslator) (payloads : List String),
    Clean fromStr t (payloadsOf events ++ payloads) → t.done = false →
    ∃ blocks next, translateEvents (openAiCompat fromStr) t events = (.ok blocks, next) ∧
      blocks ++ finalBlocks fromStr next payloads = finalBlocks fromStr t (payloadsOf events ++ payloads) ∧
      Clean fromStr next payloads ∧ (next.done = true → payloads = []) := by
  induction events with
  | nil => exact fun t payloads h hdone => ⟨[], t, rfl, rfl, h, fun h => absurd (hdone.symm.trans h) (by decide)⟩
  | cons event events ih =>
    intro t payloads h hdone
    unfold translateEvents
    by_cases hempty : event.data.isEmpty = true
    · rw [if_pos hempty]
      have hskip : payloadsOf (event :: events) = payloadsOf events := by
        simp [payloadsOf, hempty]
      rw [hskip] at h ⊢
      exact ih t payloads h hdone
    · rw [if_neg hempty]
      have hkeep : payloadsOf (event :: events) = event.data :: payloadsOf events := by
        simp [payloadsOf, hempty]
      rw [hkeep, List.cons_append] at h ⊢
      obtain ⟨⟨block, hblock⟩, hlast, hrest⟩ := h
      have hstep : (openAiCompat fromStr).translate t event =
          (.ok block.toList, (t.translate fromStr event.data).2) := by
        show ((t.translate fromStr event.data).1.map Option.toList, _) = _
        rw [hblock]
        rfl
      rw [hstep]
      have hfinal : finalBlocks fromStr t (event.data :: (payloadsOf events ++ payloads)) =
          block.toList ++ finalBlocks fromStr (t.translate fromStr event.data).2 (payloadsOf events ++ payloads) := by
        show ((t.translate fromStr event.data).1.toOption.bind id).toList ++ _ = _
        rw [hblock]
        rfl
      by_cases hmarker : event.data = "[DONE]"
      · -- nothing follows the end marker
        obtain ⟨hevents, hpayloads⟩ := List.append_eq_nil_iff.mp (hlast hmarker)
        have hsilent : ∀ (rest : List SseEvent) (t : ChatCompletionTranslator), payloadsOf rest = [] →
            translateEvents (openAiCompat fromStr) t rest = (.ok [], t) := by
          intro rest
          induction rest with
          | nil => exact fun t _ => rfl
          | cons e rest ihr =>
            intro t h
            unfold translateEvents
            by_cases he : e.data.isEmpty = true
            · rw [if_pos he]
              exact ihr t (by simpa [payloadsOf, he] using h)
            · simp [payloadsOf, he] at h
        rw [hfinal, hevents, hpayloads]
        refine ⟨block.toList, (t.translate fromStr event.data).2, ?_, rfl, trivial, fun _ => rfl⟩
        simp only [hsilent events _ hevents, List.append_nil]
      · obtain ⟨more, next, hmore, hblocks, hclean, hend⟩ :=
          ih _ payloads hrest ((translate_done hmarker).trans hdone)
        refine ⟨block.toList ++ more, next, by simp only [hmore], ?_, hclean, hend⟩
        rw [hfinal, ← hblocks, List.append_assoc]

theorem transcript_clean (chunks : List (List UInt8)) : ∀ (parser : SseStreamParser) (t : ChatCompletionTranslator)
    (payloads : List String), (concatEvents (parser.feedAll chunks).1).map payloadsOf = .ok payloads →
    Clean fromStr t payloads → t.done = false →
    transcript (openAiCompat fromStr) parser t chunks = (finalBlocks fromStr t payloads).map .ok := by
  induction chunks with
  | nil =>
    intro parser t payloads hevents _ _
    have hnone : payloads = [] := (Except.ok.inj hevents).symm
    rw [hnone]
    rfl
  | cons chunk chunks ih =>
    intro parser t payloads hevents hclean hdone
    unfold SseStreamParser.feedAll at hevents
    unfold transcript translateSse
    rcases hchunk : parser.feedChunk chunk with ⟨e | events, next⟩ <;> rw [hchunk] at hevents
    · cases hevents
    · simp only [concatEvents] at hevents
      cases hmore : concatEvents (next.feedAll chunks).1 with
      | error e => simp [hmore, Except.map] at hevents
      | ok more =>
        simp only [hmore, Except.map, Except.ok.injEq] at hevents
        have hsplit : payloads = payloadsOf events ++ payloadsOf more := by
          rw [← hevents]
          simp [payloadsOf]
        subst hsplit
        obtain ⟨blocks, after, hstep, hblocks, hrest, hend⟩ := translateEvents_clean events t _ hclean hdone
        have husage := finalBlocks_withUsage fromStr (payloadsOf more) after none
        simp only [hstep]
        rw [← hblocks, List.map_append]
        congr 1
        show (if after.done = true then after.pending.map .ok
          else transcript (openAiCompat fromStr) next (withUsage after none) chunks) = _
        cases hafter : after.done with
        | true =>
          rw [if_pos rfl, hend hafter]
          rfl
        | false =>
          rw [if_neg (by decide), ih next (withUsage after none) (payloadsOf more) (by rw [hmore]; rfl) (husage.2 hrest) hafter,
            husage.1]

end Payloads

/-! ## The translator and the frames -/

section Frames
variable {fromStr : String → Except String Value}

theorem Frame.translate_ok (f : Frame fromStr) (t : ChatCompletionTranslator) :
    ∃ block, (t.translate fromStr f.payload).1 = .ok block := by
  unfold ChatCompletionTranslator.translate
  rw [if_neg f.notDone]
  cases t.pending with
  | cons block pending => exact ⟨_, rfl⟩
  | nil =>
    rw [f.parses]
    simp only [f.noError]
    exact ⟨_, rfl⟩

theorem Frame.translate_pending (f : Frame fromStr) {t : ChatCompletionTranslator} {block : MessageContentBlock}
    {pending : List MessageContentBlock} (h : t.pending = block :: pending) :
    ∃ usage, t.translate fromStr f.payload = (.ok (some block), { t with pending := pending, usage := usage }) :=
  ⟨(t.translate fromStr f.payload).2.usage, by simp [ChatCompletionTranslator.translate, f.notDone, h]⟩

theorem Frame.translate_read (f : Frame fromStr) {t : ChatCompletionTranslator} (h : t.pending = []) :
    ∃ usage, t.translate fromStr f.payload =
      (.ok ((withUsage t usage).translateFrame fromStr f.value).1,
        ((withUsage t usage).translateFrame fromStr f.value).2) :=
  ⟨(tokenUsageOf f.value).or t.usage, by simp [ChatCompletionTranslator.translate, f.notDone, h, f.parses, f.noError, withUsage]⟩

/-- **One frame** whose step drops nothing keeps the account. -/
theorem Reading.step_accounted (f : Frame fromStr) {r : Reading}
    (hcarried : FrameCarried fromStr r.seen r.translator f.value)
    (h : Accounted fromStr r.frames r.translator r.blocks) :
    Accounted fromStr (r.step f).frames (r.step f).translator (r.step f).blocks := by
  unfold Reading.step
  cases hpending : r.translator.pending with
  | cons block pending =>
    -- the frame carries nothing, and the first pending block is emitted
    unfold FrameCarried at hcarried
    rw [if_pos (by simp [hpending])] at hcarried
    obtain ⟨usage, hstep⟩ := f.translate_pending hpending
    have hsame : r.blocks ++ [block] ++ pending = r.blocks ++ r.translator.pending := by
      rw [hpending, List.append_assoc]
      rfl
    rw [hstep]
    refine h.frame ?_ ?_ ?_
    · show textOf (r.blocks ++ [block] ++ pending) = _
      rw [hsame, hcarried.1, String.append_empty]
    · show thinkingOf (r.blocks ++ [block] ++ pending) = _
      rw [hsame, hcarried.2.1, String.append_empty]
    · show CallsKept fromStr _ r.translator.toolAcc (callsOf (r.blocks ++ [block] ++ pending))
      rw [hsame]
      exact h.calls.unread hcarried.2.2
  | nil =>
    obtain ⟨usage, hstep⟩ := f.translate_read hpending
    have hread : FrameCarried fromStr r.seen (withUsage r.translator usage) f.value := by
      unfold FrameCarried at hcarried ⊢
      show ite (r.translator.pending ≠ []) _ _
      split_ifs at hcarried ⊢
      · exact hcarried
      · exact hcarried
      · exact hcarried
      · exact entriesCarried_withUsage _ _ _ _ hcarried
    have hsame : Accounted fromStr r.frames (withUsage r.translator usage) r.blocks := ⟨h.text, h.thinking, h.calls⟩
    rw [hstep]
    exact translateFrame_accounted hsame hpending hread

theorem run_accounted (frames : List (Frame fromStr))
    (h : Along Reading.step (fun reading f => FrameCarried fromStr reading.seen reading.translator f.value) Reading.start
      frames) :
    Accounted fromStr (run Reading.step Reading.start frames).frames (run Reading.step Reading.start frames).translator
      (run Reading.step Reading.start frames).blocks :=
  run_induction Reading.step (I := fun r => Accounted fromStr r.frames r.translator r.blocks)
    (fun _ f hcarried h => Reading.step_accounted f hcarried h) Accounted.new frames h

theorem run_frames (frames : List (Frame fromStr)) : ∀ r : Reading,
    (run Reading.step r frames).frames = r.frames ++ frames.map Frame.value := by
  induction frames with
  | nil => exact fun r => (List.append_nil _).symm
  | cons f frames ih =>
    intro r
    rw [run_cons, ih]
    exact List.append_assoc _ _ _

theorem finalBlocks_frames (frames : List (Frame fromStr)) (payloads : List String) : ∀ r : Reading,
    r.blocks ++ finalBlocks fromStr r.translator (frames.map Frame.payload ++ payloads) =
      (run Reading.step r frames).blocks ++ finalBlocks fromStr (run Reading.step r frames).translator payloads := by
  induction frames with
  | nil => exact fun r => rfl
  | cons f frames ih =>
    intro r
    rw [run_cons, ← ih (r.step f), List.map_cons, List.cons_append]
    exact (List.append_assoc _ _ _).symm

theorem clean_frames (frames : List (Frame fromStr)) (ending : Ending) : ∀ t : ChatCompletionTranslator,
    Clean fromStr t (frames.map Frame.payload ++ ending.payloads) := by
  induction frames with
  | nil =>
    intro t
    cases ending with
    | done => exact ⟨⟨none, by simp [ChatCompletionTranslator.translate]⟩, fun _ => rfl, trivial⟩
    | endOfStream => trivial
  | cons f frames ih =>
    intro t
    exact ⟨f.translate_ok t, fun h => absurd h f.notDone, ih _⟩

theorem foldl_flushIndex_mem (indices : List Nat) : ∀ (t : ChatCompletionTranslator) (index : Nat),
    index ∈ (indices.foldl (flushIndex fromStr) t).toolAcc → index ∈ t.toolAcc ∧ index ∉ indices := by
  induction indices with
  | nil => exact fun t index h => ⟨h, List.not_mem_nil⟩
  | cons first indices ih =>
    intro t index h
    obtain ⟨hmem, hrest⟩ := ih (t.flushIndex fromStr first) index h
    rw [(flushIndex_frame first t).1, AList.mem_erase] at hmem
    exact ⟨hmem.2, fun hcons => (List.mem_cons.mp hcons).elim hmem.1 hrest⟩

theorem flushAccumulated_closed (t : ChatCompletionTranslator) (index : Nat) :
    index ∉ (t.flushAccumulated fromStr).toolAcc := by
  intro h
  obtain ⟨hmem, hnot⟩ := foldl_flushIndex_mem _ t index h
  exact hnot ((List.mem_insertionSort _).mpr (AList.mem_keys.mp hmem))

theorem Accounted.lossless {frames : List Value} {t : ChatCompletionTranslator} {blocks : List MessageContentBlock}
    (h : Accounted fromStr frames t blocks) (hclosed : ∀ index, index ∉ t.toolAcc) :
    Lossless fromStr frames (blocks ++ t.pending) := by
  obtain ⟨indices, hnodup, -, hall, hemitted⟩ := h.calls.emitted
  have hopening : ∀ index, (openCall (frames.flatMap toolCalls) index).isSome =
      (opening (frames.flatMap toolCalls) index).isSome := fun index => Option.isSome_map
  refine ⟨h.text, h.thinking, indices, hnodup, fun index => ⟨fun hmem => ?_, fun hsome => ?_⟩, hemitted⟩
  · rw [← hopening]
    exact CallsKept.isSome_of_emitted hemitted hmem
  · rw [← hopening] at hsome
    exact (hall index hsome).resolve_right (hclosed index)

end Frames

/-- **Nothing is lost** of a response whose steps all carry what their frames hold. -/
theorem lossless_of_carried (fromStr : String → Except String Value) (r : Response fromStr) (h : r.Carries) :
    r.LosesNothing := by
  obtain ⟨hcarried, hopen⟩ := h
  have haccounted := run_accounted r.frames hcarried
  rw [run_frames] at haccounted
  have hblocks := finalBlocks_frames r.frames r.ending.payloads Reading.start
  refine ⟨finalBlocks fromStr ChatCompletionTranslator.new (r.frames.map Frame.payload ++ r.ending.payloads),
    fun items => ?_, ?_⟩
  · rw [drains_iff_transcript r.delivered]
    have hholds : (concatEvents (SseStreamParser.new.feedAll (chunksOf r.inner)).1).map payloadsOf =
        .ok (r.frames.map Frame.payload ++ r.ending.payloads) := r.holds
    rw [transcript_clean _ _ _ _ hholds (clean_frames r.frames r.ending _) rfl]
  · show Lossless fromStr _ ([] ++ finalBlocks fromStr ChatCompletionTranslator.new _)
    rw [show ([] : List MessageContentBlock) ++ finalBlocks fromStr ChatCompletionTranslator.new _ = _ from hblocks]
    cases hending : r.ending with
    | done =>
      have hflushed := haccounted.flushAccumulated
      have hlast : finalBlocks fromStr (run Reading.step Reading.start r.frames).translator Ending.done.payloads =
          ((run Reading.step Reading.start r.frames).translator.flushAccumulated fromStr).pending := by
        simp [finalBlocks, Ending.payloads, ChatCompletionTranslator.translate, Except.toOption]
      rw [hlast]
      exact hflushed.lossless (flushAccumulated_closed _)
    | endOfStream =>
      refine haccounted.lossless fun index hmem => ?_
      rw [AList.mem_keys, hopen hending] at hmem
      exact List.not_mem_nil hmem

/-! ## Two responses -/

/-- A parser that knows the given texts. -/
def knowing (texts : List (String × Value)) (text : String) : Except String Value :=
  match texts.lookup text with
  | some value => .ok value
  | none => .error "expected value at line 1 column 1"

/-- The bytes of `data:` frames. -/
def chunkOf (payloads : List String) : List UInt8 :=
  payloads.flatMap fun payload => ascii "data: " ++ ascii payload ++ [newline, newline]

def choiceFrame (delta : List (String × Value)) (finishReason : Value) : Value :=
  .object [("choices", .array [.object [("delta", .object delta), ("finish_reason", finishReason)]])]

def contentText : String := "\x7b\"choices\":[\x7b\"delta\":\x7b\"content\":\"a\"\x7d,\"finish_reason\":null\x7d]\x7d"

def callText : String :=
  "\x7b\"choices\":[\x7b\"delta\":\x7b\"tool_calls\":[\x7b\"id\":\"c\",\"function\":\x7b\"name\":\"f\",\"arguments\":\"7\"\x7d\x7d]\x7d,\"finish_reason\":\"tool_calls\"\x7d]\x7d"

def oneCall : List (String × Value) :=
  [(contentText, choiceFrame [("content", .string "a")] .null),
    (callText, choiceFrame [("tool_calls", .array [.object [("id", .string "c"),
      ("function", .object [("name", .string "f"), ("arguments", .string "7")])]])] (.string "tool_calls")),
    ("7", .number (.posInt 7))]

/-- A text and a whole call, in one chunk. -/
def textAndCall : Response (knowing oneCall) where
  inner := [.ready (.ok (chunkOf [contentText, callText, "[DONE]"]))]
  frames := [⟨contentText, choiceFrame [("content", .string "a")] .null, by decide, by rfl, by rfl⟩,
    ⟨callText, choiceFrame [("tool_calls", .array [.object [("id", .string "c"),
      ("function", .object [("name", .string "f"), ("arguments", .string "7")])]])] (.string "tool_calls"),
      by decide, by rfl, by rfl⟩]
  ending := .done
  delivered message := by simp
  holds := by decide +kernel

theorem lossless_of_carried_textAndCall : textAndCall.LosesNothing := by
  refine lossless_of_carried (knowing oneCall) textAndCall ⟨⟨?_, ?_, trivial⟩, fun h => nomatch h⟩
  · -- a text and no entry
    refine ⟨rfl, fun index => ?_⟩
    rw [show toolCalls (choiceFrame [("content", .string "a")] .null) = [] from rfl, List.append_nil]
  · -- one entry, which opens its index
    refine ⟨.inr ?_, trivial⟩
    exact ⟨rfl, rfl⟩

def bothText : String := "\x7b\"choices\":[\x7b\"delta\":\x7b\"content\":\"a\",\"reasoning_content\":\"b\"\x7d,\"finish_reason\":null\x7d]\x7d"

def bothFrame : Value := choiceFrame [("content", .string "a"), ("reasoning_content", .string "b")] .null

/-- One frame with a content and a reasoning. -/
def contentAndReasoning : Response (knowing [(bothText, bothFrame)]) where
  inner := [.ready (.ok (chunkOf [bothText, "[DONE]"]))]
  frames := [⟨bothText, bothFrame, by decide, by rfl, by rfl⟩]
  ending := .done
  delivered message := by simp
  holds := by decide

/-- The reasoning beside a content is lost. -/
theorem reasoning_beside_content_lost : ¬ contentAndReasoning.LosesNothing := by
  rintro ⟨blocks, hdrains, hlossless⟩
  have hitems := (drains_iff_transcript contentAndReasoning.delivered (blocks.map .ok)).mp ((hdrains _).mpr rfl)
  have hholds : (concatEvents (SseStreamParser.new.feedAll (chunksOf contentAndReasoning.inner)).1).map payloadsOf =
      .ok [bothText, "[DONE]"] := contentAndReasoning.holds
  rw [transcript_clean _ _ _ _ hholds
    (clean_frames contentAndReasoning.frames .done ChatCompletionTranslator.new) rfl] at hitems
  have hblocks : blocks = [.text "a"] := List.map_injective_iff.mpr (fun _ _ h => Except.ok.inj h) hitems
  have hthinking := hlossless.thinking
  rw [hblocks] at hthinking
  exact absurd hthinking (by decide)

end Cuca.OpenAiCompat
