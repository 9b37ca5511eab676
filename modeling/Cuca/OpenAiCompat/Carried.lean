import Cuca.Lib.Transition
import Cuca.OpenAiCompat.Request

/-!
# What the frames carry, and what the translator keeps of it

* `openCall` : the call the entries of `delta.tool_calls` add up to at an index;
* `Lossless` : blocks that lose nothing of the frames;
* `FrameCarried` : the steps that drop nothing;
* `Accounted` : the invariant of such steps, and `frame_accounted` for one of them.
-/

namespace Cuca.OpenAiCompat
open Transition ChatCompletionTranslator

/-! ## What the frames add up to -/

def opening (entries : List Value) (index : Nat) : Option (String × String) :=
  entries.findSome? fun entry => if entryIndex entry = index then entryOpening entry else none

def fragments (entries : List Value) (index : Nat) : String :=
  String.join ((entries.filter (entryIndex · = index)).map entryFragment)

def openCall (entries : List Value) (index : Nat) : Option PartialCall :=
  (opening entries index).map fun (id, name) => ⟨id, name, fragments entries index⟩

def textOf (blocks : List MessageContentBlock) : String :=
  String.join (blocks.filterMap fun | .text text => some text | _ => none)

def thinkingOf (blocks : List MessageContentBlock) : String :=
  String.join (blocks.filterMap fun | .thinking reasoning _ => some reasoning | _ => none)

def isToolCall : MessageContentBlock → Bool
  | .toolCall _ _ _ => true
  | _ => false

def callsOf (blocks : List MessageContentBlock) : List MessageContentBlock := blocks.filter isToolCall

section
variable (fromStr : String → Except String Value)

def PartialCall.block (call : PartialCall) : MessageContentBlock :=
  .toolCall call.id call.name (argumentsOf fromStr call.fragment)

/-- Nothing of the frames is lost: the texts are whole, and every opened index has exactly one call. -/
structure Lossless (frames : List Value) (blocks : List MessageContentBlock) : Prop where
  text : textOf blocks = String.join (frames.map content)
  thinking : thinkingOf blocks = String.join (frames.map reasoningContent)
  calls : ∃ indices : List Nat, indices.Nodup ∧
    (∀ index, index ∈ indices ↔ (opening (frames.flatMap toolCalls) index).isSome) ∧
    (callsOf blocks).map some =
      indices.map fun index => (openCall (frames.flatMap toolCalls) index).map (PartialCall.block fromStr)

/-! ## Steps that drop nothing -/

def Unread (seen entries : List Value) : Prop := ∀ index, openCall (seen ++ entries) index = openCall seen index

/-- Whether an entry completes the call of its index. -/
def completes (t : ChatCompletionTranslator) (entry : Value) : Bool :=
  match t.toolAcc.lookup (entryIndex entry) with
  | some call => entryFragment entry == "" && call.fragment != "" && (fromStr call.fragment).isOk
  | none => false

/-- The accumulator has a place for what the entry adds: its index is open, or it opens it with all its fragments. -/
def Carried (seen : List Value) (t : ChatCompletionTranslator) (entry : Value) : Prop :=
  entryIndex entry ∈ t.toolAcc ∨
    if (entryOpening entry).isSome then opening seen (entryIndex entry) = none ∧ fragments seen (entryIndex entry) = ""
    else Unread seen [entry]

/-- Every entry of a frame is carried, and nothing follows the one that completes a call. -/
def EntriesCarried (seen : List Value) (t : ChatCompletionTranslator) : List Value → Prop
  | [] => True
  | entry :: entries =>
    if completes fromStr t entry then Unread (seen ++ [entry]) entries
    else Carried seen t entry ∧ EntriesCarried (seen ++ [entry]) (t.accumulateToolCall fromStr entry).2 entries

/-- A frame that finds pending blocks carries nothing; one that becomes text carries nothing else. -/
def FrameCarried (seen : List Value) (t : ChatCompletionTranslator) (frame : Value) : Prop :=
  if t.pending ≠ [] then content frame = "" ∧ reasoningContent frame = "" ∧ Unread seen (toolCalls frame)
  else if content frame ≠ "" then reasoningContent frame = "" ∧ Unread seen (toolCalls frame)
  else if reasoningContent frame ≠ "" then Unread seen (toolCalls frame)
  else EntriesCarried fromStr seen t (toolCalls frame)

end

/-! ## Texts -/

section Texts
variable (blocks more : List MessageContentBlock)

theorem textOf_append : textOf (blocks ++ more) = textOf blocks ++ textOf more := by
  unfold textOf
  rw [List.filterMap_append, String.join_append]

theorem thinkingOf_append : thinkingOf (blocks ++ more) = thinkingOf blocks ++ thinkingOf more := by
  unfold thinkingOf
  rw [List.filterMap_append, String.join_append]

theorem callsOf_append : callsOf (blocks ++ more) = callsOf blocks ++ callsOf more := List.filter_append _ _

end Texts

/-! ## Calls -/

section Calls
variable {seen : List Value} {entry : Value}

theorem opening_append (seen more : List Value) (index : Nat) :
    opening (seen ++ more) index = (opening seen index).or (opening more index) := List.findSome?_append

theorem fragments_append (seen more : List Value) (index : Nat) :
    fragments (seen ++ more) index = fragments seen index ++ fragments more index := by
  unfold fragments
  rw [List.filter_append, List.map_append, String.join_append]

theorem opening_single (entry : Value) : opening [entry] (entryIndex entry) = entryOpening entry := by
  unfold opening
  rw [List.findSome?_cons, if_pos rfl]
  cases entryOpening entry <;> rfl

theorem fragments_single (entry : Value) : fragments [entry] (entryIndex entry) = entryFragment entry := by
  unfold fragments
  rw [List.filter_cons_of_pos (by exact decide_eq_true rfl)]
  simp

theorem openCall_other {index : Nat} (h : index ≠ entryIndex entry) :
    openCall (seen ++ [entry]) index = openCall seen index := by
  have hopening : opening [entry] index = none := by
    unfold opening
    rw [List.findSome?_cons, if_neg (Ne.symm h)]
    rfl
  have hfragments : fragments [entry] index = "" := by
    unfold fragments
    rw [List.filter_cons_of_neg (by simpa using Ne.symm h)]
    rfl
  unfold openCall
  rw [opening_append, fragments_append, hopening, hfragments, Option.or_none, String.append_empty]

theorem openCall_of_open {call : PartialCall} (h : openCall seen (entryIndex entry) = some call) :
    openCall (seen ++ [entry]) (entryIndex entry) =
      some { call with fragment := call.fragment ++ entryFragment entry } := by
  unfold openCall at *
  obtain ⟨⟨id, name⟩, hopening, rfl⟩ := Option.map_eq_some_iff.mp h
  rw [opening_append, hopening, Option.some_or, fragments_append, fragments_single]
  rfl

theorem openCall_of_opening {id name : String} (hnone : opening seen (entryIndex entry) = none)
    (hfragments : fragments seen (entryIndex entry) = "") (hopens : entryOpening entry = some (id, name)) :
    openCall (seen ++ [entry]) (entryIndex entry) = some ⟨id, name, entryFragment entry⟩ := by
  unfold openCall
  rw [opening_append, hnone, Option.none_or, opening_single, hopens, fragments_append, hfragments, fragments_single,
    String.empty_append]
  rfl

/-- The calls of the entries seen are those open in the accumulator and those completed. -/
structure CallsKept (fromStr : String → Except String Value) (seen : List Value)
    (toolAcc : AList fun _ : Nat => PartialCall) (emitted : List MessageContentBlock) : Prop where
  lookup : ∀ index call, toolAcc.lookup index = some call → openCall seen index = some call
  emitted : ∃ indices : List Nat, indices.Nodup ∧ (∀ index ∈ indices, index ∉ toolAcc) ∧
    (∀ index, (openCall seen index).isSome → index ∈ indices ∨ index ∈ toolAcc) ∧
    emitted.map some = indices.map fun index => (openCall seen index).map (PartialCall.block fromStr)

namespace CallsKept
variable {fromStr : String → Except String Value} {toolAcc : AList fun _ : Nat => PartialCall}
  {emitted : List MessageContentBlock}

theorem empty : CallsKept fromStr [] ∅ [] := by
  refine ⟨fun index call h => ?_, [], List.nodup_nil, fun _ h => absurd h List.not_mem_nil, fun index h => ?_, rfl⟩
  · rw [AList.lookup_empty] at h
    contradiction
  · exact absurd h (by simp [openCall, opening])

theorem unread {more : List Value} (h : CallsKept fromStr seen toolAcc emitted) (hunread : Unread seen more) :
    CallsKept fromStr (seen ++ more) toolAcc emitted := by
  have hcalls : openCall (seen ++ more) = openCall seen := funext hunread
  refine ⟨?_, ?_⟩
  · rw [hcalls]
    exact h.lookup
  · rw [hcalls]
    exact h.emitted

theorem isSome_of_emitted {indices : List Nat} {index : Nat}
    (hemitted : emitted.map some = indices.map fun index => (openCall seen index).map (PartialCall.block fromStr))
    (h : index ∈ indices) : (openCall seen index).isSome := by
  have hmem : (openCall seen index).map (PartialCall.block fromStr) ∈ emitted.map some := by
    rw [hemitted]
    exact List.mem_map_of_mem h
  obtain ⟨block, -, hblock⟩ := List.mem_map.mp hmem
  rw [← Option.isSome_map (f := PartialCall.block fromStr), ← hblock]
  rfl

theorem insert {call : PartialCall} (h : CallsKept fromStr seen toolAcc emitted)
    (hplace : entryIndex entry ∈ toolAcc ∨ openCall seen (entryIndex entry) = none)
    (hcall : openCall (seen ++ [entry]) (entryIndex entry) = some call) :
    CallsKept fromStr (seen ++ [entry]) (toolAcc.insert (entryIndex entry) call) emitted := by
  obtain ⟨indices, hnodup, hdisjoint, hall, hemitted⟩ := h.emitted
  have hfree : entryIndex entry ∉ indices := by
    intro hmem
    rcases hplace with hopen | hnone
    · exact hdisjoint _ hmem hopen
    · exact absurd (isSome_of_emitted hemitted hmem) (by simp [hnone])
  refine ⟨fun index other hlookup => ?_, indices, hnodup, fun index hmem => ?_, fun index hsome => ?_, ?_⟩
  · by_cases heq : index = entryIndex entry
    · subst heq
      rw [AList.lookup_insert] at hlookup
      rw [hcall, hlookup]
    · rw [AList.lookup_insert_ne heq] at hlookup
      rw [openCall_other heq]
      exact h.lookup _ _ hlookup
  · rw [AList.mem_insert]
    rintro (rfl | hopen)
    · exact hfree hmem
    · exact hdisjoint _ hmem hopen
  · rw [AList.mem_insert]
    by_cases heq : index = entryIndex entry
    · exact .inr (.inl heq)
    · rw [openCall_other heq] at hsome
      exact (hall index hsome).imp_right .inr
  · rw [hemitted]
    refine List.map_congr_left fun index hmem => ?_
    rw [openCall_other (fun heq => hfree (heq ▸ hmem))]

theorem complete {index : Nat} {call : PartialCall} (h : CallsKept fromStr seen toolAcc emitted)
    (hlookup : toolAcc.lookup index = some call) :
    CallsKept fromStr seen (toolAcc.erase index) (emitted ++ [call.block fromStr]) := by
  obtain ⟨indices, hnodup, hdisjoint, hall, hemitted⟩ := h.emitted
  have hopen : index ∈ toolAcc := AList.lookup_isSome.mp (by rw [hlookup]; rfl)
  refine ⟨fun other otherCall hother => ?_, indices ++ [index], ?_, fun other hmem => ?_, fun other hsome => ?_, ?_⟩
  · by_cases heq : other = index
    · subst heq
      rw [AList.lookup_erase] at hother
      contradiction
    · rw [AList.lookup_erase_ne heq] at hother
      exact h.lookup _ _ hother
  · refine List.nodup_append.mpr ⟨hnodup, List.nodup_singleton _, fun a ha b hb heq => ?_⟩
    rw [List.mem_singleton.mp hb] at heq
    exact hdisjoint a ha (heq ▸ hopen)
  · rw [AList.mem_erase]
    rintro ⟨hne, hstill⟩
    rcases List.mem_append.mp hmem with hold | hnew
    · exact hdisjoint _ hold hstill
    · exact hne (List.mem_singleton.mp hnew)
  · rw [AList.mem_erase, List.mem_append, List.mem_singleton]
    by_cases heq : other = index
    · exact .inl (.inr heq)
    · rcases hall other hsome with hdone | hstill
      · exact .inl (.inl hdone)
      · exact .inr ⟨heq, hstill⟩
  · rw [List.map_append, List.map_append, hemitted]
    show _ ++ [some (call.block fromStr)] = _ ++ [(openCall seen index).map (PartialCall.block fromStr)]
    rw [h.lookup _ _ hlookup]
    rfl

end CallsKept
end Calls

/-! ## The accumulator keeps the calls -/

section Accumulator
variable {fromStr : String → Except String Value} {t : ChatCompletionTranslator} {entry : Value}

theorem accumulate_completes (h : completes fromStr t entry = true) :
    ∃ call, t.toolAcc.lookup (entryIndex entry) = some call ∧ entryFragment entry = "" ∧
      t.accumulateToolCall fromStr entry =
        (some (call.block fromStr), { t with toolAcc := t.toolAcc.erase (entryIndex entry) }) := by
  unfold completes at h
  cases hlookup : t.toolAcc.lookup (entryIndex entry) with
  | none => simp [hlookup] at h
  | some call =>
    simp only [hlookup, Bool.and_eq_true, beq_iff_eq, bne_iff_ne] at h
    obtain ⟨⟨hfragment, hcall⟩, hparses⟩ := h
    refine ⟨call, rfl, hfragment, ?_⟩
    unfold accumulateToolCall tryComplete PartialCall.block argumentsOf
    cases hparse : fromStr call.fragment with
    | error e => simp [hparse, Except.isOk, Except.toBool] at hparses
    | ok arguments => simp [hlookup, hfragment, hcall, hparse]

theorem accumulate_continues (h : completes fromStr t entry = false) :
    t.accumulateToolCall fromStr entry =
      (none, { t with toolAcc := (t.accumulateToolCall fromStr entry).2.toolAcc }) := by
  unfold completes at h
  unfold accumulateToolCall
  cases hlookup : t.toolAcc.lookup (entryIndex entry) with
  | none => cases hopens : entryOpening entry <;> simp [hlookup, hopens]
  | some call =>
    by_cases hfragment : entryFragment entry = ""
    · by_cases hcall : call.fragment = ""
      · simp [tryComplete, hlookup, hfragment, hcall]
      · cases hparse : fromStr call.fragment with
        | error e => simp [tryComplete, hlookup, hfragment, hcall, hparse]
        | ok arguments => simp [hlookup, hfragment, hcall, hparse, Except.isOk, Except.toBool] at h
    · simp [hfragment, hlookup]

theorem accumulate_kept {seen : List Value} {emitted : List MessageContentBlock}
    (h : CallsKept fromStr seen t.toolAcc emitted) (hcompletes : completes fromStr t entry = false)
    (hcarried : Carried seen t entry) :
    CallsKept fromStr (seen ++ [entry]) (t.accumulateToolCall fromStr entry).2.toolAcc emitted := by
  cases hlookup : t.toolAcc.lookup (entryIndex entry) with
  | some call =>
    have hopen : entryIndex entry ∈ t.toolAcc := AList.lookup_isSome.mp (by rw [hlookup]; rfl)
    have hcall := openCall_of_open (h.lookup _ _ hlookup)
    by_cases hfragment : entryFragment entry = ""
    · -- the call stays as it is
      have hkeeps : (t.accumulateToolCall fromStr entry).2.toolAcc = t.toolAcc := by
        unfold completes at hcompletes
        simp only [hlookup, hfragment, beq_self_eq_true, Bool.true_and] at hcompletes
        unfold accumulateToolCall tryComplete
        by_cases hempty : call.fragment = ""
        · simp [hlookup, hfragment, hempty]
        · cases hparse : fromStr call.fragment with
          | error e => simp [hlookup, hfragment, hempty, hparse]
          | ok arguments => simp [hempty, hparse, Except.isOk, Except.toBool] at hcompletes
      rw [hkeeps]
      refine h.unread fun index => ?_
      by_cases heq : index = entryIndex entry
      · rw [heq, hcall, h.lookup _ _ hlookup, hfragment, String.append_empty]
      · exact openCall_other heq
    · have hgrows : (t.accumulateToolCall fromStr entry).2.toolAcc =
          t.toolAcc.insert (entryIndex entry) { call with fragment := call.fragment ++ entryFragment entry } := by
        simp [accumulateToolCall, hlookup, hfragment]
      rw [hgrows]
      exact h.insert (.inl hopen) hcall
  | none =>
    have hclosed : entryIndex entry ∉ t.toolAcc := AList.lookup_eq_none.mp hlookup
    have hplace := hcarried.resolve_left hclosed
    cases hopens : entryOpening entry with
    | some both =>
      obtain ⟨id, name⟩ := both
      rw [if_pos (by rw [hopens]; rfl)] at hplace
      have hinserts : (t.accumulateToolCall fromStr entry).2.toolAcc =
          t.toolAcc.insert (entryIndex entry) ⟨id, name, entryFragment entry⟩ := by
        simp [accumulateToolCall, hlookup, hopens]
      rw [hinserts]
      refine h.insert (.inr ?_) (openCall_of_opening hplace.1 hplace.2 hopens)
      unfold openCall
      rw [hplace.1]
      rfl
    | none =>
      rw [if_neg (by simp [hopens])] at hplace
      have hkeeps : (t.accumulateToolCall fromStr entry).2.toolAcc = t.toolAcc := by
        simp [accumulateToolCall, hlookup, hopens]
      rw [hkeeps]
      exact h.unread hplace

theorem entries_kept {emitted : List MessageContentBlock} (entries : List Value) :
    ∀ (seen : List Value) (t : ChatCompletionTranslator), CallsKept fromStr seen t.toolAcc emitted →
      EntriesCarried fromStr seen t entries →
      CallsKept fromStr (seen ++ entries) (t.accumulateToolCalls fromStr entries).2.toolAcc
          (emitted ++ (t.accumulateToolCalls fromStr entries).1.toList) ∧
        (t.accumulateToolCalls fromStr entries).2.pending = t.pending ∧
        ∀ block ∈ (t.accumulateToolCalls fromStr entries).1, isToolCall block = true := by
  induction entries with
  | nil =>
    intro seen t h _
    refine ⟨?_, rfl, fun _ h => nomatch h⟩
    rw [List.append_nil]
    show CallsKept fromStr seen t.toolAcc (emitted ++ [])
    rwa [List.append_nil]
  | cons entry entries ih =>
    intro seen t h hcarried
    unfold EntriesCarried at hcarried
    by_cases hcompletes : completes fromStr t entry = true
    · rw [if_pos hcompletes] at hcarried
      obtain ⟨call, hlookup, hfragment, hstep⟩ := accumulate_completes hcompletes
      have hentry : CallsKept fromStr (seen ++ [entry]) t.toolAcc emitted := by
        refine h.unread fun index => ?_
        by_cases heq : index = entryIndex entry
        · rw [heq, openCall_of_open (h.lookup _ _ hlookup), h.lookup _ _ hlookup, hfragment, String.append_empty]
        · exact openCall_other heq
      have hall := (hentry.complete hlookup).unread hcarried
      rw [List.append_assoc] at hall
      simp only [accumulateToolCalls, hstep]
      refine ⟨hall, trivial, fun block hblock => ?_⟩
      rw [← Option.some.inj hblock]
      rfl
    · have hcontinues : completes fromStr t entry = false := by simpa using hcompletes
      rw [if_neg hcompletes] at hcarried
      have hstep := accumulate_continues hcontinues
      have hrest := ih (seen ++ [entry]) _ (accumulate_kept h hcontinues hcarried.1) hcarried.2
      rw [List.append_assoc] at hrest
      simp only [accumulateToolCalls]
      rw [hstep] at hrest ⊢
      exact hrest

theorem flushIndex_frame (index : Nat) (t : ChatCompletionTranslator) :
    (t.flushIndex fromStr index).toolAcc = t.toolAcc.erase index ∧
      ((t.flushIndex fromStr index).pending = t.pending ∧ index ∉ t.toolAcc ∨
        ∃ call, t.toolAcc.lookup index = some call ∧
          (t.flushIndex fromStr index).pending = t.pending ++ [call.block fromStr]) := by
  unfold flushIndex
  cases hlookup : t.toolAcc.lookup index with
  | some call => exact ⟨rfl, .inr ⟨call, rfl, rfl⟩⟩
  | none =>
    have hclosed := AList.lookup_eq_none.mp hlookup
    refine ⟨AList.ext ?_, .inl ⟨rfl, hclosed⟩⟩
    exact (List.kerase_of_notMem_keys hclosed).symm

end Accumulator

/-! ## The invariant of the translator -/

/-- The blocks emitted and those pending lose nothing of the frames read, up to the calls that are still open. -/
structure Accounted (fromStr : String → Except String Value) (frames : List Value) (t : ChatCompletionTranslator)
    (blocks : List MessageContentBlock) : Prop where
  text : textOf (blocks ++ t.pending) = String.join (frames.map content)
  thinking : thinkingOf (blocks ++ t.pending) = String.join (frames.map reasoningContent)
  calls : CallsKept fromStr (frames.flatMap toolCalls) t.toolAcc (callsOf (blocks ++ t.pending))

namespace Accounted
variable {fromStr : String → Except String Value} {frames : List Value} {t : ChatCompletionTranslator}
  {blocks : List MessageContentBlock}

theorem new : Accounted fromStr [] ChatCompletionTranslator.new [] := ⟨rfl, rfl, CallsKept.empty⟩

theorem flushIndex (h : Accounted fromStr frames t blocks) (index : Nat) :
    Accounted fromStr frames (t.flushIndex fromStr index) blocks := by
  obtain ⟨hacc, ⟨hpending, hclosed⟩ | ⟨call, hlookup, hpending⟩⟩ := @flushIndex_frame fromStr index t
  · have hsame : t.toolAcc.erase index = t.toolAcc := AList.ext (List.kerase_of_notMem_keys hclosed)
    refine ⟨?_, ?_, ?_⟩ <;> rw [hpending]
    · exact h.text
    · exact h.thinking
    · rw [hacc, hsame]
      exact h.calls
  · refine ⟨?_, ?_, ?_⟩ <;> rw [hpending, ← List.append_assoc]
    · rw [textOf_append, h.text]
      exact String.append_empty
    · rw [thinkingOf_append, h.thinking]
      exact String.append_empty
    · rw [hacc, callsOf_append]
      exact h.calls.complete hlookup

theorem flushAccumulated (h : Accounted fromStr frames t blocks) :
    Accounted fromStr frames (t.flushAccumulated fromStr) blocks := by
  unfold ChatCompletionTranslator.flushAccumulated
  generalize t.toolAcc.keys.insertionSort (· ≤ ·) = indices
  induction indices generalizing t with
  | nil => exact h
  | cons index indices ih => exact ih (h.flushIndex index)

theorem frame {frame : Value} {next : ChatCompletionTranslator} {more : List MessageContentBlock}
    (h : Accounted fromStr frames t blocks)
    (htext : textOf (blocks ++ more ++ next.pending) = textOf (blocks ++ t.pending) ++ content frame)
    (hthinking : thinkingOf (blocks ++ more ++ next.pending) =
      thinkingOf (blocks ++ t.pending) ++ reasoningContent frame)
    (hcalls : CallsKept fromStr (frames.flatMap toolCalls ++ toolCalls frame) next.toolAcc
      (callsOf (blocks ++ more ++ next.pending))) :
    Accounted fromStr (frames ++ [frame]) next (blocks ++ more) := by
  refine ⟨?_, ?_, ?_⟩
  · rw [htext, h.text, List.map_append, String.join_append]
    simp
  · rw [hthinking, h.thinking, List.map_append, String.join_append]
    simp
  · rw [List.flatMap_append, List.flatMap_singleton]
    exact hcalls

end Accounted

theorem translateFrame_eq (fromStr : String → Except String Value) (t : ChatCompletionTranslator) (frame : Value) :
    t.translateFrame fromStr frame =
      if content frame ≠ "" then (some (.text (content frame)), t)
      else if reasoningContent frame ≠ "" then (some (.thinking (reasoningContent frame) none), t)
      else ((t.accumulateToolCalls fromStr (toolCalls frame)).1,
        if (t.accumulateToolCalls fromStr (toolCalls frame)).1.isNone && finishes frame then
          (t.accumulateToolCalls fromStr (toolCalls frame)).2.flushAccumulated fromStr
        else (t.accumulateToolCalls fromStr (toolCalls frame)).2) := by
  unfold translateFrame
  cases hchoice : choiceOf frame with
  | none =>
    simp [content, reasoningContent, toolCalls, deltaOf, finishes, hchoice, accumulateToolCalls]
  | some choice =>
    rw [if_neg (by simp)]
    cases haccumulated : t.accumulateToolCalls fromStr (toolCalls frame) with
    | mk block next => cases block <;> simp

/-- **One frame** whose step drops nothing keeps the account. -/
theorem translateFrame_accounted {fromStr : String → Except String Value} {frames : List Value}
    {t : ChatCompletionTranslator} {blocks : List MessageContentBlock} {frame : Value}
    (h : Accounted fromStr frames t blocks) (hpending : t.pending = [])
    (hcarried : FrameCarried fromStr (frames.flatMap toolCalls) t frame) :
    Accounted fromStr (frames ++ [frame]) (t.translateFrame fromStr frame).2
      (blocks ++ (t.translateFrame fromStr frame).1.toList) := by
  unfold FrameCarried at hcarried
  rw [if_neg (by simpa using hpending)] at hcarried
  rw [translateFrame_eq]
  by_cases hcontent : content frame = ""
  · rw [if_neg (by simpa using hcontent)] at hcarried ⊢
    by_cases hreasoning : reasoningContent frame = ""
    · rw [if_neg (by simpa using hreasoning)] at hcarried ⊢
      have hcalls := h.calls
      rw [hpending, List.append_nil] at hcalls
      obtain ⟨hkept, hsame, hblock⟩ := entries_kept (toolCalls frame) _ t hcalls hcarried
      have hread : Accounted fromStr (frames ++ [frame]) (t.accumulateToolCalls fromStr (toolCalls frame)).2
          (blocks ++ (t.accumulateToolCalls fromStr (toolCalls frame)).1.toList) := by
        -- the block, if any, is a call
        cases hfirst : (t.accumulateToolCalls fromStr (toolCalls frame)).1 with
        | none =>
          rw [hfirst] at hkept
          refine h.frame ?_ ?_ ?_ <;> rw [hsame, hpending]
          · simp [hcontent]
          · simp [hreasoning]
          · simpa using hkept
        | some block =>
          rw [hfirst] at hkept
          have hcall := hblock block hfirst
          have htext : textOf [block] = "" ∧ thinkingOf [block] = "" := by
            cases block with
            | toolCall id name arguments => exact ⟨rfl, rfl⟩
            | _ => exact absurd hcall Bool.false_ne_true
          refine h.frame ?_ ?_ ?_ <;> rw [hsame, hpending] <;>
            simp only [List.append_nil, Option.toList_some]
          · rw [textOf_append, htext.1, hcontent]
          · rw [thinkingOf_append, htext.2, hreasoning]
          · rw [callsOf_append]
            unfold callsOf at hkept ⊢
            rwa [List.filter_cons_of_pos hcall]
      by_cases hflush : ((t.accumulateToolCalls fromStr (toolCalls frame)).1.isNone && finishes frame) = true
      · rw [if_pos hflush]
        exact hread.flushAccumulated
      · rw [if_neg hflush]
        exact hread
    · rw [if_pos hreasoning] at hcarried ⊢
      refine h.frame ?_ ?_ ?_ <;> simp only [Option.toList_some, hpending, List.append_nil]
      · rw [textOf_append, hcontent]
        rfl
      · rw [thinkingOf_append]
        simp [thinkingOf]
      · have hcalls := h.calls.unread hcarried
        rw [hpending, List.append_nil] at hcalls
        rw [callsOf_append]
        simpa [callsOf, isToolCall] using hcalls
  · rw [if_pos hcontent] at hcarried ⊢
    refine h.frame ?_ ?_ ?_ <;> simp only [Option.toList_some, hpending, List.append_nil]
    · rw [textOf_append]
      simp [textOf]
    · rw [thinkingOf_append, hcarried.1]
      rfl
    · have hcalls := h.calls.unread hcarried.2
      rw [hpending, List.append_nil] at hcalls
      rw [callsOf_append]
      simpa [callsOf, isToolCall] using hcalls

end Cuca.OpenAiCompat
