import Mathlib.Data.List.Infix

/-!
# Chat formats

What a local model writes besides plain answer text, as the chat template and the vocabulary tell.

* `Reasoning`, `ToolSyntax`, `ChatFormat` : the conventions of a model;
* `detectReasoning`, `detectTools` : what the template teaches.
-/

namespace Cuca.Local

/-- A reasoning block between two markers; the header word behind the first is dropped. -/
structure Reasoning where
  opening : String
  closing : String
  header : Option String
  deriving DecidableEq, Repr

inductive ToolSyntax where
  | plain
  | gemma4 (opening closing : String)
  /-- Without a closing marker the call runs to the end of generation. -/
  | taggedJson (opening : String) (altOpening closing : Option String)
  | taggedXml (opening closing : String)
  | llamaJson (pythonTag : Option String)
  deriving DecidableEq, Repr

/-- `markerIds` are the ids of single-token markers. -/
structure ChatFormat where
  eog : List Nat
  reasoning : Option Reasoning
  tools : ToolSyntax
  markerIds : List Nat
  stripLeadingSpace : Bool

namespace ChatFormat

def isEog (f : ChatFormat) (id : Nat) : Bool := f.eog.contains id

def isMarker (f : ChatFormat) (id : Nat) : Bool := f.markerIds.contains id

end ChatFormat

/-! ## Detection -/

/-- `str::contains` -/
def contains (text part : String) : Bool := decide (part.toList <:+: text.toList)

section
variable (hasToken : String → Bool) (template : String)

def detectReasoning : Option Reasoning :=
  if contains template "<|channel>" && (hasToken "<|channel>" && hasToken "<channel|>") then
    some ⟨"<|channel>", "<channel|>", some "thought"⟩
  else if contains template "<think>" || contains template "</think>" then some ⟨"<think>", "</think>", none⟩
  else none

def detectTools : ToolSyntax :=
  if contains template "<|tool_call>" && hasToken "<|tool_call>" && hasToken "<tool_call|>" then
    .gemma4 "<|tool_call>" "<tool_call|>"
  else if contains template "<tool_call>" && contains template "</tool_call>" && contains template "<function=" &&
      contains template "<parameter=" then
    .taggedXml "<tool_call>" "</tool_call>"
  else if contains template "<tool_call>" then
    .taggedJson "<tool_call>" none (if contains template "</tool_call>" then some "</tool_call>" else none)
  else if contains template "<|tool_call|>" then
    .taggedJson "<|tool_call|>" (some "<tool_call>")
      (if contains template "<|/tool_call|>" then some "<|/tool_call|>" else none)
  else if contains template "tool_calls" && contains template "\"parameters\"" then
    .llamaJson (if hasToken "<|python_tag|>" then some "<|python_tag|>" else none)
  else .plain

def detectedReasonings : List (Option Reasoning) :=
  [none, some ⟨"<|channel>", "<channel|>", some "thought"⟩, some ⟨"<think>", "</think>", none⟩]

/-- What detection may find, apart from bare JSON. -/
def detectedTools : List ToolSyntax :=
  [.plain, .gemma4 "<|tool_call>" "<tool_call|>", .taggedXml "<tool_call>" "</tool_call>", .taggedJson "<tool_call>" none none,
    .taggedJson "<tool_call>" none (some "</tool_call>"), .taggedJson "<|tool_call|>" (some "<tool_call>") none,
    .taggedJson "<|tool_call|>" (some "<tool_call>") (some "<|/tool_call|>")]

theorem detectReasoning_mem : detectReasoning hasToken template ∈ detectedReasonings := by
  unfold detectReasoning detectedReasonings
  split
  · simp
  · split <;> simp

theorem detectTools_mem (h : ∀ pythonTag, detectTools hasToken template ≠ .llamaJson pythonTag) :
    detectTools hasToken template ∈ detectedTools := by
  revert h
  unfold detectTools detectedTools
  split
  · simp
  split
  · simp
  split
  · split <;> simp
  split
  · split <;> simp
  split
  · exact fun h => absurd rfl (h _)
  · simp

end

end Cuca.Local
