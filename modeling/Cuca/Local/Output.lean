import Cuca.Lib.Markers
import Cuca.Lib.Utf8
import Cuca.Local.ChatFormat
import Cuca.Sse.Parser

/-!
# The output parser

Generated tokens are turned into blocks: answer text, reasoning between its markers, and tool calls whose bodies are parsed when they
are complete. Markers are found in the text, so the end of a text that may still become one is held back, and so are bytes that are
not a whole character.

A text is its characters here.

* `Grammar` : the state of the grammar, with what routed text and markers do to it;
* `processHold`, `drainPending` : text and bytes that are held back;
* `OutputParser.push`, `OutputParser.finish` : a token, and the end of generation.
-/

namespace Cuca.Local
open Markers Sse

abbrev Item := Except CucaError MessageContentBlock

inductive Action where
  | openReasoning
  | closeReasoning
  | strayClose
  | openTool
  | closeTool
  | openPython
  deriving DecidableEq, Repr

structure Marker where
  text : List Char
  action : Action
  deriving DecidableEq, Repr

def marker (text : String) (action : Action) : Marker := ⟨text.toList, action⟩

/-- The markers to look for in answer text, in a reasoning block and in a tool-call body. -/
structure MarkerTable where
  content : List Marker
  thinking : List Marker
  tool : List Marker

/-! ## Bare JSON -/

structure JsonCapture where
  text : List Char
  depth : Nat
  inString : Bool
  escaped : Bool

namespace JsonCapture

def empty : JsonCapture := ⟨[], 0, false, false⟩

/-- Takes characters up to the brace that closes the object; with the rest, and whether the object closed. -/
def advance (capture : JsonCapture) : List Char → JsonCapture × List Char × Bool
  | [] => (capture, [], false)
  | c :: text =>
    let capture := { capture with text := capture.text ++ [c] }
    if capture.inString then
      if capture.escaped then advance { capture with escaped := false } text
      else if c = '\\' then advance { capture with escaped := true } text
      else if c = '"' then advance { capture with inString := false } text
      else advance capture text
    else if c = '"' then advance { capture with inString := true } text
    else if c = '\x7b' then advance { capture with depth := capture.depth + 1 } text
    else if c = '\x7d' then
      let capture := { capture with depth := capture.depth - 1 }
      if capture.depth = 0 then (capture, text, true) else advance capture text
    else advance capture text

end JsonCapture

/-! ## The grammar -/

inductive State where
  | content
  /-- Behind an opening marker with a header word. -/
  | header (text : List Char)
  | thinking
  | toolCall (body : List Char)
  | pythonTag (body : List Char)
  | jsonCall (capture : JsonCapture)

/-- The part of the parser that text and markers are routed to; `callIds` counts the ids that calls were given. -/
structure Grammar where
  format : ChatFormat
  markers : MarkerTable
  headerWord : List Char
  state : State
  trimLeadingWs : Bool
  stripOneSpace : Bool
  jsonCallWindow : Bool
  callIds : Nat

/-- The parsers of tool-call bodies. -/
structure CallParsers where
  parseToolCall : String → Except String (String × Value)
  parseXmlCall : String → Except String (String × Value)
  parseJsonCalls : String → Bool → Except String (List (String × Value))

def ToolSyntax.isLlamaJson : ToolSyntax → Bool
  | .llamaJson _ => true
  | _ => false

def headerSpaces : List Char := [' ', '\t', '\n']

def textBlock (text : List Char) : List Item := if text.isEmpty then [] else [.ok (.text (String.ofList text))]

namespace Grammar

def markersOf (format : ChatFormat) : MarkerTable :=
  let reasoning (f : Reasoning → List Marker) := (format.reasoning.map f).getD []
  let (openers, closers, python) : List Marker × List Marker × List Marker :=
    match format.tools with
    | .plain => ([], [], [])
    | .gemma4 opening closing | .taggedXml opening closing => ([marker opening .openTool], [marker closing .closeTool], [])
    | .taggedJson opening altOpening closing =>
      ((opening :: altOpening.toList).map (marker · .openTool), closing.toList.map (marker · .closeTool), [])
    | .llamaJson pythonTag => ([], [], pythonTag.toList.map (marker · .openPython))
  { content := reasoning (fun r => [marker r.opening .openReasoning, marker r.closing .strayClose]) ++ openers ++ python
    thinking := reasoning (fun r => [marker r.closing .closeReasoning]) ++ openers
    tool := closers }

def new (format : ChatFormat) (startInThinking : Bool) : Grammar :=
  let thinking := startInThinking && format.reasoning.isSome
  { format := format
    markers := markersOf format
    headerWord := ((format.reasoning.bind Reasoning.header).getD "").toList
    state := if thinking then .thinking else .content
    trimLeadingWs := thinking
    stripOneSpace := format.stripLeadingSpace
    jsonCallWindow := format.tools.isLlamaJson && !thinking
    callIds := 0 }

def inReasoning (g : Grammar) : Bool :=
  match g.state with
  | .header _ | .thinking => true
  | _ => false

def activeMarkers (g : Grammar) : List Marker :=
  match g.state with
  | .content => g.markers.content
  | .header _ | .thinking => g.markers.thinking
  | .toolCall _ => g.markers.tool
  | .pythonTag _ | .jsonCall _ => []

/-- The one-shot trims; nothing may be left. -/
def trimPrefix (g : Grammar) (text : List Char) : Grammar × List Char :=
  if text.isEmpty then (g, [])
  else
    let text := if g.stripOneSpace && text.head? = some ' ' then text.tail else text
    let g := { g with stripOneSpace := false }
    if g.trimLeadingWs then
      let trimmed := text.dropWhile isWhitespace
      if trimmed.isEmpty then (g, []) else ({ g with trimLeadingWs := false }, trimmed)
    else (g, text)

section
variable (parse : CallParsers) (nextCallId : Nat → String)

def emitCalls (g : Grammar) (calls : List (String × Value)) : Grammar × List Item :=
  ({ g with callIds := g.callIds + calls.length },
    calls.mapIdx fun i call => .ok (.toolCall (nextCallId (g.callIds + i)) call.1 call.2))

/-- A bare JSON candidate that closed: calls, or text after all. -/
def completeJson (g : Grammar) (text : List Char) : Grammar × List Item :=
  match parse.parseJsonCalls (String.ofList text) true with
  | .ok calls =>
    let (g, items) := emitCalls nextCallId g calls
    ({ g with trimLeadingWs := true }, items)
  | .error _ => (g, textBlock text)

/-- Answer text where no bare JSON call may start. -/
def emitText (g : Grammar) (text : List Char) : Grammar × List Item :=
  let (g, text) := g.trimPrefix text
  (g, textBlock text)

def emitContent (g : Grammar) (text : List Char) : Grammar × List Item :=
  if g.jsonCallWindow then
    let (g, text) := g.trimPrefix text
    let trimmed := text.dropWhile isWhitespace
    if trimmed.isEmpty then (g, [])
    else
      let g := { g with jsonCallWindow := false }
      if trimmed.head? = some '\x7b' then
        let (capture, rest, complete) := JsonCapture.empty.advance trimmed
        if complete then
          let (g, calls) := completeJson parse nextCallId g capture.text
          let (g, items) := g.emitText rest
          (g, calls ++ items)
        else ({ g with state := .jsonCall capture }, [])
      else (g, textBlock text)
  else g.emitText text

def emitThinking (g : Grammar) (text : List Char) : Grammar × List Item :=
  let (g, text) := g.trimPrefix text
  (g, if text.isEmpty then [] else [.ok (.thinking (String.ofList text) none)])

/-- A header that is complete, or is taken as it is: what is behind the word, or all of it, is reasoning text. -/
def resolveHeader (g : Grammar) (force : Bool) : Grammar × List Item :=
  match g.state with
  | .header header =>
    if g.headerWord.isPrefixOf header then
      let trimmed := (header.drop g.headerWord.length).dropWhile headerSpaces.contains
      if trimmed.isEmpty && !force then (g, []) else { g with state := .thinking }.emitThinking trimmed
    else if !force && header.isPrefixOf g.headerWord then (g, [])
    else { g with state := .thinking }.emitThinking header
  | _ => (g, [])

def malformed (body : List Char) : CucaError :=
  let body := String.ofList body
  .provider .localModel s!"malformed tool call: {body}"

def finishToolCall (g : Grammar) (body : List Char) : Grammar × List Item :=
  let g := { g with trimLeadingWs := true }
  let parsed : Except String (List (String × Value)) :=
    match g.format.tools with
    | .gemma4 _ _ => (parse.parseToolCall (String.ofList body)).map fun call => [call]
    | .taggedXml _ _ => (parse.parseXmlCall (String.ofList body)).map fun call => [call]
    | _ => parse.parseJsonCalls (String.ofList body) false
  match parsed with
  | .ok calls => emitCalls nextCallId g calls
  | .error _ => (g, [.error (malformed body)])

/-- `PYTHON_TOOL` -/
def pythonTool : String := "python"

def finishPython (g : Grammar) (body : List Char) : Grammar × List Item :=
  let code := trim (String.ofList body)
  if code.isEmpty then (g, [])
  else
    match parse.parseJsonCalls (String.ofList body) true with
    | .ok calls => emitCalls nextCallId g calls
    | .error _ => emitCalls nextCallId g [(pythonTool, .object [("code", .string (String.ofList code))])]

/-- Text without markers. -/
def route (g : Grammar) (text : List Char) : Grammar × List Item :=
  if text.isEmpty then (g, [])
  else
    match g.state with
    | .content => g.emitContent parse nextCallId text
    | .thinking => g.emitThinking text
    | .header header => { g with state := .header (header ++ text) }.resolveHeader false
    | .toolCall body => ({ g with state := .toolCall (body ++ text) }, [])
    | .pythonTag body => ({ g with state := .pythonTag (body ++ text) }, [])
    | .jsonCall capture => ({ g with state := .jsonCall { capture with text := capture.text ++ text } }, [])

/-- A marker. -/
def apply (g : Grammar) (action : Action) : Grammar × List Item :=
  let (g, first) : Grammar × List Item :=
    match g.state with
    | .jsonCall capture => ({ g with state := .content }, textBlock capture.text)
    | _ => (g, [])
  match action with
  | .openReasoning =>
    ({ g with trimLeadingWs := true, state := if g.headerWord.isEmpty then .thinking else .header [] }, first)
  | .closeReasoning =>
    let (g, items) := g.resolveHeader true
    ({ g with state := .content, trimLeadingWs := true, jsonCallWindow := g.format.tools.isLlamaJson }, first ++ items)
  | .strayClose => (g, first)
  | .openTool =>
    let (g, items) := g.resolveHeader true
    ({ g with state := .toolCall [] }, first ++ items)
  | .closeTool =>
    match g.state with
    | .toolCall body =>
      let (g, items) := { g with state := .content }.finishToolCall parse nextCallId body
      (g, first ++ items)
    | _ => ({ g with state := .content }, first)
  | .openPython => ({ g with state := .pythonTag [] }, first)

/-- The end of generation, with text that was held back. -/
def finish (g : Grammar) (held : List Char) : Grammar × List Item :=
  match g.state with
  | .content => g.emitContent parse nextCallId held
  | .thinking => g.emitThinking held
  | .header header => { g with state := .header (header ++ held) }.resolveHeader true
  | .toolCall body => { g with state := .content }.finishToolCall parse nextCallId (body ++ held)
  | .pythonTag body => { g with state := .content }.finishPython parse nextCallId (body ++ held)
  | .jsonCall capture => ({ g with state := .content }, textBlock (capture.text ++ held))

end

end Grammar

/-! ## What is held back -/

section
variable (parse : CallParsers) (nextCallId : Nat → String)

/-- Routes all that cannot be part of a marker. No marker is empty and no candidate closes without a brace, so each round leaves less;
the tests of the lengths only say so. -/
def processHold (g : Grammar) (hold : List Char) : Grammar × List Char × List Item :=
  match g.state with
  | .jsonCall capture =>
    let (capture, rest, complete) := capture.advance hold
    if complete then
      let (g, items) := { g with state := .content }.completeJson parse nextCallId capture.text
      if rest.length < hold.length ∧ rest ≠ [] then
        let (g, hold, more) := processHold g rest
        (g, hold, items ++ more)
      else (g, rest, items)
    else ({ g with state := .jsonCall capture }, rest, [])
  | _ =>
    match earliest Marker.text g.activeMarkers hold with
    | some (pos, found) =>
      let (g, before) := g.route parse nextCallId (hold.take pos)
      let (g, applied) := g.apply parse nextCallId found.action
      let rest := hold.drop (pos + found.text.length)
      if rest.length < hold.length then
        let (g, hold, more) := processHold g rest
        (g, hold, before ++ applied ++ more)
      else (g, rest, before ++ applied)
    | none =>
      let ready := hold.length - partialSuffix Marker.text g.activeMarkers hold
      let (g, items) := g.route parse nextCallId (hold.take ready)
      (g, hold.drop ready, items)
termination_by hold.length
decreasing_by
  · exact And.left (by assumption)
  · assumption

def feedText (g : Grammar) (hold text : List Char) : Grammar × List Char × List Item := processHold parse nextCallId g (hold ++ text)

/-- Routes all characters that are complete; with what is held back, and the bytes that are left. -/
def drainPending (g : Grammar) (hold : List Char) (pending : List UInt8) : Grammar × List Char × List UInt8 × List Item :=
  let (text, rest) := Utf8.valid pending
  let (g, hold, items) := if text.isEmpty then (g, hold, []) else feedText parse nextCallId g hold text
  match Utf8.next rest with
  | .invalid n =>
    let (g, hold, marked) := feedText parse nextCallId g hold [Utf8.replacement]
    if (rest.drop n).length < pending.length then
      let (g, hold, pending, more) := drainPending g hold (rest.drop n)
      (g, hold, pending, items ++ marked ++ more)
    else (g, hold, rest.drop n, items ++ marked)
  | _ => (g, hold, rest, items)
termination_by pending.length
decreasing_by assumption

end

/-! ## The parser -/

/-- What the tokenizer knows of a token. -/
structure Spellings where
  tokenText : Nat → String
  decode : Nat → List UInt8
  isControl : Nat → Bool

structure OutputParser extends Grammar where
  pending : List UInt8
  hold : List Char
  reasoningTokens : Nat

namespace OutputParser

def new (format : ChatFormat) (startInThinking : Bool) : OutputParser := ⟨Grammar.new format startInThinking, [], [], 0⟩

section
variable (parse : CallParsers) (nextCallId : Nat → String)

def drain (p : OutputParser) : OutputParser × List Item :=
  let (g, hold, pending, items) := drainPending parse nextCallId p.toGrammar p.hold p.pending
  (⟨g, pending, hold, p.reasoningTokens⟩, items)

/-- Routes every byte, those of a character that is not complete as lossy text. -/
def flushPending (p : OutputParser) : OutputParser × List Item :=
  let (p, items) := p.drain parse nextCallId
  if p.pending.isEmpty then (p, items)
  else
    let (g, hold, more) := feedText parse nextCallId p.toGrammar p.hold (Utf8.lossy p.pending)
    (⟨g, [], hold, p.reasoningTokens⟩, items ++ more)

/-- One generated token. -/
def push (spell : Spellings) (p : OutputParser) (id : Nat) : OutputParser × List Item :=
  let wasReasoning := p.inReasoning
  let (p, items) : OutputParser × List Item :=
    if p.format.isMarker id then
      let (p, flushed) := p.flushPending parse nextCallId
      let (g, hold, items) := feedText parse nextCallId p.toGrammar p.hold (spell.tokenText id).toList
      (⟨g, p.pending, hold, p.reasoningTokens⟩, flushed ++ items)
    else
      let pending := p.pending ++ spell.decode id
      -- control tokens decode to nothing but are part of the text of a call
      let inCall := match p.state with
        | .toolCall _ => true
        | _ => false
      let pending := if (spell.decode id).isEmpty && spell.isControl id && inCall then
          pending ++ (spell.tokenText id).toUTF8.data.toList
        else pending
      { p with pending := pending }.drain parse nextCallId
  ({ p with reasoningTokens :=
      if wasReasoning || p.inReasoning then min (p.reasoningTokens + 1) (2 ^ 32 - 1) else p.reasoningTokens }, items)

/-- The end of generation. -/
def finish (p : OutputParser) : OutputParser × List Item :=
  let (p, flushed) := p.flushPending parse nextCallId
  let (g, items) := p.toGrammar.finish parse nextCallId p.hold
  (⟨g, p.pending, [], p.reasoningTokens⟩, flushed ++ items)

def pushAll (spell : Spellings) (p : OutputParser) : List Nat → OutputParser × List Item
  | [] => (p, [])
  | id :: ids =>
    let (p, items) := p.push parse nextCallId spell id
    let (p, more) := pushAll spell p ids
    (p, items ++ more)

end

end OutputParser

end Cuca.Local
