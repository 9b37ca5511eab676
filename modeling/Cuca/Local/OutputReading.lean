import Cuca.Local.OutputTokens
import Mathlib.Data.List.TakeWhile

/-!
# An output in pieces

The text of the syntaxes other than bare JSON comes in pieces. What is held back of it stands for what is not decided.

* `wholeText` : the grammar on all the text at once;
* `Settled` : no marker is held back;
* `processHold_sound` : text in pieces;
* `tagged_divides` : so tokens may cut the text anywhere;
* `Part` : a piece or a marker, with all of its text;
* `Reader` : where in the output a piece stands, and which of the trims are still to be made;
* `parts`, `emitParts` : the parts of a text, and the blocks they are;
* `reads`, `wholeText_eq` : the grammar emits the blocks of the parts;
* `output_eq` : the parser emits them, whatever tokens the text comes in.
-/

namespace Cuca.Local
open Markers

section
variable (parse : CallParsers) (nextCallId : Nat → String)

/-- What the grammar emits for a text that is all there: each marker of the state is looked for in all of the rest. -/
def wholeText (g : Grammar) (text : List Char) : List Item :=
  match earliest Marker.text g.activeMarkers text with
  | some (pos, found) =>
    let (g, before) := g.route parse nextCallId (text.take pos)
    let (g, applied) := g.apply parse nextCallId found.action
    let rest := text.drop (pos + found.text.length)
    if rest.length < text.length then before ++ applied ++ wholeText g rest else before ++ applied
  | none => (g.finish parse nextCallId text).2
termination_by text.length
decreasing_by assumption

variable {g : Grammar} {text : List Char}

theorem wholeText_some (h : Tagged g) {pos : Nat} {found : Marker}
    (hfound : earliest Marker.text g.activeMarkers text = some (pos, found)) :
    wholeText parse nextCallId g text = (upTo parse nextCallId g text pos found).2 ++
      wholeText parse nextCallId (upTo parse nextCallId g text pos found).1 (text.drop (pos + found.text.length)) := by
  rw [wholeText, hfound]
  dsimp only
  rw [if_pos (rest_shorter h.separated hfound)]
  rfl

theorem wholeText_none (hfound : earliest Marker.text g.activeMarkers text = none) :
    wholeText parse nextCallId g text = (g.finish parse nextCallId text).2 := by
  rw [wholeText, hfound]

theorem upTo_tagged (h : Tagged g) {pos : Nat} {found : Marker} (hfound : earliest Marker.text g.activeMarkers text = some (pos, found)) :
    Tagged (upTo parse nextCallId g text pos found).1 ∧ Frame g (upTo parse nextCallId g text pos found).1 := by
  have hmem := (earliest_some hfound).1
  obtain ⟨htagged, hframe, -⟩ := route_tagged parse nextCallId h (text.take pos)
  suffices haction : found.action ≠ .openPython from
    (apply_tagged parse nextCallId htagged haction).imp id hframe.trans
  apply h.actions found
  unfold Grammar.activeMarkers at hmem
  split at hmem
  · exact List.mem_append_left _ (List.mem_append_left _ hmem)
  · exact List.mem_append_left _ (List.mem_append_right _ hmem)
  · exact List.mem_append_left _ (List.mem_append_right _ hmem)
  · exact List.mem_append_right _ hmem
  · exact nomatch hmem
  · exact nomatch hmem

/-! ## Text that is held back -/

/-- Nothing that is held back holds a marker. -/
structure Settled (g : Grammar) (hold : List Char) : Prop where
  tagged : Tagged g
  unmarked : earliest Marker.text g.activeMarkers hold = none

theorem wholeText_route (h : Tagged g) (ready later : List Char)
    (hmarker : earliest Marker.text g.activeMarkers (ready ++ later) =
      (earliest Marker.text g.activeMarkers later).map fun hit => (hit.1 + ready.length, hit.2)) :
    Same (wholeText parse nextCallId g (ready ++ later))
      ((g.route parse nextCallId ready).2 ++ wholeText parse nextCallId (g.route parse nextCallId ready).1 later) := by
  obtain ⟨htagged, -, hactive⟩ := route_tagged parse nextCallId h ready
  rcases hfound : earliest Marker.text g.activeMarkers later with _ | ⟨pos, found⟩
  · rw [hfound] at hmarker
    rw [wholeText_none _ _ hmarker, wholeText_none _ _ (hactive ▸ hfound)]
    exact finish_append parse nextCallId h.plain ready later
  · rw [hfound] at hmarker
    obtain ⟨hgrammar, hitems⟩ := route_append parse nextCallId h.plain ready (later.take pos)
    obtain ⟨hupTo, hbefore⟩ := upTo_route parse nextCallId found hgrammar hitems
    rw [wholeText_some _ _ h hmarker, wholeText_some _ _ htagged (hactive ▸ hfound), drop_seam, hupTo, ← List.append_assoc]
    exact hbefore.append .rfl

/-- **Text that is held back** stands for what is not decided: what comes later sees nothing else of what was there. -/
theorem processHold_sound (h : Tagged g) (hold : List Char) :
    let (g', hold', items) := processHold parse nextCallId g hold
    Settled g' hold' ∧ Frame g g' ∧
      ∀ more, Same (wholeText parse nextCallId g (hold ++ more)) (items ++ wholeText parse nextCallId g' (hold' ++ more)) := by
  induction hlength : hold.length using Nat.strongRecOn generalizing g hold with
  | ind n ih =>
    rcases hfound : earliest Marker.text g.activeMarkers hold with _ | ⟨pos, found⟩
    · rw [processHold_none _ _ h.json hfound]
      have hkept (more : List Char) := earliest_kept h.separated hfound more
      generalize hready : hold.length - partialSuffix Marker.text g.activeMarkers hold = ready at hkept ⊢
      obtain ⟨htagged, hframe, hactive⟩ := route_tagged parse nextCallId h (hold.take ready)
      refine ⟨⟨htagged, ?_⟩, hframe, fun more => ?_⟩
      · rw [hactive]
        exact earliest_drop_eq_none hfound ready
      · have hall : hold.take ready ++ (hold.drop ready ++ more) = hold ++ more := by
          rw [← List.append_assoc, List.take_append_drop]
        have hlen : (hold.take ready).length = ready := by
          rw [List.length_take]
          omega
        rw [← hall]
        apply wholeText_route parse nextCallId h
        rw [hall, hlen]
        exact hkept more
    · have hshorter := rest_shorter h.separated hfound
      obtain ⟨htagged, hframe⟩ := upTo_tagged parse nextCallId h hfound
      obtain ⟨hsettled, hrest, hsame⟩ := ih _ (hlength ▸ hshorter) htagged _ rfl
      rw [processHold_some _ _ h.separated h.json hfound]
      refine ⟨hsettled, hframe.trans hrest, fun more => ?_⟩
      have hle := (earliest_some hfound).2.1.length_le
      have hupTo : upTo parse nextCallId g (hold ++ more) pos found = upTo parse nextCallId g hold pos found := by
        unfold upTo
        rw [List.take_append_of_le_length (by omega)]
      rw [wholeText_some _ _ h (earliest_append h.separated hfound more), hupTo, List.drop_append_of_le_length hle, List.append_assoc]
      exact Same.append .rfl (hsame more)

theorem wholeText_settled {hold : List Char} (h : Settled g hold) :
    wholeText parse nextCallId g hold = (g.finish parse nextCallId hold).2 := wholeText_none _ _ h.unmarked

/-- **The syntaxes other than bare JSON** read text in any pieces. -/
theorem tagged_divides (format : ChatFormat) :
    Divides parse nextCallId format (wholeText parse nextCallId) fun g hold _ => Settled g hold ∧ g.format = format where
  format h := h.2
  feed {g hold text more} h := by
    obtain ⟨hsettled, hframe, hsame⟩ := processHold_sound parse nextCallId h.1.tagged (hold ++ text)
    refine ⟨⟨hsettled, hframe.format.trans h.2⟩, ?_⟩
    rw [← List.append_assoc]
    exact hsame more
  finish h := by
    rw [wholeText_settled _ _ h.1]
    exact .rfl

end

/-! ## The reading of an output

All the text of an output is read as its parts: it is cut at the leftmost marker, the longest at its place, of those that mean something
there, and each piece between two markers is answer text, reasoning, or the body of a tool call.
-/

open Sse

/-- Answer text and reasoning with what the trims dropped from it, and reasoning with its header. -/
inductive Part where
  | answer (dropped shown : List Char)
  | thought (header dropped shown : List Char)
  | call (body : List Char)
  | mark (marker : Marker)
  deriving DecidableEq, Repr

namespace Part

def source : Part → List Char
  | answer dropped shown => dropped ++ shown
  | thought header dropped shown => header ++ dropped ++ shown
  | call body => body
  | mark marker => marker.text

/-- What the trims dropped. -/
def dropped : Part → List Char
  | answer dropped _ => dropped
  | thought _ dropped _ => dropped
  | _ => []

end Part

inductive Mode where
  | answer
  /-- `headed` where a header may stand first. -/
  | reasoning (headed : Bool)
  | call
  deriving DecidableEq, Repr

structure Reader where
  mode : Mode
  trim : Bool
  strip : Bool

namespace Reader

def start (format : ChatFormat) (startInThinking : Bool) : Reader :=
  let thinking := startInThinking && format.reasoning.isSome
  ⟨if thinking then .reasoning false else .answer, thinking, format.stripLeadingSpace⟩

/-- The markers that mean something here. -/
def markers (table : MarkerTable) (r : Reader) : List Marker :=
  match r.mode with
  | .answer => table.content
  | .reasoning _ => table.thinking
  | .call => table.tool

/-- What the trims drop and what they leave: once one space, and whitespace up to the first other character. -/
def trims (r : Reader) (text : List Char) : List Char × List Char × Reader :=
  if text.isEmpty then ([], [], r)
  else
    let space := if r.strip && text.head? = some ' ' then [' '] else []
    let rest := text.drop space.length
    let blank := if r.trim then rest.takeWhile isWhitespace else []
    let shown := rest.drop blank.length
    (space ++ blank, shown, { r with trim := r.trim && shown.isEmpty, strip := false })

def header (word : List Char) (headed : Bool) (text : List Char) : List Char :=
  if headed && word.isPrefixOf text then word ++ (text.drop word.length).takeWhile headerSpaces.contains else []

/-- The piece that a text without markers is here. -/
def read (word : List Char) (r : Reader) (text : List Char) : Part × Reader :=
  match r.mode with
  | .answer =>
    let (dropped, shown, r) := r.trims text
    (.answer dropped shown, r)
  | .reasoning headed =>
    let header := header word headed text
    let (dropped, shown, r) := r.trims (text.drop header.length)
    (.thought header dropped shown, r)
  | .call => (.call text, r)

/-- Behind a marker. -/
def pass (word : List Char) (r : Reader) : Action → Reader
  | .openReasoning => { r with mode := .reasoning !word.isEmpty, trim := true }
  | .closeReasoning | .closeTool => { r with mode := .answer, trim := true }
  | .openTool => { r with mode := .call }
  | .strayClose | .openPython => r

end Reader

def headerWordOf (format : ChatFormat) : List Char := ((format.reasoning.bind Reasoning.header).getD "").toList

/-- The parts of a text. No marker is empty; the test of the lengths only says so. -/
def parts (format : ChatFormat) (r : Reader) (text : List Char) : List Part :=
  match earliest Marker.text (r.markers (Grammar.markersOf format)) text with
  | some (pos, found) =>
    let (part, r) := r.read (headerWordOf format) (text.take pos)
    let rest := text.drop (pos + found.text.length)
    part :: .mark found :: if rest.length < text.length then parts format (r.pass (headerWordOf format) found.action) rest else []
  | none => [(r.read (headerWordOf format) text).1]
termination_by text.length
decreasing_by assumption

section
variable (parse : CallParsers) (nextCallId : Nat → String)

/-- The calls in the body of a tool call. -/
def parseBody (tools : ToolSyntax) (body : List Char) : Except String (List (String × Value)) :=
  match tools with
  | .gemma4 _ _ => (parse.parseToolCall (String.ofList body)).map fun call => [call]
  | .taggedXml _ _ => (parse.parseXmlCall (String.ofList body)).map fun call => [call]
  | _ => parse.parseJsonCalls (String.ofList body) false

/-- The blocks of a part, and the count of ids that calls were given. -/
def emitPart (tools : ToolSyntax) (callIds : Nat) : Part → List Item × Nat
  | .answer _ shown => (textBlock shown, callIds)
  | .thought _ _ shown => (thinkingBlock shown, callIds)
  | .call body =>
    match parseBody parse tools body with
    | .ok calls => (calls.mapIdx fun i call => .ok (.toolCall (nextCallId (callIds + i)) call.1 call.2), callIds + calls.length)
    | .error _ => ([.error (Grammar.malformed body)], callIds)
  | .mark _ => ([], callIds)

def emitParts (tools : ToolSyntax) (callIds : Nat) : List Part → List Item
  | [] => []
  | part :: parts =>
    (emitPart parse nextCallId tools callIds part).1 ++ emitParts tools (emitPart parse nextCallId tools callIds part).2 parts

end

/-! ## No character is lost -/

theorem drop_takeWhile (p : Char → Bool) (text : List Char) : text.drop (text.takeWhile p).length = text.dropWhile p := by
  calc text.drop (text.takeWhile p).length = (text.takeWhile p ++ text.dropWhile p).drop (text.takeWhile p).length := by
        rw [List.takeWhile_append_dropWhile]
    _ = text.dropWhile p := List.drop_left

section
variable (r : Reader) (text : List Char)

theorem trims_source : (r.trims text).1 ++ (r.trims text).2.1 = text := by
  unfold Reader.trims
  split
  · rename_i hempty
    rw [List.isEmpty_iff.mp hempty]
    rfl
  · dsimp only
    have hspace : ∀ space rest : List Char, space ++ rest = text →
        (space ++ if r.trim then rest.takeWhile isWhitespace else []) ++
          rest.drop (if r.trim then rest.takeWhile isWhitespace else []).length = text := by
      rintro space rest rfl
      split
      · rw [List.append_assoc, drop_takeWhile, List.takeWhile_append_dropWhile]
      · rw [List.append_nil]
        rfl
    apply hspace
    split
    · rename_i hstrip
      rcases text with _ | ⟨c, text⟩
      · rw [Bool.and_eq_true] at hstrip
        exact nomatch of_decide_eq_true hstrip.2
      · rw [Bool.and_eq_true] at hstrip
        obtain rfl := Option.some.inj (of_decide_eq_true hstrip.2)
        rfl
    · rfl

theorem trims_dropped : ∀ c ∈ (r.trims text).1, isWhitespace c = true := by
  unfold Reader.trims
  split
  · exact nofun
  · dsimp only
    intro c hc
    rcases List.mem_append.mp hc with hspace | hblank
    · split at hspace
      · obtain rfl := List.mem_singleton.mp hspace
        rfl
      · exact nomatch hspace
    · split at hblank
      · exact List.mem_takeWhile_imp hblank
      · exact nomatch hblank

theorem header_prefix (word : List Char) (headed : Bool) : Reader.header word headed text <+: text := by
  unfold Reader.header
  split
  · rename_i hword
    rw [Bool.and_eq_true] at hword
    obtain ⟨rest, rfl⟩ := List.isPrefixOf_iff_prefix.mp hword.2
    rw [List.drop_left, List.prefix_append_right_inj]
    exact List.takeWhile_prefix _
  · exact List.nil_prefix

theorem read_source (word : List Char) : (r.read word text).1.source = text := by
  unfold Reader.read
  split
  · exact trims_source r text
  · rename_i headed _
    show _ ++ (r.trims _).1 ++ (r.trims _).2.1 = text
    rw [List.append_assoc, trims_source, ← List.prefix_iff_eq_append]
    exact header_prefix text word headed
  · rfl

theorem read_dropped (word : List Char) : ∀ c ∈ (r.read word text).1.dropped, isWhitespace c = true := by
  unfold Reader.read
  split
  · exact trims_dropped r text
  · exact trims_dropped r _
  · exact nofun

end

/-! ## The markers of a format -/

theorem markersOf_actions (format : ChatFormat) (h : format.tools.isLlamaJson = false) :
    (∀ m ∈ (Grammar.markersOf format).content, m.action = .openReasoning ∨ m.action = .strayClose ∨ m.action = .openTool) ∧
      (∀ m ∈ (Grammar.markersOf format).thinking, m.action = .closeReasoning ∨ m.action = .openTool) ∧
      ∀ m ∈ (Grammar.markersOf format).tool, m.action = .closeTool := by
  obtain ⟨eog, reasoning, tools, markerIds, strip⟩ := format
  refine ⟨fun m hm => ?_, fun m hm => ?_, fun m hm => ?_⟩
  all_goals
    cases tools with
    | llamaJson => exact nomatch h
    | _ => cases reasoning <;> simp [Grammar.markersOf, marker] at hm <;> aesop

/-- A format that detection builds, of the syntaxes other than bare JSON. -/
structure Detected (format : ChatFormat) : Prop where
  tools : format.tools.isLlamaJson = false
  detected : ∃ hasToken template, format.reasoning = detectReasoning hasToken template ∧ format.tools = detectTools hasToken template

instance (markers : List Marker) : Decidable (Separated Marker.text markers) :=
  decidable_of_iff ((∀ m ∈ markers, m.text ≠ []) ∧ ∀ m ∈ markers, ∀ m' ∈ markers, m.text <:+: m'.text → m = m')
    ⟨fun h => ⟨h.1, h.2⟩, fun h => ⟨h.nonempty, h.apart⟩⟩

theorem separated_of_detected : ∀ reasoning ∈ detectedReasonings, ∀ tools ∈ detectedTools,
    let table := Grammar.markersOf ⟨[], reasoning, tools, [], false⟩
    Separated Marker.text table.content ∧ Separated Marker.text table.thinking ∧ Separated Marker.text table.tool := by
  decide +kernel

theorem Detected.separated {format : ChatFormat} (h : Detected format) :
    Separated Marker.text (Grammar.markersOf format).content ∧ Separated Marker.text (Grammar.markersOf format).thinking ∧
      Separated Marker.text (Grammar.markersOf format).tool := by
  obtain ⟨htools, hasToken, template, hreasoning, hdetected⟩ := h
  refine separated_of_detected format.reasoning ?_ format.tools ?_
  · rw [hreasoning]
    exact detectReasoning_mem hasToken template
  · rw [hdetected]
    refine detectTools_mem hasToken template fun pythonTag hllama => ?_
    rw [hdetected, hllama] at htools
    exact nomatch htools

/-! ## The grammar reads the parts -/

/-- The state of the grammar at the beginning of a piece. -/
def Mode.state : Mode → State
  | .answer => .content
  | .reasoning true => .header []
  | .reasoning false => .thinking
  | .call => .toolCall []

/-- The grammar stands where the reader stands. -/
structure Stands (format : ChatFormat) (g : Grammar) (r : Reader) : Prop where
  ofFormat : g.format = format ∧ g.markers = Grammar.markersOf format ∧ g.headerWord = headerWordOf format
  state : g.state = r.mode.state
  trim : g.trimLeadingWs = r.trim
  strip : g.stripOneSpace = r.strip

section
variable (parse : CallParsers) (nextCallId : Nat → String) {format : ChatFormat} {g : Grammar} {r : Reader}

theorem Stands.activeMarkers (h : Stands format g r) : g.activeMarkers = r.markers (Grammar.markersOf format) := by
  unfold Grammar.activeMarkers Reader.markers
  rw [h.state, h.ofFormat.2.1]
  rcases r.mode with _ | headed | _
  · rfl
  · cases headed <;> rfl
  · rfl

theorem trims_mode (r : Reader) (text : List Char) : (r.trims text).2.2.mode = r.mode := by
  unfold Reader.trims
  split <;> rfl

theorem trims_of_ne (r : Reader) {text : List Char} (h : text ≠ []) :
    r.trims text =
      let space := if r.strip && text.head? = some ' ' then [' '] else []
      let rest := text.drop space.length
      let blank := if r.trim then rest.takeWhile isWhitespace else []
      (space ++ blank, rest.drop blank.length, { r with trim := r.trim && (rest.drop blank.length).isEmpty, strip := false }) := by
  rw [Reader.trims, if_neg (by simpa using h)]

theorem trimPrefix_eq_trims (htrim : g.trimLeadingWs = r.trim) (hstrip : g.stripOneSpace = r.strip) (text : List Char) :
    g.trimPrefix text = ({ g with trimLeadingWs := (r.trims text).2.2.trim, stripOneSpace := (r.trims text).2.2.strip }, (r.trims text).2.1) := by
  obtain ⟨format, markers, headerWord, state, trim, strip, window, callIds⟩ := g
  obtain ⟨mode, trim', strip'⟩ := r
  obtain rfl : trim = trim' := htrim
  obtain rfl : strip = strip' := hstrip
  rcases text with _ | ⟨c, text⟩
  · rfl
  · rw [trimPrefix_of_ne _ (List.cons_ne_nil c text)]
    have hstripped : stripped strip (c :: text) =
        (c :: text).drop (if strip && (c :: text).head? = some ' ' then [' '] else []).length := by
      unfold stripped
      split <;> rfl
    rw [trims_of_ne _ (List.cons_ne_nil c text)]
    unfold Grammar.trimWs
    dsimp only
    rw [hstripped]
    generalize (c :: text).drop (if strip && (c :: text).head? = some ' ' then [' '] else []).length = rest
    cases trim with
    | false => rfl
    | true =>
      rw [if_pos rfl, if_pos rfl, drop_takeWhile, Bool.true_and]
      by_cases hempty : (rest.dropWhile isWhitespace).isEmpty = true
      · rw [if_pos hempty, hempty, List.isEmpty_iff.mp hempty]
      · rw [if_neg hempty, eq_false_of_ne_true hempty]

theorem headerBody_eq_drop (word header : List Char) :
    headerBody word header = header.drop (Reader.header word true header).length := by
  unfold headerBody Reader.header
  rw [Bool.true_and]
  split
  · rename_i hword
    rw [List.length_append, ← List.drop_drop, drop_takeWhile]
  · rfl

theorem apply_eq (h : ∀ capture, g.state ≠ .jsonCall capture) :
    g.apply parse nextCallId .openReasoning =
        ({ g with trimLeadingWs := true, state := if g.headerWord.isEmpty then .thinking else .header [] }, []) ∧
      g.apply parse nextCallId .strayClose = (g, []) ∧
      g.apply parse nextCallId .closeReasoning = ({ (g.resolveHeader true).1 with
        state := .content, trimLeadingWs := true, jsonCallWindow := (g.resolveHeader true).1.format.tools.isLlamaJson },
        (g.resolveHeader true).2) ∧
      g.apply parse nextCallId .openTool = ({ (g.resolveHeader true).1 with state := .toolCall [] }, (g.resolveHeader true).2) := by
  unfold Grammar.apply
  split
  rename_i g' first heq
  have hsame : g' = g ∧ first = [] := by
    split at heq
    · rename_i capture hstate
      exact absurd hstate (h capture)
    · exact ⟨(Prod.mk.inj heq).1.symm, (Prod.mk.inj heq).2.symm⟩
  obtain ⟨rfl, rfl⟩ := hsame
  exact ⟨rfl, rfl, rfl, rfl⟩

theorem apply_closeTool {body : List Char} (h : g.state = .toolCall body) :
    g.apply parse nextCallId .closeTool = { g with state := .content }.finishToolCall parse nextCallId body := by
  simp only [Grammar.apply, h, List.nil_append]

theorem route_resolved {headed : Bool} (hstate : g.state = (Mode.reasoning headed).state) (piece : List Char) :
    let routed := g.route parse nextCallId piece
    let shown := { g with state := .thinking }.emitThinking (piece.drop (Reader.header g.headerWord headed piece).length)
    (routed.1.resolveHeader true).1 = shown.1 ∧ routed.2 ++ (routed.1.resolveHeader true).2 = shown.2 := by
  cases headed with
  | false =>
    have hthinking : g.state = .thinking := hstate
    have hg : { g with state := State.thinking } = g := by rw [← hthinking]
    rw [route_thinking _ _ hthinking, hg]
    have hother : ∀ header, (g.emitThinking piece).1.state ≠ .header header := by
      rw [emitThinking_state, hthinking]
      exact nofun
    dsimp only
    rw [resolveHeader_other hother, List.append_nil]
    exact ⟨rfl, rfl⟩
  | true =>
    have hheader : g.state = .header [] := hstate
    rw [← headerBody_eq_drop]
    rcases eq_or_ne piece [] with rfl | hpiece
    · rw [route_nil]
      dsimp only
      rw [resolveHeader_eq hheader, Bool.not_true, Bool.and_false, if_neg Bool.false_ne_true]
      exact ⟨rfl, rfl⟩
    · rw [route_header _ _ hheader hpiece, List.nil_append]
      split
      · dsimp only
        rw [resolveHeader_eq rfl, Bool.not_true, Bool.and_false, if_neg Bool.false_ne_true]
        exact ⟨rfl, rfl⟩
      · have hother : ∀ header, ({ g with state := .thinking }.emitThinking (headerBody g.headerWord piece)).1.state ≠ .header header := by
          rw [emitThinking_state]
          exact nofun
        dsimp only
        rw [resolveHeader_other hother, List.append_nil]
        exact ⟨rfl, rfl⟩

theorem finishToolCall_eq (g : Grammar) (body : List Char) :
    let emitted := emitPart parse nextCallId g.format.tools g.callIds (.call body)
    g.finishToolCall parse nextCallId body = ({ g with trimLeadingWs := true, callIds := emitted.2 }, emitted.1) := by
  have hunfold : g.finishToolCall parse nextCallId body =
      match parseBody parse g.format.tools body with
      | .ok calls => Grammar.emitCalls nextCallId { g with trimLeadingWs := true } calls
      | .error _ => ({ g with trimLeadingWs := true }, [.error (Grammar.malformed body)]) := rfl
  rw [hunfold]
  unfold emitPart
  dsimp only
  cases parseBody parse g.format.tools body with
  | ok calls => rfl
  | error e => rfl

/-- **A piece that ends at a marker** is its part, and the reader stands behind the marker. -/
theorem marked_read (htagged : Tagged g) (h : Stands format g r) (piece : List Char) {m : Marker}
    (hm : m ∈ r.markers (Grammar.markersOf format)) :
    let routed := g.route parse nextCallId piece
    let applied := routed.1.apply parse nextCallId m.action
    let read := r.read (headerWordOf format) piece
    let emitted := emitPart parse nextCallId format.tools g.callIds read.1
    routed.2 ++ applied.2 = emitted.1 ∧ applied.1.callIds = emitted.2 ∧
      Stands format applied.1 (read.2.pass (headerWordOf format) m.action) := by
  obtain ⟨hformat, hmarkers, hword⟩ := h.ofFormat
  obtain ⟨hcontent, hthinking, htool⟩ := markersOf_actions format (hformat ▸ htagged.tools)
  have hstate := h.state
  have hjson := (route_tagged parse nextCallId htagged piece).1.json
  obtain ⟨hopen, hstray, hclose, hcall⟩ := apply_eq parse nextCallId hjson
  unfold Reader.markers at hm
  unfold Reader.read
  rcases hmode : r.mode with _ | headed | _
  · rw [hmode] at hstate hm
    have hroute : g.route parse nextCallId piece = ({ g with
        trimLeadingWs := (r.trims piece).2.2.trim, stripOneSpace := (r.trims piece).2.2.strip }, textBlock (r.trims piece).2.1) := by
      rw [route_content _ _ htagged.window hstate, emitText_eq, trimPrefix_eq_trims h.trim h.strip]
    have hresolve : (g.route parse nextCallId piece).1.resolveHeader true = ((g.route parse nextCallId piece).1, []) := by
      rw [hroute]
      apply resolveHeader_other
      exact fun header hheader => nomatch hstate.symm.trans hheader
    rw [hresolve] at hcall
    dsimp only
    rcases hcontent m hm with haction | haction | haction
    · rw [haction, hopen, hroute, List.append_nil]
      refine ⟨rfl, rfl, h.ofFormat, ?_, rfl, rfl⟩
      dsimp only
      rw [hword]
      show _ = (Mode.reasoning _).state
      cases (headerWordOf format).isEmpty <;> rfl
    · rw [haction, hstray, hroute, List.append_nil]
      refine ⟨rfl, rfl, h.ofFormat, ?_, rfl, rfl⟩
      show g.state = (r.trims piece).2.2.mode.state
      rw [trims_mode, h.state]
    · rw [haction, hcall, hroute, List.append_nil]
      exact ⟨rfl, rfl, h.ofFormat, rfl, rfl, rfl⟩
  · rw [hmode] at hstate hm
    obtain ⟨hgrammar, hitems⟩ := route_resolved parse nextCallId hstate piece
    have hshown : { g with state := .thinking }.emitThinking (piece.drop (Reader.header g.headerWord headed piece).length) =
        ({ g with
            state := .thinking
            trimLeadingWs := (r.trims (piece.drop (Reader.header (headerWordOf format) headed piece).length)).2.2.trim
            stripOneSpace := (r.trims (piece.drop (Reader.header (headerWordOf format) headed piece).length)).2.2.strip },
          thinkingBlock (r.trims (piece.drop (Reader.header (headerWordOf format) headed piece).length)).2.1) := by
      rw [emitThinking_eq, trimPrefix_eq_trims (g := { g with state := .thinking }) h.trim h.strip, hword]
    rw [hshown] at hgrammar hitems
    dsimp only
    rcases hthinking m hm with haction | haction
    · rw [haction, hclose, hgrammar, hitems]
      exact ⟨rfl, rfl, h.ofFormat, rfl, rfl, rfl⟩
    · rw [haction, hcall, hgrammar, hitems]
      exact ⟨rfl, rfl, h.ofFormat, rfl, rfl, rfl⟩
  · rw [hmode] at hstate hm
    dsimp only
    rw [route_toolCall _ _ hstate, List.nil_append, htool m hm, List.nil_append, apply_closeTool _ _ rfl, finishToolCall_eq]
    refine ⟨?_, ?_, h.ofFormat, rfl, rfl, h.strip⟩
    · rw [← hformat]
    · rw [← hformat]

theorem finish_read (htagged : Tagged g) (h : Stands format g r) (piece : List Char) :
    (g.finish parse nextCallId piece).2 =
      (emitPart parse nextCallId format.tools g.callIds (r.read (headerWordOf format) piece).1).1 := by
  obtain ⟨hformat, hmarkers, hword⟩ := h.ofFormat
  have hstate := h.state
  unfold Reader.read
  rcases hmode : r.mode with _ | headed | _
  · rw [hmode] at hstate
    rw [finish_content _ _ htagged.window hstate, emitText_eq, trimPrefix_eq_trims h.trim h.strip]
    rfl
  · rw [hmode] at hstate
    have hshown (text : List Char) : ({ g with state := .thinking }.emitThinking text).2 = thinkingBlock (r.trims text).2.1 := by
      rw [emitThinking_eq, trimPrefix_eq_trims (g := { g with state := .thinking }) h.trim h.strip]
    cases headed with
    | false =>
      have hthinking : g.state = .thinking := hstate
      have hg : { g with state := State.thinking } = g := by rw [← hthinking]
      rw [finish_thinking _ _ hthinking, ← hg]
      exact hshown piece
    | true =>
      rw [finish_header _ _ hstate, List.nil_append, headerBody_eq_drop, hshown, hword]
      rfl
  · rw [hmode] at hstate
    rw [finish_toolCall _ _ hstate, List.nil_append, finishToolCall_eq, hformat]

theorem parts_some (htagged : Tagged g) (h : Stands format g r) {text : List Char} {pos : Nat} {found : Marker}
    (hfound : earliest Marker.text (r.markers (Grammar.markersOf format)) text = some (pos, found)) :
    parts format r text = (r.read (headerWordOf format) (text.take pos)).1 :: .mark found ::
      parts format ((r.read (headerWordOf format) (text.take pos)).2.pass (headerWordOf format) found.action)
        (text.drop (pos + found.text.length)) := by
  rw [parts, hfound]
  dsimp only
  rw [if_pos (rest_shorter htagged.separated (h.activeMarkers ▸ hfound))]

/-- **The grammar** emits the blocks of the parts, and they are all the text. -/
theorem wholeText_eq (htagged : Tagged g) (h : Stands format g r) (text : List Char) :
    wholeText parse nextCallId g text = emitParts parse nextCallId format.tools g.callIds (parts format r text) ∧
      (parts format r text).flatMap Part.source = text ∧
      ∀ part ∈ parts format r text, ∀ c ∈ part.dropped, isWhitespace c = true := by
  induction hlength : text.length using Nat.strongRecOn generalizing g r text with
  | ind n ih =>
    rcases hfound : earliest Marker.text g.activeMarkers text with _ | ⟨pos, found⟩
    · rw [wholeText_none _ _ hfound, finish_read _ _ htagged h, parts, ← h.activeMarkers, hfound]
      dsimp only
      rw [List.flatMap_singleton, read_source, emitParts, emitParts, List.append_nil]
      refine ⟨rfl, rfl, fun part hpart => ?_⟩
      obtain rfl := List.mem_singleton.mp hpart
      exact read_dropped r text _
    · have hmarkers : earliest Marker.text (r.markers (Grammar.markersOf format)) text = some (pos, found) := h.activeMarkers ▸ hfound
      obtain ⟨hmem, hat, -⟩ := earliest_some hmarkers
      obtain ⟨hitems, hcallIds, hstands⟩ := marked_read parse nextCallId htagged h (text.take pos) hmem
      obtain ⟨hrest, hsource, hdropped⟩ := ih _ (hlength ▸ rest_shorter htagged.separated hfound) (upTo_tagged parse nextCallId htagged hfound).1
        hstands (text.drop (pos + found.text.length)) rfl
      rw [wholeText_some _ _ htagged hfound, parts_some htagged h hmarkers, hrest]
      refine ⟨?_, ?_, fun part hpart => ?_⟩
      · have hupTo : (upTo parse nextCallId g text pos found).2 =
            (emitPart parse nextCallId format.tools g.callIds (r.read (headerWordOf format) (text.take pos)).1).1 := hitems
        have hcount : (upTo parse nextCallId g text pos found).1.callIds =
            (emitPart parse nextCallId format.tools g.callIds (r.read (headerWordOf format) (text.take pos)).1).2 := hcallIds
        rw [emitParts, emitParts, hupTo, hcount]
        rfl
      · have hmarker : text.drop pos = found.text ++ text.drop (pos + found.text.length) := by
          rw [← List.drop_drop]
          exact (List.prefix_iff_eq_append.mp hat.2).symm
        rw [List.flatMap_cons, List.flatMap_cons, read_source, hsource, Part.source, ← hmarker, List.take_append_drop]
      · rcases List.mem_cons.mp hpart with rfl | hpart
        · exact read_dropped r _ _
        rcases List.mem_cons.mp hpart with rfl | hpart
        · exact nofun
        · exact hdropped part hpart

/-! ## The parser reads the parts -/

theorem new_stands (format : ChatFormat) (startInThinking : Bool) :
    Stands format (Grammar.new format startInThinking) (Reader.start format startInThinking) := by
  refine ⟨⟨rfl, rfl, rfl⟩, ?_, rfl, rfl⟩
  unfold Grammar.new Reader.start
  dsimp only
  cases startInThinking && format.reasoning.isSome <;> rfl

theorem new_tagged (h : Detected format) (startInThinking : Bool) : Tagged (Grammar.new format startInThinking) := by
  obtain ⟨hcontent, hthinking, htool⟩ := h.separated
  obtain ⟨hopen, hclose, hcall⟩ := markersOf_actions format h.tools
  have hstate : (Grammar.new format startInThinking).state = .content ∨ (Grammar.new format startInThinking).state = .thinking := by
    unfold Grammar.new
    dsimp only
    split
    · exact .inr rfl
    · exact .inl rfl
  refine ⟨h.tools, ?_, fun body hpython => ?_, fun capture hjson => ?_, hcontent, hthinking, htool, fun m hm haction => ?_⟩
  · show (format.tools.isLlamaJson && _) = false
    rw [h.tools, Bool.false_and]
  · rw [hpython] at hstate
    rcases hstate with h | h <;> exact nomatch h
  · rw [hjson] at hstate
    rcases hstate with h | h <;> exact nomatch h
  · rcases List.mem_append.mp hm with hm | hm
    · rcases List.mem_append.mp hm with hm | hm
      · have hor := hopen m hm
        rw [haction] at hor
        rcases hor with h | h | h <;> exact nomatch h
      · have hor := hclose m hm
        rw [haction] at hor
        rcases hor with h | h <;> exact nomatch h
    · exact nomatch haction.symm.trans (hcall m hm)

/-- **The output** is the reading of its text, whatever tokens it comes in: the blocks and the errors, adjacent text and adjacent
reasoning merged, are those of the parts, the parts are all of the text, and only whitespace is dropped from them. -/
theorem output_eq (h : Detected format) (spell : Spellings) (startInThinking : Bool) (ids : List Nat)
    (hids : ∀ id ∈ ids, format.isMarker id = false) :
    let p := OutputParser.new format startInThinking
    let run := p.pushAll parse nextCallId spell ids
    let text := Utf8.lossy (p.bytesOfAll parse nextCallId spell ids)
    let reading := parts format (Reader.start format startInThinking) text
    mergeBlocks (run.2 ++ (run.1.finish parse nextCallId).2) = mergeBlocks (emitParts parse nextCallId format.tools 0 reading) ∧
      reading.flatMap Part.source = text ∧ (∀ part ∈ reading, ∀ c ∈ part.dropped, isWhitespace c = true) ∧
      ((∀ id ∈ ids, spell.isControl id = false) → p.bytesOfAll parse nextCallId spell ids = ids.flatMap spell.decode) := by
  have htagged := new_tagged h startInThinking
  have hsettled : Settled (OutputParser.new format startInThinking).toGrammar (OutputParser.new format startInThinking).hold := by
    exact ⟨htagged, earliest_nil htagged.separated⟩
  obtain ⟨hread, hsource, hdropped⟩ := wholeText_eq parse nextCallId htagged (new_stands format startInThinking)
    (Utf8.lossy ((OutputParser.new format startInThinking).bytesOfAll parse nextCallId spell ids))
  refine ⟨?_, hsource, hdropped, bytesOfAll_eq parse nextCallId spell _ ids⟩
  have hrun := run_sound parse nextCallId spell (tagged_divides parse nextCallId format) ids hids ⟨hsettled, rfl⟩
  unfold OutputParser.rest value at hrun
  exact hrun.symm.trans (congrArg mergeBlocks hread)

end

/-! ## A character and a marker that tokens cut -/

/-- Bytes of tokens that cut `é` and `</think>`. -/
def cutSpellings : Spellings where
  tokenText := fun _ => ""
  decode := fun id => [[0x61, 0xC3], [0xA9, 0x3C, 0x2F, 0x74, 0x68], [0x69, 0x6E, 0x6B, 0x3E, 0x0A, 0x62]].getD id []
  isControl := fun _ => false

def thinkFormat : ChatFormat := ⟨[9], some ⟨"<think>", "</think>", none⟩, .plain, [], false⟩

theorem thinkFormat_detected : Detected thinkFormat :=
  ⟨rfl, fun _ => false, "<think>", by decide +kernel, by decide +kernel⟩

def cutBytes : List UInt8 := [0x61, 0xC3, 0xA9, 0x3C, 0x2F, 0x74, 0x68, 0x69, 0x6E, 0x6B, 0x3E, 0x0A, 0x62]

def noCalls : CallParsers := ⟨fun _ => .error "", fun _ => .error "", fun _ _ => .error ""⟩

theorem output_eq_cut :
    let run := (OutputParser.new thinkFormat true).pushAll noCalls Nat.repr cutSpellings [0, 1, 2]
    let reading := parts thinkFormat (Reader.start thinkFormat true) (Utf8.lossy cutBytes)
    mergeBlocks (run.2 ++ (run.1.finish noCalls Nat.repr).2) = mergeBlocks (emitParts noCalls Nat.repr .plain 0 reading) ∧
      reading.flatMap Part.source = Utf8.lossy cutBytes := by
  obtain ⟨hblocks, hsource, -, hbytes⟩ := output_eq noCalls Nat.repr thinkFormat_detected cutSpellings true [0, 1, 2] (by decide)
  have hcut : [0, 1, 2].flatMap cutSpellings.decode = cutBytes := by decide
  rw [hbytes (by decide), hcut] at hblocks hsource
  exact ⟨hblocks, hsource⟩

end Cuca.Local
