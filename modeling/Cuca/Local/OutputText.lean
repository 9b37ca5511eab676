import Cuca.Local.Output

/-!
# Text in pieces

The parser gets its text in pieces, and what it emits is cut where the pieces end. Without the bare JSON syntax, adjacent blocks of text
merged, this is all the difference they make.

* `mergeBlocks`, `Same` : adjacent text and adjacent reasoning made one;
* `Tagged` : a grammar without the bare JSON syntax, which text and markers keep (`route_tagged`, `apply_tagged`);
* `trimPrefix_append`, `headerBody_append` : the trims and the header, over a seam;
* `route_append`, `finish_append` : text without markers, over a seam.
-/

namespace Cuca.Local
open Markers Sse

/-! ## Merged blocks -/

def joinBlock (item : Item) (items : List Item) : List Item :=
  match item, items with
  | .ok (.text a), .ok (.text b) :: rest => .ok (.text (a ++ b)) :: rest
  | .ok (.thinking a none), .ok (.thinking b none) :: rest => .ok (.thinking (a ++ b) none) :: rest
  | item, items => item :: items

def mergeBlocks (items : List Item) : List Item := items.foldr joinBlock []

def Same (items items' : List Item) : Prop := mergeBlocks items = mergeBlocks items'

theorem joinBlock_text (a b : String) (items : List Item) :
    joinBlock (.ok (.text a)) (joinBlock (.ok (.text b)) items) = joinBlock (.ok (.text (a ++ b))) items := by
  rcases items with _ | ⟨item, items⟩
  · rfl
  · rcases item with e | block
    · rfl
    · cases block with
      | text c => simp [joinBlock, String.append_assoc]
      | _ => rfl

theorem joinBlock_thinking (a b : String) (items : List Item) :
    joinBlock (.ok (.thinking a none)) (joinBlock (.ok (.thinking b none)) items) =
      joinBlock (.ok (.thinking (a ++ b) none)) items := by
  rcases items with _ | ⟨item, items⟩
  · rfl
  · rcases item with e | block
    · rfl
    · cases block with
      | thinking c signature =>
        rcases signature with _ | signature
        · simp [joinBlock, String.append_assoc]
        · rfl
      | _ => rfl

theorem foldr_joinBlock (item : Item) (items behind : List Item) :
    (joinBlock item items).foldr joinBlock behind = joinBlock item (items.foldr joinBlock behind) := by
  rcases items with _ | ⟨next, items⟩
  · rcases item with e | block
    · rfl
    · cases block with
      | thinking a signature => cases signature <;> rfl
      | _ => rfl
  · rcases item with e | block
    · rfl
    · cases block with
      | text a =>
        rcases next with e | next
        · rfl
        · cases next with
          | text b => exact (joinBlock_text a b _).symm
          | _ => rfl
      | thinking a signature =>
        rcases signature with _ | signature
        · rcases next with e | next
          · rfl
          · cases next with
            | thinking b signature =>
              rcases signature with _ | signature
              · exact (joinBlock_thinking a b _).symm
              · rfl
            | _ => rfl
        · rfl
      | _ => rfl

theorem foldr_mergeBlocks (items behind : List Item) :
    (mergeBlocks items).foldr joinBlock behind = items.foldr joinBlock behind := by
  induction items with
  | nil => rfl
  | cons item items ih =>
    have hcons : mergeBlocks (item :: items) = joinBlock item (mergeBlocks items) := rfl
    rw [hcons, foldr_joinBlock, ih]
    rfl

theorem Same.append {items items' more more' : List Item} (h : Same items items') (hmore : Same more more') :
    Same (items ++ more) (items' ++ more') := by
  rw [Same, mergeBlocks, mergeBlocks, List.foldr_append, List.foldr_append]
  have hbehind : more.foldr joinBlock [] = more'.foldr joinBlock [] := hmore
  rw [hbehind, ← foldr_mergeBlocks items, ← foldr_mergeBlocks items', show mergeBlocks items = mergeBlocks items' from h]

theorem Same.rfl {items : List Item} : Same items items := Eq.refl _

theorem Same.symm {items items' : List Item} (h : Same items items') : Same items' items := Eq.symm h

theorem Same.trans {first second third : List Item} (h : Same first second) (h' : Same second third) : Same first third :=
  Eq.trans h h'

/-! ## Text in pieces -/

/-- A grammar of the syntaxes other than bare JSON. -/
structure Tagged (g : Grammar) : Prop where
  tools : g.format.tools.isLlamaJson = false
  window : g.jsonCallWindow = false
  python : ∀ body, g.state ≠ .pythonTag body
  json : ∀ capture, g.state ≠ .jsonCall capture
  content : Separated Marker.text g.markers.content
  thinking : Separated Marker.text g.markers.thinking
  tool : Separated Marker.text g.markers.tool
  actions : ∀ m ∈ g.markers.content ++ g.markers.thinking ++ g.markers.tool, m.action ≠ .openPython

/-- All that is fixed: only the state, the trims and the count of ids may differ. -/
structure Frame (g g' : Grammar) : Prop where
  format : g'.format = g.format
  markers : g'.markers = g.markers
  headerWord : g'.headerWord = g.headerWord
  window : g'.jsonCallWindow = g.jsonCallWindow

theorem Frame.rfl {g : Grammar} : Frame g g := ⟨Eq.refl _, Eq.refl _, Eq.refl _, Eq.refl _⟩

theorem Frame.trans {g g' g'' : Grammar} (h : Frame g g') (h' : Frame g' g'') : Frame g g'' :=
  ⟨h'.format.trans h.format, h'.markers.trans h.markers, h'.headerWord.trans h.headerWord, h'.window.trans h.window⟩

theorem Tagged.of_frame {g g' : Grammar} (h : Tagged g) (hframe : Frame g g') (hpython : ∀ body, g'.state ≠ .pythonTag body)
    (hjson : ∀ capture, g'.state ≠ .jsonCall capture) : Tagged g' := by
  obtain ⟨hformat, hmarkers, -, hwindow⟩ := hframe
  exact ⟨hformat ▸ h.tools, hwindow ▸ h.window, hpython, hjson, hmarkers ▸ h.content, hmarkers ▸ h.thinking, hmarkers ▸ h.tool,
    hmarkers ▸ h.actions⟩

theorem Tagged.separated {g : Grammar} (h : Tagged g) : Separated Marker.text g.activeMarkers := by
  unfold Grammar.activeMarkers
  split
  · exact h.content
  · exact h.thinking
  · exact h.thinking
  · exact h.tool
  · exact ⟨nofun, nofun⟩
  · exact ⟨nofun, nofun⟩

/-! ## The trims -/

/-- The trim of whitespace alone. -/
def Grammar.trimWs (g : Grammar) (text : List Char) : Grammar × List Char :=
  if g.trimLeadingWs then
    if (text.dropWhile isWhitespace).isEmpty then (g, []) else ({ g with trimLeadingWs := false }, text.dropWhile isWhitespace)
  else (g, text)

def stripped (strip : Bool) (text : List Char) : List Char := if strip && text.head? = some ' ' then text.tail else text

theorem trimPrefix_of_ne (g : Grammar) {text : List Char} (h : text ≠ []) :
    g.trimPrefix text = { g with stripOneSpace := false }.trimWs (stripped g.stripOneSpace text) := by
  rw [Grammar.trimPrefix, if_neg (by simpa using h)]
  rfl

theorem trimPrefix_unstripped {g : Grammar} (h : g.stripOneSpace = false) (text : List Char) :
    g.trimPrefix text = g.trimWs text := by
  rcases text with _ | ⟨c, text⟩
  · unfold Grammar.trimWs
    split <;> rfl
  · obtain ⟨format, markers, headerWord, state, trim, strip, window, callIds⟩ := g
    obtain rfl : strip = false := h
    exact trimPrefix_of_ne _ (List.cons_ne_nil c text)

theorem trimWs_append (g : Grammar) (a b : List Char) :
    g.trimWs (a ++ b) = (((g.trimWs a).1.trimWs b).1, (g.trimWs a).2 ++ ((g.trimWs a).1.trimWs b).2) := by
  by_cases htrim : g.trimLeadingWs = true
  · by_cases hempty : (a.dropWhile isWhitespace).isEmpty = true
    · have ha : g.trimWs a = (g, []) := by rw [Grammar.trimWs, if_pos htrim, if_pos hempty]
      have hall : g.trimWs (a ++ b) = g.trimWs b := by
        rw [Grammar.trimWs, Grammar.trimWs, if_pos htrim, if_pos htrim, List.dropWhile_append, if_pos hempty]
      rw [hall, ha, List.nil_append]
    · have ha : g.trimWs a = ({ g with trimLeadingWs := false }, a.dropWhile isWhitespace) := by
        rw [Grammar.trimWs, if_pos htrim, if_neg hempty]
      have hmore : ¬ ((a.dropWhile isWhitespace) ++ b).isEmpty = true := by simpa using fun h => absurd h (by simpa using hempty)
      rw [ha, Grammar.trimWs, List.dropWhile_append, if_pos htrim, if_neg hempty, if_neg hmore]
      rfl
  · have hall (text : List Char) : g.trimWs text = (g, text) := by rw [Grammar.trimWs, if_neg htrim]
    rw [hall, hall a, hall b]

theorem trimWs_stripOneSpace (g : Grammar) (text : List Char) : (g.trimWs text).1.stripOneSpace = g.stripOneSpace := by
  unfold Grammar.trimWs
  split
  · split <;> rfl
  · rfl

theorem trimPrefix_nil (g : Grammar) : g.trimPrefix [] = (g, []) := rfl

theorem trimPrefix_append (g : Grammar) (a b : List Char) :
    g.trimPrefix (a ++ b) = (((g.trimPrefix a).1.trimPrefix b).1, (g.trimPrefix a).2 ++ ((g.trimPrefix a).1.trimPrefix b).2) := by
  rcases a with _ | ⟨c, a⟩
  · rw [trimPrefix_nil, List.nil_append]
    rfl
  · have hstripped : stripped g.stripOneSpace (c :: a ++ b) = stripped g.stripOneSpace (c :: a) ++ b := by
      unfold stripped
      rw [List.cons_append, List.head?_cons, List.head?_cons]
      split <;> rfl
    rw [trimPrefix_of_ne g (List.cons_ne_nil c a), trimPrefix_of_ne g (by simp), hstripped, trimWs_append,
      trimPrefix_unstripped (by rw [trimWs_stripOneSpace])]

theorem trimPrefix_eq (g : Grammar) (text : List Char) :
    ∃ trim strip, (g.trimPrefix text).1 = { g with trimLeadingWs := trim, stripOneSpace := strip } := by
  rcases text with _ | ⟨c, text⟩
  · exact ⟨g.trimLeadingWs, g.stripOneSpace, rfl⟩
  · rw [trimPrefix_of_ne g (List.cons_ne_nil c text)]
    unfold Grammar.trimWs
    split
    · split
      · exact ⟨_, _, rfl⟩
      · exact ⟨_, _, rfl⟩
    · exact ⟨_, _, rfl⟩

/-! ## Text without markers -/

theorem same_textBlock (a b : List Char) : Same (textBlock (a ++ b)) (textBlock a ++ textBlock b) := by
  rcases a with _ | ⟨c, a⟩
  · exact .rfl
  · rcases b with _ | ⟨d, b⟩
    · rw [List.append_nil]
      exact .rfl
    · show [_] = [_]
      rw [String.ofList_append]

def thinkingBlock (text : List Char) : List Item := if text.isEmpty then [] else [.ok (.thinking (String.ofList text) none)]

theorem same_thinkingBlock (a b : List Char) : Same (thinkingBlock (a ++ b)) (thinkingBlock a ++ thinkingBlock b) := by
  rcases a with _ | ⟨c, a⟩
  · exact .rfl
  · rcases b with _ | ⟨d, b⟩
    · rw [List.append_nil]
      exact .rfl
    · show [_] = [_]
      rw [String.ofList_append]

theorem emitText_eq (g : Grammar) (text : List Char) :
    g.emitText text = ((g.trimPrefix text).1, textBlock (g.trimPrefix text).2) := rfl

theorem emitThinking_eq (g : Grammar) (text : List Char) :
    g.emitThinking text = ((g.trimPrefix text).1, thinkingBlock (g.trimPrefix text).2) := rfl

theorem emitText_append (g : Grammar) (a b : List Char) :
    (g.emitText (a ++ b)).1 = ((g.emitText a).1.emitText b).1 ∧
      Same (g.emitText (a ++ b)).2 ((g.emitText a).2 ++ ((g.emitText a).1.emitText b).2) := by
  rw [emitText_eq, emitText_eq g a, emitText_eq, trimPrefix_append]
  exact ⟨rfl, same_textBlock ..⟩

theorem emitThinking_append (g : Grammar) (a b : List Char) :
    (g.emitThinking (a ++ b)).1 = ((g.emitThinking a).1.emitThinking b).1 ∧
      Same (g.emitThinking (a ++ b)).2 ((g.emitThinking a).2 ++ ((g.emitThinking a).1.emitThinking b).2) := by
  rw [emitThinking_eq, emitThinking_eq g a, emitThinking_eq, trimPrefix_append]
  exact ⟨rfl, same_thinkingBlock ..⟩

def headerBody (word header : List Char) : List Char :=
  if word.isPrefixOf header then (header.drop word.length).dropWhile headerSpaces.contains else header

def waits (word header : List Char) : Bool :=
  if word.isPrefixOf header then (headerBody word header).isEmpty else header.isPrefixOf word

theorem resolveHeader_eq {g : Grammar} {header : List Char} (h : g.state = .header header) (force : Bool) :
    g.resolveHeader force = if waits g.headerWord header && !force then (g, []) else
      { g with state := .thinking }.emitThinking (headerBody g.headerWord header) := by
  unfold Grammar.resolveHeader waits headerBody
  rw [h]
  dsimp only
  by_cases hword : g.headerWord.isPrefixOf header = true
  · rw [if_pos hword, if_pos hword, if_pos hword]
  · rw [if_neg hword, if_neg hword, if_neg hword, Bool.and_comm]

theorem resolveHeader_other {g : Grammar} (h : ∀ header, g.state ≠ .header header) (force : Bool) : g.resolveHeader force = (g, []) := by
  unfold Grammar.resolveHeader
  split
  · rename_i header hstate
    exact absurd hstate (h header)
  · rfl

/-- **A header that is decided** only has more text behind it. -/
theorem headerBody_append {word header : List Char} (h : waits word header = false) (more : List Char) :
    headerBody word (header ++ more) = headerBody word header ++ more ∧ waits word (header ++ more) = false := by
  unfold waits headerBody at *
  by_cases hword : word.isPrefixOf header = true
  · have hlonger : word.isPrefixOf (header ++ more) = true :=
      List.isPrefixOf_iff_prefix.mpr ((List.isPrefixOf_iff_prefix.mp hword).trans (List.prefix_append _ _))
    rw [if_pos hword, if_pos hword] at h
    have hdrop : ((header ++ more).drop word.length).dropWhile headerSpaces.contains =
        (header.drop word.length).dropWhile headerSpaces.contains ++ more := by
      rw [List.drop_append_of_le_length (List.isPrefixOf_iff_prefix.mp hword).length_le, List.dropWhile_append, h]
      rfl
    rw [if_pos hword, if_pos hlonger, if_pos hlonger, hdrop]
    refine ⟨rfl, ?_⟩
    rcases hrest : (header.drop word.length).dropWhile headerSpaces.contains with _ | ⟨c, rest⟩
    · rw [hrest] at h
      exact nomatch h
    · rfl
  · rw [if_neg hword] at h
    have hlonger : ¬ word.isPrefixOf (header ++ more) = true := by
      intro hprefix
      rcases List.prefix_or_prefix_of_prefix (List.isPrefixOf_iff_prefix.mp hprefix) (List.prefix_append header more) with hle | hle
      · exact hword (List.isPrefixOf_iff_prefix.mpr hle)
      · exact nomatch h.symm.trans (List.isPrefixOf_iff_prefix.mpr hle)
    have hother : ¬ (header ++ more).isPrefixOf word = true := by
      intro hprefix
      have hle := (List.prefix_append header more).trans (List.isPrefixOf_iff_prefix.mp hprefix)
      exact nomatch h.symm.trans (List.isPrefixOf_iff_prefix.mpr hle)
    rw [if_neg hword, if_neg hlonger, if_neg hlonger]
    exact ⟨rfl, eq_false_of_ne_true hother⟩

/-! ## Routing in pieces -/

section
variable (parse : CallParsers) (nextCallId : Nat → String) {g : Grammar}

theorem route_nil (g : Grammar) : g.route parse nextCallId [] = (g, []) := rfl

theorem route_content (hwindow : g.jsonCallWindow = false) (hstate : g.state = .content) (text : List Char) :
    g.route parse nextCallId text = g.emitText text := by
  rcases text with _ | ⟨c, text⟩
  · rfl
  · unfold Grammar.route Grammar.emitContent
    rw [hstate, hwindow]
    rfl

theorem route_thinking (hstate : g.state = .thinking) (text : List Char) :
    g.route parse nextCallId text = g.emitThinking text := by
  rcases text with _ | ⟨c, text⟩
  · rfl
  · unfold Grammar.route
    rw [hstate]
    rfl

theorem route_toolCall {body : List Char} (hstate : g.state = .toolCall body) (text : List Char) :
    g.route parse nextCallId text = ({ g with state := .toolCall (body ++ text) }, []) := by
  rcases text with _ | ⟨c, text⟩
  · rw [List.append_nil, ← hstate]
    rfl
  · unfold Grammar.route
    rw [hstate]
    rfl

theorem route_pythonTag {body : List Char} (hstate : g.state = .pythonTag body) (text : List Char) :
    g.route parse nextCallId text = ({ g with state := .pythonTag (body ++ text) }, []) := by
  rcases text with _ | ⟨c, text⟩
  · rw [List.append_nil, ← hstate]
    rfl
  · unfold Grammar.route
    rw [hstate]
    rfl

theorem route_header {header : List Char} (hstate : g.state = .header header) {text : List Char} (htext : text ≠ []) :
    g.route parse nextCallId text = if waits g.headerWord (header ++ text) then ({ g with state := .header (header ++ text) }, [])
      else { g with state := .thinking }.emitThinking (headerBody g.headerWord (header ++ text)) := by
  unfold Grammar.route
  rw [if_neg (by simpa using htext), hstate]
  dsimp only
  rw [resolveHeader_eq rfl, Bool.not_false, Bool.and_true]

theorem emitThinking_state (g : Grammar) (text : List Char) : (g.emitThinking text).1.state = g.state := by
  obtain ⟨trim, strip, heq⟩ := trimPrefix_eq g text
  rw [emitThinking_eq, heq]

theorem emitText_state (g : Grammar) (text : List Char) : (g.emitText text).1.state = g.state := by
  obtain ⟨trim, strip, heq⟩ := trimPrefix_eq g text
  rw [emitText_eq, heq]

theorem Tagged.trimmed (h : Tagged g) (text : List Char) : Tagged (g.trimPrefix text).1 := by
  obtain ⟨trim, strip, heq⟩ := trimPrefix_eq g text
  rw [heq]
  exact ⟨h.tools, h.window, h.python, h.json, h.content, h.thinking, h.tool, h.actions⟩

theorem emitText_window (g : Grammar) (text : List Char) : (g.emitText text).1.jsonCallWindow = g.jsonCallWindow := by
  obtain ⟨trim, strip, heq⟩ := trimPrefix_eq g text
  rw [emitText_eq, heq]

/-- A grammar in which no bare JSON candidate may start or has started. -/
structure Plain (g : Grammar) : Prop where
  window : g.state = .content → g.jsonCallWindow = false
  json : ∀ capture, g.state ≠ .jsonCall capture

theorem Tagged.plain (h : Tagged g) : Plain g := ⟨fun _ => h.window, h.json⟩

theorem route_append (h : Plain g) (a b : List Char) :
    (g.route parse nextCallId (a ++ b)).1 = ((g.route parse nextCallId a).1.route parse nextCallId b).1 ∧
      Same (g.route parse nextCallId (a ++ b)).2
        ((g.route parse nextCallId a).2 ++ ((g.route parse nextCallId a).1.route parse nextCallId b).2) := by
  rcases eq_or_ne a [] with rfl | ha
  · exact ⟨rfl, .rfl⟩
  rcases eq_or_ne b [] with rfl | hb
  · rw [List.append_nil, route_nil, List.append_nil]
    exact ⟨rfl, .rfl⟩
  rcases hstate : g.state with _ | header | _ | body | body | capture
  · have hwindow := h.window hstate
    have hrest := (emitText_window g a).trans hwindow
    rw [route_content _ _ hwindow hstate, route_content _ _ hwindow hstate, route_content _ _ hrest ((emitText_state g a).trans hstate)]
    exact emitText_append g a b
  · rw [route_header _ _ hstate (by simp [ha]), route_header _ _ hstate ha]
    by_cases hwaits : waits g.headerWord (header ++ a) = true
    · rw [if_pos hwaits, route_header _ _ (g := { g with state := .header (header ++ a) }) rfl hb, List.append_assoc]
      exact ⟨rfl, .rfl⟩
    · rw [if_neg hwaits]
      obtain ⟨hbody, hlater⟩ := headerBody_append (Bool.not_eq_true _ ▸ hwaits) b
      rw [← List.append_assoc, hlater, hbody, route_thinking _ _ (emitThinking_state _ _)]
      exact emitThinking_append _ _ b
  · rw [route_thinking _ _ hstate, route_thinking _ _ hstate, route_thinking _ _ ((emitThinking_state g a).trans hstate)]
    exact emitThinking_append g a b
  · rw [route_toolCall _ _ hstate, route_toolCall _ _ hstate, route_toolCall _ _ rfl, List.append_assoc]
    exact ⟨rfl, .rfl⟩
  · rw [route_pythonTag _ _ hstate, route_pythonTag _ _ hstate, route_pythonTag _ _ rfl, List.append_assoc]
    exact ⟨rfl, .rfl⟩
  · exact absurd hstate (h.json capture)

theorem finish_content (hwindow : g.jsonCallWindow = false) (hstate : g.state = .content) (held : List Char) :
    g.finish parse nextCallId held = g.emitText held := by
  unfold Grammar.finish Grammar.emitContent
  rw [hstate, hwindow]
  rfl

theorem finish_thinking (hstate : g.state = .thinking) (held : List Char) :
    g.finish parse nextCallId held = g.emitThinking held := by
  unfold Grammar.finish
  rw [hstate]

theorem finish_header {header : List Char} (hstate : g.state = .header header) (held : List Char) :
    g.finish parse nextCallId held = { g with state := .thinking }.emitThinking (headerBody g.headerWord (header ++ held)) := by
  unfold Grammar.finish
  rw [hstate]
  dsimp only
  rw [resolveHeader_eq rfl, Bool.not_true, Bool.and_false]
  rfl

theorem finish_toolCall {body : List Char} (hstate : g.state = .toolCall body) (held : List Char) :
    g.finish parse nextCallId held = { g with state := .content }.finishToolCall parse nextCallId (body ++ held) := by
  unfold Grammar.finish
  rw [hstate]

theorem finish_pythonTag {body : List Char} (hstate : g.state = .pythonTag body) (held : List Char) :
    g.finish parse nextCallId held = { g with state := .content }.finishPython parse nextCallId (body ++ held) := by
  unfold Grammar.finish
  rw [hstate]

/-- **The end** sees what was routed before and what is left as one. -/
theorem finish_append (h : Plain g) (a b : List Char) :
    Same (g.finish parse nextCallId (a ++ b)).2
      ((g.route parse nextCallId a).2 ++ ((g.route parse nextCallId a).1.finish parse nextCallId b).2) := by
  rcases eq_or_ne a [] with rfl | ha
  · exact .rfl
  rcases hstate : g.state with _ | header | _ | body | body | capture
  · have hwindow := h.window hstate
    have hrest := (emitText_window g a).trans hwindow
    rw [finish_content _ _ hwindow hstate, route_content _ _ hwindow hstate, finish_content _ _ hrest ((emitText_state g a).trans hstate)]
    exact (emitText_append g a b).2
  · rw [finish_header _ _ hstate, route_header _ _ hstate ha]
    by_cases hwaits : waits g.headerWord (header ++ a) = true
    · rw [if_pos hwaits, finish_header _ _ (g := { g with state := .header (header ++ a) }) rfl, List.append_assoc]
      exact .rfl
    · rw [if_neg hwaits]
      obtain ⟨hbody, -⟩ := headerBody_append (eq_false_of_ne_true hwaits) b
      rw [← List.append_assoc, hbody, finish_thinking _ _ (emitThinking_state _ _)]
      exact (emitThinking_append _ _ b).2
  · rw [finish_thinking _ _ hstate, route_thinking _ _ hstate, finish_thinking _ _ ((emitThinking_state g a).trans hstate)]
    exact (emitThinking_append g a b).2
  · rw [finish_toolCall _ _ hstate, route_toolCall _ _ hstate, finish_toolCall _ _ rfl, List.append_assoc]
    exact .rfl
  · rw [finish_pythonTag _ _ hstate, route_pythonTag _ _ hstate, finish_pythonTag _ _ rfl, List.append_assoc]
    exact .rfl
  · exact absurd hstate (h.json capture)

/-! ## What stays as it was -/

theorem trimPrefix_frame (g : Grammar) (text : List Char) : Frame g (g.trimPrefix text).1 := by
  obtain ⟨trim, strip, heq⟩ := trimPrefix_eq g text
  rw [heq]
  exact ⟨rfl, rfl, rfl, rfl⟩

theorem emitThinking_tagged (h : Tagged g) (text : List Char) :
    Tagged ({ g with state := .thinking }.emitThinking text).1 ∧ Frame g ({ g with state := .thinking }.emitThinking text).1 := by
  have hthinking : Tagged { g with state := .thinking } := h.of_frame ⟨rfl, rfl, rfl, rfl⟩ nofun nofun
  have hframe : Frame g { g with state := .thinking } := ⟨rfl, rfl, rfl, rfl⟩
  exact ⟨hthinking.trimmed text, hframe.trans (trimPrefix_frame _ text)⟩

theorem resolveHeader_tagged (h : Tagged g) (force : Bool) : Tagged (g.resolveHeader force).1 ∧ Frame g (g.resolveHeader force).1 := by
  rcases hstate : g.state with _ | header | _ | body | body | capture
  case header =>
    rw [resolveHeader_eq hstate]
    split
    · exact ⟨h, .rfl⟩
    · exact emitThinking_tagged h _
  all_goals
    rw [resolveHeader_other (by rw [hstate]; nofun)]
    exact ⟨h, .rfl⟩

theorem activeMarkers_eq {g g' : Grammar} (hframe : Frame g g') (hstate : g'.state = g.state) : g'.activeMarkers = g.activeMarkers := by
  unfold Grammar.activeMarkers
  rw [hstate, hframe.markers]

/-- **Text** leaves a tagged grammar tagged, and the markers to look for are the same. -/
theorem route_tagged (h : Tagged g) (text : List Char) :
    Tagged (g.route parse nextCallId text).1 ∧ Frame g (g.route parse nextCallId text).1 ∧
      (g.route parse nextCallId text).1.activeMarkers = g.activeMarkers := by
  rcases eq_or_ne text [] with rfl | htext
  · exact ⟨h, .rfl, rfl⟩
  rcases hstate : g.state with _ | header | _ | body | body | capture
  · rw [route_content _ _ h.window hstate]
    exact ⟨h.trimmed text, trimPrefix_frame g text, activeMarkers_eq (trimPrefix_frame g text) (emitText_state g text)⟩
  · rw [route_header _ _ hstate htext]
    split
    · refine ⟨h.of_frame ⟨rfl, rfl, rfl, rfl⟩ nofun nofun, ⟨rfl, rfl, rfl, rfl⟩, ?_⟩
      unfold Grammar.activeMarkers
      rw [hstate]
    · obtain ⟨htagged, hframe⟩ := emitThinking_tagged h (headerBody g.headerWord (header ++ text))
      refine ⟨htagged, hframe, ?_⟩
      unfold Grammar.activeMarkers
      rw [emitThinking_state, hstate, hframe.markers]
  · rw [route_thinking _ _ hstate]
    exact ⟨h.trimmed text, trimPrefix_frame g text, activeMarkers_eq (trimPrefix_frame g text) (emitThinking_state g text)⟩
  · rw [route_toolCall _ _ hstate]
    refine ⟨h.of_frame ⟨rfl, rfl, rfl, rfl⟩ nofun nofun, ⟨rfl, rfl, rfl, rfl⟩, ?_⟩
    unfold Grammar.activeMarkers
    rw [hstate]
  · exact absurd hstate (h.python body)
  · exact absurd hstate (h.json capture)

theorem finishToolCall_frame (g : Grammar) (body : List Char) : Frame g (g.finishToolCall parse nextCallId body).1 ∧
    (g.finishToolCall parse nextCallId body).1.state = g.state := by
  unfold Grammar.finishToolCall
  dsimp only
  split
  · exact ⟨⟨rfl, rfl, rfl, rfl⟩, rfl⟩
  · exact ⟨⟨rfl, rfl, rfl, rfl⟩, rfl⟩

theorem apply_tagged (h : Tagged g) {action : Action} (haction : action ≠ .openPython) :
    Tagged (g.apply parse nextCallId action).1 ∧ Frame g (g.apply parse nextCallId action).1 := by
  have hjson : ∀ capture, g.state ≠ .jsonCall capture := h.json
  unfold Grammar.apply
  split
  rename_i g' first heq
  have hsame : g' = g ∧ first = [] := by
    split at heq
    · rename_i capture hstate
      exact absurd hstate (hjson capture)
    · exact ⟨(Prod.mk.inj heq).1.symm, (Prod.mk.inj heq).2.symm⟩
  obtain ⟨rfl, rfl⟩ := hsame
  cases action with
  | openReasoning =>
    have hframe (state : State) : Frame g' { g' with trimLeadingWs := true, state := state } := ⟨rfl, rfl, rfl, rfl⟩
    dsimp only
    split
    · exact ⟨h.of_frame (hframe _) (by simp) (by simp), hframe _⟩
    · exact ⟨h.of_frame (hframe _) (by simp) (by simp), hframe _⟩
  | closeReasoning =>
    obtain ⟨-, hframe⟩ := resolveHeader_tagged h true
    have hwindow : (g'.resolveHeader true).1.format.tools.isLlamaJson = g'.jsonCallWindow := by
      rw [hframe.format, h.tools, h.window]
    have hall : Frame g' { (g'.resolveHeader true).1 with
        state := .content, trimLeadingWs := true, jsonCallWindow := (g'.resolveHeader true).1.format.tools.isLlamaJson } :=
      ⟨hframe.format, hframe.markers, hframe.headerWord, hwindow⟩
    exact ⟨h.of_frame hall (by simp) (by simp), hall⟩
  | strayClose => exact ⟨h, .rfl⟩
  | openTool =>
    obtain ⟨-, hframe⟩ := resolveHeader_tagged h true
    have hall : Frame g' { (g'.resolveHeader true).1 with state := .toolCall [] } :=
      ⟨hframe.format, hframe.markers, hframe.headerWord, hframe.window⟩
    exact ⟨h.of_frame hall (by simp) (by simp), hall⟩
  | closeTool =>
    dsimp only
    split
    · rename_i body _
      obtain ⟨hframe, hstate⟩ := finishToolCall_frame parse nextCallId { g' with state := .content } body
      have hall : Frame g' ({ g' with state := .content }.finishToolCall parse nextCallId body).1 :=
        ⟨hframe.format, hframe.markers, hframe.headerWord, hframe.window⟩
      exact ⟨h.of_frame hall (fun body' hpython => absurd (hstate.symm.trans hpython) (by simp))
        (fun capture hjson => absurd (hstate.symm.trans hjson) (by simp)), hall⟩
    · have hall : Frame g' { g' with state := .content } := ⟨rfl, rfl, rfl, rfl⟩
      exact ⟨h.of_frame hall (by simp) (by simp), hall⟩
  | openPython => exact absurd rfl haction

end

end Cuca.Local
