import Cuca.Local.OutputReading

/-!
# Answer text with bare JSON

A model may write a call as a JSON object and nothing around it. The first character that is not blank, at the beginning of the answer
or behind reasoning, decides: at a `{` a candidate begins, which goes up to its closing brace.

* `JsonCapture.advance_append` : the scan of a candidate, in pieces;
* `Bare` : a grammar of bare JSON, which text and markers keep (`route_bare`, `apply_bare`);
* `Place`, `steady` : where in its grammar a text stands, and when the cuts of the text make no difference to its reading.
-/

namespace Cuca.Local
open Markers Sse

/-! ## The scan of a candidate -/

namespace JsonCapture

/-- One character, and whether it closes the object. -/
def next (capture : JsonCapture) (c : Char) : JsonCapture × Bool :=
  let capture := { capture with text := capture.text ++ [c] }
  if capture.inString then
    if capture.escaped then ({ capture with escaped := false }, false)
    else if c = '\\' then ({ capture with escaped := true }, false)
    else if c = '"' then ({ capture with inString := false }, false)
    else (capture, false)
  else if c = '"' then ({ capture with inString := true }, false)
  else if c = '\x7b' then ({ capture with depth := capture.depth + 1 }, false)
  else if c = '\x7d' then ({ capture with depth := capture.depth - 1 }, decide (capture.depth - 1 = 0))
  else (capture, false)

theorem advance_nil (capture : JsonCapture) : capture.advance [] = (capture, [], false) := rfl

theorem advance_cons (capture : JsonCapture) (c : Char) (text : List Char) :
    capture.advance (c :: text) =
      if (capture.next c).2 then ((capture.next c).1, text, true) else (capture.next c).1.advance text := by
  rw [advance, next]
  dsimp only
  split_ifs <;> first | rfl | simp_all

theorem next_text (capture : JsonCapture) (c : Char) : (capture.next c).1.text = capture.text ++ [c] := by
  unfold next
  dsimp only
  split_ifs <;> rfl

theorem next_closes {capture : JsonCapture} {c : Char} (h : (capture.next c).2 = true) : c = '\x7d' := by
  unfold next at h
  dsimp only at h
  split_ifs at h
  assumption

/-- **A candidate** that does not close in a text goes on behind it. -/
theorem advance_append (capture : JsonCapture) (a b : List Char) :
    capture.advance (a ++ b) =
      if (capture.advance a).2.2 then ((capture.advance a).1, (capture.advance a).2.1 ++ b, true)
      else (capture.advance a).1.advance b := by
  induction a generalizing capture with
  | nil => rfl
  | cons c a ih =>
    rw [List.cons_append, advance_cons, advance_cons capture c a]
    split
    · rfl
    · exact ih _

theorem advance_split (capture : JsonCapture) (text : List Char) :
    ∃ consumed, consumed ++ (capture.advance text).2.1 = text ∧ (capture.advance text).1.text = capture.text ++ consumed ∧
      ((capture.advance text).2.2 = true → '\x7d' ∈ consumed) := by
  induction text generalizing capture with
  | nil => exact ⟨[], rfl, (List.append_nil _).symm, nofun⟩
  | cons c text ih =>
    rw [advance_cons]
    split
    · rename_i hcloses
      exact ⟨[c], rfl, next_text capture c, fun _ => next_closes hcloses ▸ List.mem_singleton_self c⟩
    · obtain ⟨consumed, htext, hcapture, hbrace⟩ := ih (capture.next c).1
      refine ⟨c :: consumed, congrArg (c :: ·) htext, ?_, fun hclosed => List.mem_cons_of_mem c (hbrace hclosed)⟩
      rw [hcapture, next_text, List.append_assoc, List.singleton_append]

theorem advance_open {capture : JsonCapture} {text : List Char} (h : (capture.advance text).2.2 = false) :
    (capture.advance text).2.1 = [] := by
  induction text generalizing capture with
  | nil => rfl
  | cons c text ih =>
    rw [advance_cons] at h ⊢
    split at h
    · exact nomatch h
    · rename_i hopen
      rw [if_neg hopen]
      exact ih h

theorem advance_unclosed {text : List Char} (h : '\x7d' ∉ text) (capture : JsonCapture) : (capture.advance text).2.2 = false := by
  induction text generalizing capture with
  | nil => rfl
  | cons c text ih =>
    rw [advance_cons]
    split
    · rename_i hcloses
      exact absurd (next_closes hcloses ▸ List.mem_cons_self) h
    · exact ih (fun hmem => h (List.mem_cons_of_mem _ hmem)) _

theorem advance_closed {capture : JsonCapture} {text : List Char} (h : (capture.advance text).2.2 = true) :
    (capture.advance text).2.1.length < text.length := by
  induction text generalizing capture with
  | nil => exact nomatch h
  | cons c text ih =>
    rw [advance_cons] at h ⊢
    split
    · exact Nat.lt_succ_self _
    · rename_i hopen
      rw [if_neg hopen] at h
      exact Nat.lt_succ_of_lt (ih h)

end JsonCapture

/-! ## The markers of a format -/

/-- A format that detection builds, of bare JSON. -/
structure DetectedBare (format : ChatFormat) : Prop where
  tools : format.tools.isLlamaJson = true
  detected : ∃ hasToken template, format.reasoning = detectReasoning hasToken template ∧ format.tools = detectTools hasToken template

def bareTools : List ToolSyntax := [.llamaJson none, .llamaJson (some "<|python_tag|>")]

theorem detectTools_bare {hasToken : String → Bool} {template : String}
    (h : (detectTools hasToken template).isLlamaJson = true) : detectTools hasToken template ∈ bareTools := by
  revert h
  unfold detectTools bareTools ToolSyntax.isLlamaJson
  split_ifs <;> simp

def unbraced (c : Char) : Bool := !isWhitespace c && c != '\x7b' && c != '\x7d'

theorem unbraced_iff {c : Char} : unbraced c = true ↔ isWhitespace c = false ∧ c ≠ '\x7b' ∧ c ≠ '\x7d' := by
  unfold unbraced
  rw [Bool.and_eq_true, Bool.and_eq_true, bne_iff_ne, bne_iff_ne, Bool.not_eq_true', and_assoc]

/-- The markers of bare JSON: what they do where they mean something, and that they have neither blanks nor braces. -/
structure BareTable (table : MarkerTable) (word : List Char) : Prop where
  content : Separated Marker.text table.content
  thinking : Separated Marker.text table.thinking
  contentActions : ∀ m ∈ table.content, m.action = .openReasoning ∨ m.action = .strayClose ∨ m.action = .openPython
  thinkingActions : ∀ m ∈ table.thinking, m.action = .closeReasoning
  chars : ∀ m ∈ table.content ++ table.thinking, ∀ c ∈ m.text, unbraced c = true
  word : ∀ c ∈ word, unbraced c = true

theorem bareTable_of_detected : ∀ reasoning ∈ detectedReasonings, ∀ tools ∈ bareTools,
    let table := Grammar.markersOf ⟨[], reasoning, tools, [], false⟩
    (Separated Marker.text table.content ∧ Separated Marker.text table.thinking) ∧
      (∀ m ∈ table.content, m.action = .openReasoning ∨ m.action = .strayClose ∨ m.action = .openPython) ∧
      (∀ m ∈ table.thinking, m.action = .closeReasoning) ∧
      (∀ m ∈ table.content ++ table.thinking, m.text.all unbraced = true) ∧
      (headerWordOf ⟨[], reasoning, tools, [], false⟩).all unbraced = true := by
  decide +kernel

theorem DetectedBare.table {format : ChatFormat} (h : DetectedBare format) :
    BareTable (Grammar.markersOf format) (headerWordOf format) := by
  obtain ⟨htools, hasToken, template, hreasoning, hdetected⟩ := h
  obtain ⟨⟨hcontent, hthinking⟩, hopen, hclose, hchars, hword⟩ := bareTable_of_detected format.reasoning
    (hreasoning ▸ detectReasoning_mem hasToken template) format.tools
    (hdetected ▸ detectTools_bare (hdetected ▸ htools))
  exact ⟨hcontent, hthinking, hopen, hclose, fun m hm => List.all_eq_true.mp (hchars m hm), List.all_eq_true.mp hword⟩

/-! ## A grammar of bare JSON -/

/-- A grammar of the format. -/
structure Bare (format : ChatFormat) (g : Grammar) : Prop where
  ofFormat : g.format = format
  markers : g.markers = Grammar.markersOf format
  word : g.headerWord = headerWordOf format
  state : ∀ body, g.state ≠ .toolCall body

variable {format : ChatFormat} {g : Grammar}

theorem Bare.of_eq {g' : Grammar} (h : Bare format g) (hformat : g'.format = g.format) (hmarkers : g'.markers = g.markers)
    (hword : g'.headerWord = g.headerWord) (hstate : ∀ body, g'.state ≠ .toolCall body) : Bare format g' :=
  ⟨hformat.trans h.ofFormat, hmarkers.trans h.markers, hword.trans h.word, hstate⟩

theorem Bare.separated (h : Bare format g) (htable : BareTable (Grammar.markersOf format) (headerWordOf format)) :
    Separated Marker.text g.activeMarkers := by
  unfold Grammar.activeMarkers
  rw [h.markers]
  split
  · exact htable.content
  · exact htable.thinking
  · exact htable.thinking
  · rename_i body hstate
    exact absurd hstate (h.state body)
  · exact ⟨nofun, nofun⟩
  · exact ⟨nofun, nofun⟩

theorem Bare.chars (h : Bare format g) (htable : BareTable (Grammar.markersOf format) (headerWordOf format)) :
    ∀ m ∈ g.activeMarkers, ∀ c ∈ m.text, unbraced c = true := by
  unfold Grammar.activeMarkers
  rw [h.markers]
  intro m hm
  split at hm
  · exact htable.chars m (List.mem_append_left _ hm)
  · exact htable.chars m (List.mem_append_right _ hm)
  · exact htable.chars m (List.mem_append_right _ hm)
  · rename_i body hstate
    exact absurd hstate (h.state body)
  · exact absurd hm List.not_mem_nil
  · exact absurd hm List.not_mem_nil

/-! ## Where a text stands -/

/-- `fresh` is the beginning of the answer, where one space may still be dropped; `opened` is behind reasoning, where blanks are. In both a
candidate may begin. -/
inductive Place where
  | fresh (strip : Bool)
  | opened
  | answer
  | reasoning
  | python
  deriving DecidableEq, Repr

namespace Place

def start (format : ChatFormat) (startInThinking : Bool) : Place :=
  if startInThinking && format.reasoning.isSome then .reasoning else .fresh format.stripLeadingSpace

/-- The markers that mean something here. -/
def markers (table : MarkerTable) : Place → List Marker
  | fresh _ | opened | answer => table.content
  | reasoning => table.thinking
  | python => []

/-- The text begins a candidate. -/
def begins (text : List Char) : Place → Bool
  | fresh _ | opened => (text.dropWhile isWhitespace).head? = some '\x7b'
  | _ => false

def closes (text : List Char) (place : Place) : Bool :=
  !place.begins text || (JsonCapture.empty.advance (text.dropWhile isWhitespace)).2.2

/-- No blanks stand before answer text at the beginning, but for the one space. -/
def flush (text : List Char) : Place → Bool
  | fresh strip => (stripped strip text).head?.all (fun c => !isWhitespace c) || (text.dropWhile isWhitespace).isEmpty ||
      (fresh strip).begins text
  | _ => true

/-- Behind a text without markers. -/
def behind (text : List Char) : Place → Place
  | fresh strip => if (text.dropWhile isWhitespace).isEmpty then fresh (strip && text.isEmpty) else answer
  | opened => if (text.dropWhile isWhitespace).isEmpty then opened else answer
  | place => place

/-- Behind a marker. -/
def pass : Action → Place → Place
  | .openReasoning, _ => reasoning
  | .closeReasoning, _ => opened
  | .openPython, _ => python
  | _, place => place

end Place

/-- **The cuts of a text** make no difference to its reading: each candidate is closed before the next marker, unless there is none, and
no blanks stand before answer text at the beginning, unless it may still become a marker when the text ends. No marker is empty; the test
of the lengths only says so. -/
def steady (table : MarkerTable) (place : Place) (text : List Char) : Bool :=
  match earliest Marker.text (place.markers table) text with
  | some (pos, found) =>
    let rest := text.drop (pos + found.text.length)
    place.flush (text.take pos) && place.closes (text.take pos) &&
      (if rest.length < text.length then steady table ((place.behind (text.take pos)).pass found.action) rest else true)
  | none => place.flush text || (place.markers table).any fun m => (text.dropWhile isWhitespace).isPrefixOf m.text
termination_by text.length
decreasing_by assumption

section
variable {table : MarkerTable} {place : Place} {text : List Char}

theorem steady_some (hsep : Separated Marker.text (place.markers table)) {pos : Nat} {found : Marker}
    (hfound : earliest Marker.text (place.markers table) text = some (pos, found)) :
    steady table place text = true ↔ (place.flush (text.take pos) = true ∧ place.closes (text.take pos) = true) ∧
      steady table ((place.behind (text.take pos)).pass found.action) (text.drop (pos + found.text.length)) = true := by
  obtain ⟨hmem, hat, -⟩ := earliest_some hfound
  have hlength := hat.length_le
  have hpos := List.length_pos_of_ne_nil (hsep.nonempty found hmem)
  have hshorter : (text.drop (pos + found.text.length)).length < text.length := by
    rw [List.length_drop]
    omega
  rw [steady, hfound]
  dsimp only
  rw [if_pos hshorter, Bool.and_eq_true, Bool.and_eq_true]

theorem steady_none (hfound : earliest Marker.text (place.markers table) text = none) :
    steady table place text = true ↔ place.flush text = true ∨ ∃ m ∈ place.markers table, text.dropWhile isWhitespace <+: m.text := by
  rw [steady, hfound]
  dsimp only
  rw [Bool.or_eq_true, List.any_eq_true]
  simp only [List.isPrefixOf_iff_prefix]

theorem dropWhile_append_blank {a : List Char} (h : a.dropWhile isWhitespace = []) (b : List Char) :
    (a ++ b).dropWhile isWhitespace = b.dropWhile isWhitespace := by
  rw [List.dropWhile_append, h, if_pos List.isEmpty_nil]

theorem dropWhile_append_text {a : List Char} (h : a.dropWhile isWhitespace ≠ []) (b : List Char) :
    (a ++ b).dropWhile isWhitespace = a.dropWhile isWhitespace ++ b := by
  rw [List.dropWhile_append, if_neg (by simpa using h)]

theorem stripped_append (strip : Bool) {a : List Char} (h : a ≠ []) (b : List Char) : stripped strip (a ++ b) = stripped strip a ++ b := by
  obtain ⟨c, a, rfl⟩ := List.exists_cons_of_ne_nil h
  unfold stripped
  rw [List.cons_append, List.head?_cons, List.head?_cons]
  split <;> rfl

theorem dropWhile_stripped (strip : Bool) (text : List Char) :
    (stripped strip text).dropWhile isWhitespace = text.dropWhile isWhitespace := by
  unfold stripped
  split
  · rename_i h
    rw [Bool.and_eq_true, decide_eq_true_eq] at h
    obtain ⟨rest, rfl⟩ := List.head?_eq_some_iff.mp h.2
    rw [List.tail_cons, List.dropWhile_cons_of_pos (by decide)]
  · rfl

theorem behind_blank {a : List Char} (h : a.dropWhile isWhitespace = []) (strip : Bool) :
    (Place.fresh strip).behind a = .fresh (strip && a.isEmpty) ∧ Place.opened.behind a = .opened := by
  refine ⟨?_, ?_⟩
  · rw [Place.behind, h, if_pos List.isEmpty_nil]
  · rw [Place.behind, h, if_pos List.isEmpty_nil]

theorem behind_text {a : List Char} (h : a.dropWhile isWhitespace ≠ []) (strip : Bool) :
    (Place.fresh strip).behind a = .answer ∧ Place.opened.behind a = .answer := by
  have ha : ¬ (a.dropWhile isWhitespace).isEmpty = true := by simpa using h
  refine ⟨?_, ?_⟩
  · rw [Place.behind, if_neg ha]
  · rw [Place.behind, if_neg ha]

theorem behind_append (a b : List Char) : place.behind (a ++ b) = (place.behind a).behind b := by
  by_cases hblank : a.dropWhile isWhitespace = []
  · have hbody := dropWhile_append_blank hblank b
    cases place with
    | fresh strip =>
      have hempty : (a ++ b).isEmpty = (a.isEmpty && b.isEmpty) := by cases a <;> rfl
      rw [(behind_blank hblank strip).1, Place.behind, Place.behind, hbody, hempty, Bool.and_assoc]
    | opened => rw [(behind_blank hblank true).2, Place.behind, Place.behind, hbody]
    | _ => rfl
  · have hbody : (a ++ b).dropWhile isWhitespace ≠ [] := by
      rw [dropWhile_append_text hblank]
      exact List.append_ne_nil_of_left_ne_nil hblank b
    cases place with
    | fresh strip => rw [(behind_text hblank strip).1, (behind_text hbody strip).1]; rfl
    | opened => rw [(behind_text hblank true).2, (behind_text hbody true).2]; rfl
    | _ => rfl

theorem behind_nil : place.behind [] = place := by
  cases place with
  | fresh strip => cases strip <;> rfl
  | _ => rfl

theorem behind_markers (a : List Char) : (place.behind a).markers table = place.markers table := by
  by_cases hblank : a.dropWhile isWhitespace = []
  · cases place with
    | fresh strip => rw [(behind_blank hblank strip).1]; rfl
    | opened => rw [(behind_blank hblank true).2]
    | _ => rfl
  · cases place with
    | fresh strip => rw [(behind_text hblank strip).1]; rfl
    | opened => rw [(behind_text hblank true).2]; rfl
    | _ => rfl

theorem begins_append (a b : List Char) (h : a.dropWhile isWhitespace = []) : place.begins (a ++ b) = (place.behind a).begins b := by
  cases place with
  | fresh strip => rw [(behind_blank h strip).1, Place.begins, Place.begins, dropWhile_append_blank h]
  | opened => rw [(behind_blank h true).2, Place.begins, Place.begins, dropWhile_append_blank h]
  | _ => rfl

theorem begins_behind {a : List Char} (h : a.dropWhile isWhitespace ≠ []) (b : List Char) :
    (place.behind a).begins b = false ∧ (place.behind a).flush b = true := by
  cases place with
  | fresh strip => rw [(behind_text h strip).1]; exact ⟨rfl, rfl⟩
  | opened => rw [(behind_text h true).2]; exact ⟨rfl, rfl⟩
  | _ => exact ⟨rfl, rfl⟩

theorem closes_append (a b : List Char) (h : place.closes (a ++ b) = true) : (place.behind a).closes b = true := by
  unfold Place.closes at *
  by_cases hblank : a.dropWhile isWhitespace = []
  · rwa [begins_append a b hblank, dropWhile_append_blank hblank] at h
  · rw [(begins_behind hblank b).1]
    rfl

theorem stripped_eq_nil {strip : Bool} {a b : List Char} (hblank : a.dropWhile isWhitespace = [])
    (hhead : ((stripped strip a ++ b).head?.all fun c => !isWhitespace c) = true) : stripped strip a = [] := by
  rcases hrest : stripped strip a with _ | ⟨c, rest⟩
  · rfl
  · have hwhite : isWhitespace c = true := by
      have hdrop := dropWhile_stripped strip a
      rw [hblank, hrest] at hdrop
      by_contra hnot
      rw [List.dropWhile_cons_of_neg hnot] at hdrop
      exact absurd hdrop (List.cons_ne_nil c rest)
    rw [hrest, List.cons_append, List.head?_cons, Option.all_some, hwhite] at hhead
    exact absurd hhead (by decide)

theorem flush_append (a b : List Char) (h : place.flush (a ++ b) = true) : (place.behind a).flush b = true := by
  by_cases hblank : a.dropWhile isWhitespace = []
  · cases place with
    | fresh strip =>
      rcases eq_or_ne a [] with rfl | ha
      · rwa [behind_nil]
      have hbehind := (behind_blank hblank strip).1
      rw [show a.isEmpty = false by simpa using ha, Bool.and_false] at hbehind
      rw [Place.flush, dropWhile_append_blank hblank, begins_append a b hblank, hbehind, stripped_append strip ha,
        Bool.or_eq_true, Bool.or_eq_true] at h
      rw [hbehind, Place.flush, Bool.or_eq_true, Bool.or_eq_true]
      refine h.imp (Or.imp (fun hhead => ?_) id) id
      rwa [stripped_eq_nil hblank hhead] at hhead
    | opened => rw [(behind_blank hblank true).2]; rfl
    | _ => rfl
  · exact (begins_behind hblank b).2

theorem flush_prefix (a b : List Char) (h : place.flush (a ++ b) = true) : place.flush a = true := by
  cases place with
  | fresh strip =>
    rcases eq_or_ne a [] with rfl | ha
    · cases strip <;> rfl
    rw [Place.flush, Place.begins, stripped_append strip ha, Bool.or_eq_true, Bool.or_eq_true, decide_eq_true_eq, List.isEmpty_iff] at h
    rw [Place.flush, Place.begins, Bool.or_eq_true, Bool.or_eq_true, decide_eq_true_eq, List.isEmpty_iff]
    by_cases hblank : a.dropWhile isWhitespace = []
    · exact .inl (.inr hblank)
    · rw [dropWhile_append_text hblank] at h
      rcases h with (hhead | hnil) | hcandidate
      · rcases hrest : stripped strip a with _ | ⟨c, rest⟩
        · exact .inl (.inl rfl)
        · rw [hrest] at hhead
          exact .inl (.inl hhead)
      · exact absurd (List.append_eq_nil_iff.mp hnil).1 hblank
      · rw [List.head?_append_of_ne_nil _ hblank] at hcandidate
        exact .inr hcandidate
  | _ => rfl

theorem flush_extend {a : List Char} (hbody : a.dropWhile isWhitespace ≠ []) (b : List Char) (h : place.flush a = true) :
    place.flush (a ++ b) = true := by
  cases place with
  | fresh strip =>
    have ha : a ≠ [] := by
      rintro rfl
      exact hbody rfl
    rw [Place.flush, Place.begins, Bool.or_eq_true, Bool.or_eq_true, decide_eq_true_eq, List.isEmpty_iff] at h
    rw [Place.flush, Place.begins, stripped_append strip ha, dropWhile_append_text hbody, Bool.or_eq_true, Bool.or_eq_true,
      decide_eq_true_eq, List.isEmpty_iff, List.head?_append_of_ne_nil _ hbody]
    rcases h with (hhead | hnil) | hcandidate
    · rcases hrest : stripped strip a with _ | ⟨c, rest⟩
      · have hdrop := dropWhile_stripped strip a
        rw [hrest] at hdrop
        exact absurd hdrop.symm hbody
      · rw [hrest] at hhead
        exact .inl (.inl hhead)
    · exact absurd hnil hbody
    · exact .inr hcandidate
  | _ => rfl

theorem flush_kept (hfound : earliest Marker.text (place.markers table) text = none) (h : steady table place text = true) :
    place.flush (text.take (text.length - partialSuffix Marker.text (place.markers table) text)) = true := by
  rcases (steady_none hfound).mp h with hflush | ⟨m, hm, hbody⟩
  · rw [← List.take_append_drop (text.length - partialSuffix Marker.text (place.markers table) text) text] at hflush
    exact flush_prefix _ _ hflush
  · -- all that may become the marker is kept back, and only blanks are not
    have hsplit : text.takeWhile isWhitespace ++ text.dropWhile isWhitespace = text := List.takeWhile_append_dropWhile
    have hlength := congrArg List.length hsplit
    rw [List.length_append] at hlength
    have hproper : (text.dropWhile isWhitespace).length < m.text.length := by
      refine lt_of_le_of_ne hbody.length_le fun heq => ?_
      have hwhole := hbody.eq_of_length heq
      refine earliest_eq_none_iff.mp hfound m hm (text.takeWhile isWhitespace).length ⟨by omega, ?_⟩
      rw [drop_takeWhile, hwhole]
    have hmost := (partialSuffix_eq_iff.mp (Eq.refl (partialSuffix Marker.text (place.markers table) text))).2 m hm
      (text.dropWhile isWhitespace).length hproper (by omega) (by
        rw [← List.prefix_iff_eq_take.mp hbody]
        exact List.dropWhile_suffix _)
    have hblank : (text.take (text.length - partialSuffix Marker.text (place.markers table) text)).dropWhile isWhitespace = [] := by
      rw [List.dropWhile_eq_nil_iff]
      intro c hc
      have hbeginning : text.take (text.length - partialSuffix Marker.text (place.markers table) text) <+: text.takeWhile isWhitespace := by
        refine List.prefix_of_prefix_length_le (List.take_prefix _ _) (List.takeWhile_prefix _) ?_
        rw [List.length_take]
        omega
      exact List.mem_takeWhile_imp (hbeginning.subset hc)
    cases place with
    | fresh strip =>
      rw [Place.flush, hblank, List.isEmpty_nil, Bool.or_true, Bool.true_or]
    | _ => rfl

/-- **What is behind the first part** of a steady text is steady. -/
theorem steady_append (hsep : Separated Marker.text (place.markers table)) (a b : List Char)
    (hmarker : earliest Marker.text (place.markers table) (a ++ b) =
      (earliest Marker.text (place.markers table) b).map fun hit => (hit.1 + a.length, hit.2))
    (h : steady table place (a ++ b) = true) : steady table (place.behind a) b = true := by
  have hsep' : Separated Marker.text ((place.behind a).markers table) := by rwa [behind_markers]
  rcases hfound : earliest Marker.text (place.markers table) b with _ | ⟨pos, found⟩
  · rw [hfound] at hmarker
    rw [steady_none hmarker] at h
    rw [steady_none (by rwa [behind_markers]), behind_markers]
    rcases h with hflush | ⟨m, hm, hbeginning⟩
    · exact .inl (flush_append a b hflush)
    · by_cases hblank : a.dropWhile isWhitespace = []
      · rw [dropWhile_append_blank hblank] at hbeginning
        exact .inr ⟨m, hm, hbeginning⟩
      · exact .inl (begins_behind hblank b).2
  · rw [hfound] at hmarker
    rw [steady_some hsep hmarker, take_seam, drop_seam, behind_append] at h
    rw [steady_some hsep' (by rwa [behind_markers])]
    exact ⟨⟨flush_append _ _ h.1.1, closes_append _ _ h.1.2⟩, h.2⟩

end

/-- Where the grammar stands. -/
def Grammar.place (g : Grammar) : Place :=
  match g.state with
  | .content => if g.jsonCallWindow then (if g.trimLeadingWs then .opened else .fresh g.stripOneSpace) else .answer
  | .header _ | .thinking => .reasoning
  | _ => .python

theorem Bare.activeMarkers (h : Bare format g) : g.activeMarkers = g.place.markers (Grammar.markersOf format) := by
  unfold Grammar.activeMarkers Grammar.place
  rw [h.markers]
  rcases hstate : g.state with _ | header | _ | body | body | capture
  · dsimp only
    split_ifs <;> rfl
  · rfl
  · rfl
  · exact absurd hstate (h.state body)
  · rfl
  · rfl

end Cuca.Local
