import Cuca.Local.Calls
import Cuca.Local.OutputSteady

/-!
# What is seen of an output

However its blocks are cut, an output shows one run of symbols: the characters of its answer text, and something else in between. Braces
are never trimmed and stand in no marker, so an output shows no more characters before the first brace than its text has there.

* `symbols` : what is seen, which merging does not change (`Same.symbols_eq`);
* `lead`, `Shows` : what is seen before the first brace;
* `lead_reading` : it is no more than the text has there.
-/

namespace Cuca.Local
open Markers Sse

/-! ## Symbols -/

/-- A character of answer text, or `none` for anything else; reasoning is seen character by character. -/
def symbolsOf : Item → List (Option Char)
  | .ok (.text s) => s.toList.map some
  | .ok (.thinking s none) => s.toList.map fun _ => none
  | _ => [none]

def symbols (items : List Item) : List (Option Char) := items.flatMap symbolsOf

theorem symbols_append (a b : List Item) : symbols (a ++ b) = symbols a ++ symbols b := List.flatMap_append

theorem symbols_joinBlock (item : Item) (items : List Item) : symbols (joinBlock item items) = symbolsOf item ++ symbols items := by
  rcases items with _ | ⟨next, items⟩
  · rcases item with e | block
    · rfl
    · cases block with
      | thinking a signature => cases signature <;> rfl
      | _ => rfl
  · rcases item with e | block
    · rfl
    · cases block with
      | text a =>
        rcases next with e | next
        · rfl
        · cases next with
          | text b =>
            simp only [joinBlock, symbols, symbolsOf, List.flatMap_cons, String.toList_append, List.map_append, List.append_assoc]
          | _ => rfl
      | thinking a signature =>
        rcases signature with _ | signature
        · rcases next with e | next
          · rfl
          · cases next with
            | thinking b signature =>
              rcases signature with _ | signature
              · simp only [joinBlock, symbols, symbolsOf, List.flatMap_cons, String.toList_append, List.map_append, List.append_assoc]
              · rfl
            | _ => rfl
        · rfl
      | _ => rfl

theorem symbols_mergeBlocks (items : List Item) : symbols (mergeBlocks items) = symbols items := by
  induction items with
  | nil => rfl
  | cons item items ih =>
    have hcons : mergeBlocks (item :: items) = joinBlock item (mergeBlocks items) := rfl
    rw [hcons, symbols_joinBlock, ih]
    rfl

theorem Same.symbols_eq {items items' : List Item} (h : Same items items') : symbols items = symbols items' := by
  rw [← symbols_mergeBlocks, ← symbols_mergeBlocks items']
  exact congrArg symbols h

theorem symbols_textBlock (text : List Char) : symbols (textBlock text) = text.map some := by
  unfold textBlock symbols
  split
  · rename_i hempty
    rw [List.isEmpty_iff.mp hempty]
    rfl
  · rw [List.flatMap_singleton, symbolsOf, String.toList_ofList]

theorem symbols_thinkingBlock (text : List Char) : symbols (thinkingBlock text) = text.map fun _ => none := by
  unfold thinkingBlock symbols
  split
  · rename_i hempty
    rw [List.isEmpty_iff.mp hempty]
    rfl
  · rw [List.flatMap_singleton, symbolsOf, String.toList_ofList]

/-! ## Up to the first brace -/

def isBrace (c : Char) : Bool := c = '\x7b' || c = '\x7d'

theorem not_brace_of_blank {c : Char} (h : isWhitespace c = true) : isBrace c = false := by
  unfold isBrace
  by_contra hnot
  rw [Bool.not_eq_false, Bool.or_eq_true, decide_eq_true_eq, decide_eq_true_eq] at hnot
  rcases hnot with rfl | rfl
  · exact absurd h (by decide)
  · exact absurd h (by decide)

theorem not_brace_of_unbraced {c : Char} (h : unbraced c = true) : isBrace c = false := by
  obtain ⟨-, hopen, hclose⟩ := unbraced_iff.mp h
  unfold isBrace
  rw [decide_eq_false hopen, decide_eq_false hclose]
  rfl

/-- A character of answer text that is no brace. -/
def smooth : Option Char → Bool
  | some c => !isBrace c
  | none => false

def lead (seen : List (Option Char)) : Nat := (seen.takeWhile smooth).length

theorem lead_append_le (a b : List (Option Char)) : lead (a ++ b) ≤ lead a + lead b := by
  unfold lead
  rw [List.takeWhile_append]
  split
  · rename_i hall
    rw [List.length_append, hall]
  · exact Nat.le_add_right _ _

theorem lead_append_stop {a : List (Option Char)} (h : ∃ z ∈ a, smooth z = false) (b : List (Option Char)) : lead (a ++ b) = lead a := by
  unfold lead
  rw [List.takeWhile_append, if_neg]
  intro hall
  obtain ⟨z, hz, hstop⟩ := h
  have hwhole : a.takeWhile smooth = a := (List.takeWhile_prefix smooth).eq_of_length hall
  rw [← hwhole] at hz
  rw [List.mem_takeWhile_imp hz] at hstop
  exact absurd hstop (by decide)

theorem lead_append_smooth {a : List (Option Char)} (h : ∀ z ∈ a, smooth z = true) (b : List (Option Char)) :
    lead (a ++ b) = a.length + lead b := by
  unfold lead
  rw [List.takeWhile_append_of_pos h, List.length_append]

theorem lead_le_append (a b : List (Option Char)) : lead a ≤ lead (a ++ b) := by
  unfold lead
  rw [List.takeWhile_append]
  split
  · rename_i hall
    rw [List.length_append, hall]
    exact Nat.le_add_right _ _
  · exact Nat.le_refl _

theorem lead_stop {z : Option Char} (h : smooth z = false) (seen : List (Option Char)) : lead (z :: seen) = 0 := by
  unfold lead
  rw [List.takeWhile_cons_of_neg (by rw [h]; exact Bool.false_ne_true)]
  rfl

theorem stop_of_brace {text : List Char} (h : ∃ c ∈ text, isBrace c = true) : ∃ z ∈ text.map some, smooth z = false := by
  obtain ⟨c, hc, hbrace⟩ := h
  exact ⟨some c, List.mem_map_of_mem hc, by rw [smooth, hbrace]; rfl⟩

theorem smooth_of_unbraced {text : List Char} (h : ∀ c ∈ text, isBrace c = false) : ∀ z ∈ text.map some, smooth z = true := by
  intro z hz
  obtain ⟨c, hc, rfl⟩ := List.mem_map.mp hz
  rw [smooth, h c hc]
  rfl

/-- What is emitted for a text shows no more before a brace than the text has there, and shows that there is a brace. -/
structure Shows (items : List Item) (text : List Char) : Prop where
  lead_le : lead (symbols items) ≤ lead (text.map some)
  brace : (∃ c ∈ text, isBrace c = true) → ∃ z ∈ symbols items, smooth z = false

section
variable {items more : List Item} {text later : List Char}

theorem shows_of_stop {z : Option Char} {seen : List (Option Char)} (hseen : symbols items = z :: seen) (h : smooth z = false)
    (text : List Char) : Shows items text := by
  refine ⟨?_, fun _ => ⟨z, ?_, h⟩⟩
  · rw [hseen, lead_stop h]
    exact Nat.zero_le _
  · rw [hseen]
    exact List.mem_cons_self

theorem Shows.lead_append (h : Shows items text) (hmore : lead (symbols more) ≤ lead (later.map some)) :
    lead (symbols (items ++ more)) ≤ lead ((text ++ later).map some) := by
  rw [symbols_append, List.map_append]
  by_cases hbrace : ∃ c ∈ text, isBrace c = true
  · rw [lead_append_stop (h.brace hbrace), lead_append_stop (stop_of_brace hbrace)]
    exact h.lead_le
  · have hsmooth := smooth_of_unbraced fun c hc => eq_false_of_ne_true fun hc' => hbrace ⟨c, hc, hc'⟩
    have hwhole := h.lead_le
    rw [← List.append_nil (text.map some), lead_append_smooth hsmooth] at hwhole
    have hle := lead_append_le (symbols items) (symbols more)
    rw [lead_append_smooth hsmooth]
    have hzero : lead ([] : List (Option Char)) = 0 := rfl
    omega

theorem shows_textBlock {blanks shown : List Char} (htext : blanks ++ shown = text) (hblanks : ∀ c ∈ blanks, isBrace c = false) :
    Shows (textBlock shown) text := by
  rw [← htext]
  refine ⟨?_, ?_⟩
  · rw [symbols_textBlock, List.map_append, lead_append_smooth (smooth_of_unbraced hblanks)]
    exact Nat.le_add_left _ _
  · rintro ⟨c, hc, hbrace⟩
    rcases List.mem_append.mp hc with hc | hc
    · rw [hblanks c hc] at hbrace
      exact absurd hbrace Bool.false_ne_true
    · refine ⟨some c, ?_, by rw [smooth, hbrace]; rfl⟩
      rw [symbols_textBlock]
      exact List.mem_map_of_mem hc

theorem shows_other (hitems : ∀ z ∈ symbols items, z = none) (hsome : (∃ c ∈ text, isBrace c = true) → symbols items ≠ []) :
    Shows items text := by
  rcases hseen : symbols items with _ | ⟨z, seen⟩
  · refine ⟨?_, fun hbrace => absurd hseen (hsome hbrace)⟩
    rw [hseen]
    exact Nat.zero_le _
  · obtain rfl := hitems z (by rw [hseen]; exact List.mem_cons_self)
    exact shows_of_stop hseen rfl text

theorem shows_thinkingBlock {dropped shown : List Char} (htext : text ⊆ dropped ++ shown) (hdropped : ∀ c ∈ dropped, isBrace c = false) :
    Shows (thinkingBlock shown) text := by
  refine shows_other (fun z hz => ?_) ?_
  · rw [symbols_thinkingBlock] at hz
    obtain ⟨c, -, rfl⟩ := List.mem_map.mp hz
    rfl
  · rintro ⟨c, hc, hbrace⟩ hnil
    rw [symbols_thinkingBlock, List.map_eq_nil_iff] at hnil
    have hmem := htext hc
    rw [hnil, List.append_nil] at hmem
    rw [hdropped c hmem] at hbrace
    exact absurd hbrace Bool.false_ne_true

end

/-! ## What the grammar shows -/

section
variable (parse : CallParsers) (nextCallId : Nat → String) {format : ChatFormat} {g : Grammar} {text : List Char}

theorem trimPrefix_dropped (g : Grammar) (text : List Char) :
    ∃ blanks, blanks ++ (g.trimPrefix text).2 = text ∧ ∀ c ∈ blanks, isBrace c = false := by
  let r : Reader := ⟨.answer, g.trimLeadingWs, g.stripOneSpace⟩
  refine ⟨(r.trims text).1, ?_, fun c hc => not_brace_of_blank (trims_dropped r text c hc)⟩
  rw [trimPrefix_eq_trims (r := r) rfl rfl]
  exact trims_source r text

theorem shows_emitText (g : Grammar) (text : List Char) : Shows (g.emitText text).2 text := by
  obtain ⟨blanks, htext, hblanks⟩ := trimPrefix_dropped g text
  exact shows_textBlock htext hblanks

theorem shows_emitThinking (g : Grammar) {text dropped shown : List Char} (htext : text ⊆ dropped ++ shown)
    (hdropped : ∀ c ∈ dropped, isBrace c = false) : Shows (g.emitThinking shown).2 text := by
  obtain ⟨blanks, hshown, hblanks⟩ := trimPrefix_dropped g shown
  have hall : text ⊆ dropped ++ blanks ++ (g.trimPrefix shown).2 := by rwa [List.append_assoc, hshown]
  exact shows_thinkingBlock hall fun c hc => (List.mem_append.mp hc).elim (hdropped c) (hblanks c)

theorem headerBody_dropped (word header : List Char) (hword : ∀ c ∈ word, isBrace c = false) :
    ∃ dropped, dropped ++ headerBody word header = header ∧ ∀ c ∈ dropped, isBrace c = false := by
  unfold headerBody
  split
  · rename_i hbeginning
    obtain ⟨rest, rfl⟩ := List.isPrefixOf_iff_prefix.mp hbeginning
    refine ⟨word ++ rest.takeWhile headerSpaces.contains, ?_, fun c hc => ?_⟩
    · rw [List.drop_left, List.append_assoc, List.takeWhile_append_dropWhile]
    · rcases List.mem_append.mp hc with hc | hc
      · exact hword c hc
      · have hspace := List.mem_takeWhile_imp hc
        apply not_brace_of_blank
        rw [headerSpaces, List.contains_eq_mem, decide_eq_true_eq] at hspace
        simp only [List.mem_cons, List.not_mem_nil, or_false] at hspace
        rcases hspace with rfl | rfl | rfl <;> decide
  · exact ⟨[], rfl, fun c hc => absurd hc List.not_mem_nil⟩

theorem symbols_of_other {items : List Item} (h : ∀ item ∈ items, symbolsOf item = [none]) :
    symbols items = List.replicate items.length none := by
  induction items with
  | nil => rfl
  | cons item items ih =>
    rw [symbols, List.flatMap_cons, h item List.mem_cons_self, List.length_cons, List.replicate_succ, List.singleton_append]
    exact congrArg _ (ih fun item' hitem => h item' (List.mem_cons_of_mem _ hitem))

theorem symbols_emitCalls (g : Grammar) (calls : List (String × Value)) :
    symbols (g.emitCalls nextCallId calls).2 = List.replicate calls.length none := by
  unfold Grammar.emitCalls
  dsimp only
  rw [symbols_of_other, List.length_mapIdx]
  intro item hitem
  obtain ⟨i, hi, rfl⟩ := List.mem_mapIdx.mp hitem
  rfl

theorem shows_emitCalls (g : Grammar) {calls : List (String × Value)} (hcalls : calls ≠ []) (text : List Char) :
    Shows (g.emitCalls nextCallId calls).2 text := by
  obtain ⟨call, calls, rfl⟩ := List.exists_cons_of_ne_nil hcalls
  exact shows_of_stop (symbols_emitCalls nextCallId g _) rfl text

theorem open_candidate_head {capture : JsonCapture} (hstate : ∀ capture, g.state ≠ .jsonCall capture)
    (hopen : (g.route parse nextCallId text).1.state = .jsonCall capture) :
    ∃ captured, capture.text = '\x7b' :: captured ∧ (g.route parse nextCallId text).2 = [] := by
  obtain ⟨-, hhead, hunclosed, hroute⟩ := route_open parse nextCallId hstate hopen
  obtain ⟨consumed, hconsumed, htext, -⟩ := JsonCapture.advance_split JsonCapture.empty (text.dropWhile isWhitespace)
  rw [JsonCapture.advance_open hunclosed, List.append_nil] at hconsumed
  obtain ⟨captured, hcaptured⟩ := List.head?_eq_some_iff.mp hhead
  rw [hroute] at hopen ⊢
  refine ⟨captured, ?_, rfl⟩
  rw [← State.jsonCall.inj hopen, htext, hconsumed, hcaptured]
  rfl

section
variable (hparse : ∀ body requireArguments calls, parse.parseJsonCalls body requireArguments = .ok calls → calls ≠ [])
include hparse

theorem shows_finishPython (g : Grammar) {body : List Char} (htext : text <:+ body) : Shows (g.finishPython parse nextCallId body).2 text := by
  unfold Grammar.finishPython
  dsimp only
  split
  · rename_i hempty
    -- a body that is blank has no brace
    refine shows_other (fun z hz => absurd hz List.not_mem_nil) ?_
    have hblank : ∀ c ∈ body, isWhitespace c = true := by
      unfold trim at hempty
      rw [String.toList_ofList, List.isEmpty_iff, List.reverse_eq_nil_iff, List.dropWhile_eq_nil_iff] at hempty
      intro c hc
      rw [← @List.takeWhile_append_dropWhile _ isWhitespace body] at hc
      rcases List.mem_append.mp hc with hc | hc
      · exact List.mem_takeWhile_imp hc
      · exact hempty c (List.mem_reverse.mpr hc)
    rintro ⟨c, hc, hbrace⟩
    rw [not_brace_of_blank (hblank c (htext.subset hc))] at hbrace
    exact absurd hbrace Bool.false_ne_true
  · split
    · rename_i calls hcalls
      exact shows_emitCalls nextCallId g (hparse _ _ calls hcalls) text
    · exact shows_emitCalls nextCallId g (List.cons_ne_nil _ _) text

theorem symbols_completeJson (g : Grammar) (captured : List Char) :
    (∃ seen, symbols (g.completeJson parse nextCallId ('\x7b' :: captured)).2 = none :: seen) ∨
      symbols (g.completeJson parse nextCallId ('\x7b' :: captured)).2 = ('\x7b' :: captured).map some := by
  unfold Grammar.completeJson
  split
  · rename_i calls hcalls
    obtain ⟨call, calls, rfl⟩ := List.exists_cons_of_ne_nil (hparse _ _ calls hcalls)
    exact .inl ⟨_, symbols_emitCalls nextCallId g _⟩
  · right
    exact symbols_textBlock ('\x7b' :: captured)

theorem shows_finish (h : Bare format g) (htable : BareTable (Grammar.markersOf format) (headerWordOf format)) (hplain : Plain g)
    (text : List Char) : Shows (g.finish parse nextCallId text).2 text := by
  rcases hstate : g.state with _ | header | _ | body | body | capture
  · rw [finish_content _ _ (hplain.window hstate) hstate]
    exact shows_emitText g text
  · have hword : ∀ c ∈ g.headerWord, isBrace c = false := by
      rw [h.word]
      exact fun c hc => not_brace_of_unbraced (htable.word c hc)
    obtain ⟨dropped, htext, hdropped⟩ := headerBody_dropped g.headerWord (header ++ text) hword
    rw [finish_header _ _ hstate]
    refine shows_emitThinking _ ?_ hdropped
    rw [htext]
    exact List.subset_append_right header text
  · rw [finish_thinking _ _ hstate]
    exact shows_emitThinking g (List.Subset.refl text) fun c hc => absurd hc List.not_mem_nil
  · exact absurd hstate (h.state body)
  · rw [finish_pythonTag _ _ hstate]
    exact shows_finishPython parse nextCallId hparse _ (List.suffix_append body text)
  · exact absurd hstate (hplain.json capture)

theorem symbols_emitCandidate (g : Grammar) {body : List Char} (hhead : body.head? = some '\x7b')
    (hclosed : (JsonCapture.empty.advance body).2.2 = true) :
    ∃ z seen, symbols (g.emitCandidate parse nextCallId body).2 = z :: seen ∧ smooth z = false := by
  obtain ⟨consumed, hconsumed, htext, -⟩ := JsonCapture.advance_split JsonCapture.empty body
  have hshorter := JsonCapture.advance_closed hclosed
  have hbrace : ∃ captured, consumed = '\x7b' :: captured := by
    rcases consumed with _ | ⟨c, captured⟩
    · have hlength := congrArg List.length hconsumed
      rw [List.nil_append] at hlength
      omega
    · rw [← hconsumed, List.cons_append, List.head?_cons] at hhead
      exact ⟨captured, by rw [Option.some.inj hhead]⟩
  obtain ⟨captured, rfl⟩ := hbrace
  have hcaptured : (JsonCapture.empty.advance body).1.text = '\x7b' :: captured := htext
  unfold Grammar.emitCandidate
  dsimp only
  rw [if_pos hclosed, hcaptured, symbols_append]
  rcases symbols_completeJson parse nextCallId hparse g captured with ⟨seen, hseen⟩ | hseen
  · exact ⟨none, _, by rw [hseen]; rfl, rfl⟩
  · exact ⟨some '\x7b', _, by rw [hseen]; rfl, by decide⟩

theorem shows_route_window (hcontent : g.state = .content) (hwindow : g.jsonCallWindow = true)
    (hopen : ∀ capture, (g.route parse nextCallId text).1.state ≠ .jsonCall capture) : Shows (g.route parse nextCallId text).2 text := by
  rcases eq_or_ne text [] with rfl | htext
  · exact ⟨Nat.le_refl _, fun hbrace => absurd hbrace (by simp)⟩
  rw [route_window _ _ hcontent htext] at hopen ⊢
  by_cases hblank : text.dropWhile isWhitespace = []
  · rw [emitContent_blank _ _ hwindow htext hblank]
    have hall := List.dropWhile_eq_nil_iff.mp hblank
    exact @shows_textBlock text text [] (List.append_nil text) fun c hc => not_brace_of_blank (hall c hc)
  · by_cases hhead : (text.dropWhile isWhitespace).head? = some '\x7b'
    · rw [emitContent_candidate _ _ hwindow hhead] at hopen ⊢
      have hclosed : (JsonCapture.empty.advance (text.dropWhile isWhitespace)).2.2 = true := by
        by_contra hnot
        unfold Grammar.emitCandidate at hopen
        dsimp only at hopen
        rw [if_neg hnot] at hopen
        exact hopen _ rfl
      obtain ⟨z, seen, hseen, hstop⟩ := symbols_emitCandidate parse nextCallId hparse g.answering hhead hclosed
      exact shows_of_stop hseen hstop text
    · rw [emitContent_text _ _ hwindow hblank hhead]
      obtain ⟨blanks, hall, hblanks⟩ := trimPrefix_dropped g text
      rw [trimPrefix_text hblank] at hall
      exact shows_textBlock hall hblanks

theorem shows_upTo (h : Bare format g) (htable : BareTable (Grammar.markersOf format) (headerWordOf format))
    (hstate : ∀ capture, g.state ≠ .jsonCall capture) {pos : Nat} {found : Marker} (hfound : found ∈ g.activeMarkers)
    (hopen : ∀ capture, (g.route parse nextCallId (text.take pos)).1.state ≠ .jsonCall capture) :
    Shows (upTo parse nextCallId g text pos found).2 (text.take pos) := by
  obtain ⟨hopening, hstray, hclosing, -⟩ := apply_eq parse nextCallId hopen
  have hpython := apply_openPython parse nextCallId hopen
  unfold upTo
  dsimp only
  by_cases hcontent : g.state = .content
  · have haction : found.action = .openReasoning ∨ found.action = .strayClose ∨ found.action = .openPython := by
      unfold Grammar.activeMarkers at hfound
      rw [hcontent, h.markers] at hfound
      exact htable.contentActions found hfound
    have hnothing : ((g.route parse nextCallId (text.take pos)).1.apply parse nextCallId found.action).2 = [] := by
      rcases haction with heq | heq | heq
      · rw [heq, hopening]
      · rw [heq, hstray]
      · rw [heq, hpython]
    rw [hnothing, List.append_nil]
    by_cases hwindow : g.jsonCallWindow = true
    · exact shows_route_window parse nextCallId hparse hcontent hwindow hopen
    · rw [route_content _ _ (eq_false_of_ne_true hwindow) hcontent]
      exact shows_emitText g _
  · -- a marker that ends reasoning: what is held back of the header is decided as at the end
    have hplain : Plain g := ⟨fun hcontent' => absurd hcontent' hcontent, hstate⟩
    have hreasoning : g.state = .thinking ∨ ∃ header, g.state = .header header := by
      unfold Grammar.activeMarkers at hfound
      rcases hcases : g.state with _ | header | _ | body | body | capture
      · exact absurd hcases hcontent
      · exact .inr ⟨header, rfl⟩
      · exact .inl rfl
      · exact absurd hcases (h.state body)
      · rw [hcases] at hfound
        exact absurd hfound List.not_mem_nil
      · exact absurd hcases (hstate capture)
    have haction : found.action = .closeReasoning := by
      apply htable.thinkingActions
      unfold Grammar.activeMarkers at hfound
      rw [h.markers] at hfound
      rcases hreasoning with hcases | ⟨header, hcases⟩ <;> rwa [hcases] at hfound
    have hend : ((g.route parse nextCallId (text.take pos)).1.apply parse nextCallId found.action).2 =
        ((g.route parse nextCallId (text.take pos)).1.finish parse nextCallId []).2 := by
      obtain ⟨-, hplace⟩ := route_bare parse nextCallId h hstate (text.take pos)
      replace hplace := hplace hopen
      rw [place_reasoning.mpr hreasoning, show Place.reasoning.behind (text.take pos) = .reasoning from rfl] at hplace
      rw [haction, hclosing]
      rcases place_reasoning.mp hplace with hcases | ⟨header, hcases⟩
      · rw [finish_thinking _ _ hcases]
        dsimp only
        rw [resolveHeader_other (by rw [hcases]; exact nofun)]
        rfl
      · rw [finish_header _ _ hcases, List.append_nil]
        dsimp only
        rw [resolveHeader_eq hcases, Bool.not_true, Bool.and_false, if_neg Bool.false_ne_true]
    have hshows := shows_finish parse nextCallId hparse h htable hplain (text.take pos)
    have hsame := (finish_append parse nextCallId hplain (text.take pos) []).symbols_eq
    rw [List.append_nil, ← hend] at hsame
    exact ⟨hsame ▸ hshows.lead_le, fun hbrace => hsame ▸ hshows.brace hbrace⟩

theorem lead_finish (h : Bare format g) (htable : BareTable (Grammar.markersOf format) (headerWordOf format))
    (hstate : ∀ capture, g.state ≠ .jsonCall capture) (hkept : ∀ c ∈ text, isBrace c = false) :
    lead (symbols (g.finish parse nextCallId text).2) ≤ lead (text.map some) := by
  by_cases hplain : g.state = .content → g.jsonCallWindow = false
  · exact (shows_finish parse nextCallId hparse h htable ⟨hplain, hstate⟩ text).lead_le
  obtain ⟨hcontent, hwindow⟩ := Classical.not_imp.mp hplain
  replace hwindow := eq_true_of_ne_false hwindow
  have hfinish : g.finish parse nextCallId text = g.emitContent parse nextCallId text := by
    unfold Grammar.finish
    rw [hcontent]
  rcases eq_or_ne text [] with rfl | htext
  · have hnone : (g.emitContent parse nextCallId []).2 = [] := by
      unfold Grammar.emitContent
      rw [if_pos hwindow]
      rfl
    rw [hfinish, hnone]
    exact Nat.zero_le _
  · rw [hfinish, ← route_window _ _ hcontent htext]
    refine (shows_route_window parse nextCallId hparse hcontent hwindow fun capture hopen => ?_).lead_le
    obtain ⟨-, hhead, -, -⟩ := route_open parse nextCallId hstate hopen
    obtain ⟨rest, hrest⟩ := List.head?_eq_some_iff.mp hhead
    have hmem : '\x7b' ∈ text := (List.dropWhile_suffix isWhitespace).subset (hrest ▸ List.mem_cons_self)
    exact absurd (hkept _ hmem) (by decide)

/-- **No more characters are seen before the first brace** than the text has there. -/
theorem lead_reading (h : Bare format g) (htools : format.tools.isLlamaJson = true)
    (htable : BareTable (Grammar.markersOf format) (headerWordOf format)) (hstate : ∀ capture, g.state ≠ .jsonCall capture)
    (text : List Char) : lead (symbols (reading parse nextCallId g text)) ≤ lead (text.map some) := by
  induction hlength : text.length using Nat.strongRecOn generalizing g text with
  | ind n ih =>
    have hsep := h.separated htable
    rcases hfound : earliest Marker.text g.activeMarkers text with _ | ⟨pos, found⟩
    · have hkept := @kept_beginning _ _ _ Marker.text g.activeMarkers text
      rw [reading_none _ _ hstate hfound]
      dsimp only
      generalize text.length - partialSuffix Marker.text g.activeMarkers text = ready at hkept ⊢
      have hbraces : ∀ c ∈ text.drop ready, isBrace c = false := by
        intro c hc
        rcases hkept with hnil | ⟨m, hm, hbeginning⟩
        · rw [hnil] at hc
          exact absurd hc List.not_mem_nil
        · exact not_brace_of_unbraced (h.chars htable m hm c (hbeginning.subset hc))
      by_cases hopen : ∃ capture, (g.route parse nextCallId (text.take ready)).1.state = .jsonCall capture
      · obtain ⟨capture, hcapture⟩ := hopen
        obtain ⟨captured, hbrace, hitems⟩ := open_candidate_head parse nextCallId hstate hcapture
        rw [hitems, List.nil_append]
        unfold Grammar.finish
        rw [hcapture]
        dsimp only
        rw [symbols_textBlock, hbrace, List.cons_append, List.map_cons, lead_stop (by decide)]
        exact Nat.zero_le _
      · have hplain : ∀ capture, (g.route parse nextCallId (text.take ready)).1.state ≠ .jsonCall capture :=
          fun capture h => hopen ⟨capture, h⟩
        by_cases hwindow : g.state = .content → g.jsonCallWindow = false
        · have hshows := shows_finish parse nextCallId hparse h htable ⟨hwindow, hstate⟩ text
          have hsame := (finish_append parse nextCallId ⟨hwindow, hstate⟩ (text.take ready) (text.drop ready)).symbols_eq
          rw [List.take_append_drop] at hsame
          exact hsame ▸ hshows.lead_le
        · obtain ⟨hcontent, hwindow⟩ := Classical.not_imp.mp hwindow
          obtain ⟨hbare, -⟩ := route_bare parse nextCallId h hstate (text.take ready)
          have hle := (shows_route_window parse nextCallId hparse hcontent (eq_true_of_ne_false hwindow) hplain).lead_append
            (lead_finish parse nextCallId hparse hbare htable hplain hbraces)
          rwa [List.take_append_drop] at hle
    · obtain ⟨hmem, hat, -⟩ := earliest_some hfound
      rw [reading_some _ _ hsep hstate hfound]
      by_cases hopen : ∃ capture, (g.route parse nextCallId (text.take pos)).1.state = .jsonCall capture
      · obtain ⟨capture, hcapture⟩ := hopen
        obtain ⟨captured, hbrace, hitems⟩ := open_candidate_head parse nextCallId hstate hcapture
        have haction : found.action = .openReasoning ∨ found.action = .strayClose ∨ found.action = .openPython := by
          obtain ⟨⟨hcontent, -⟩, -⟩ := route_open parse nextCallId hstate hcapture
          unfold Grammar.activeMarkers at hmem
          rw [hcontent, h.markers] at hmem
          exact htable.contentActions found hmem
        unfold upTo
        dsimp only
        rw [hitems, List.nil_append, apply_open parse nextCallId hcapture haction, List.append_assoc, symbols_append, symbols_textBlock,
          hbrace, List.map_cons, List.cons_append, lead_stop (by decide)]
        exact Nat.zero_le _
      · have hplain : ∀ capture, (g.route parse nextCallId (text.take pos)).1.state ≠ .jsonCall capture :=
          fun capture h => hopen ⟨capture, h⟩
        obtain ⟨hbare, -, hnone⟩ := upTo_bare parse nextCallId h hstate htools htable hmem hplain
        have hrest := ih _ (hlength ▸ rest_shorter hsep hfound) hbare hnone (text.drop (pos + found.text.length)) rfl
        have hsmooth := smooth_of_unbraced fun c hc => not_brace_of_unbraced (h.chars htable found hmem c hc)
        have hmarked : text.drop pos = found.text ++ text.drop (pos + found.text.length) := by
          rw [← List.drop_drop]
          exact (List.prefix_iff_eq_append.mp hat.2).symm
        have hbehind : lead (symbols (reading parse nextCallId (upTo parse nextCallId g text pos found).1
            (text.drop (pos + found.text.length)))) ≤ lead ((text.drop pos).map some) := by
          rw [hmarked, List.map_append, lead_append_smooth hsmooth]
          omega
        have hle := (shows_upTo parse nextCallId hparse h htable hstate hmem hplain).lead_append hbehind
        rwa [List.take_append_drop] at hle

end

end

end Cuca.Local
