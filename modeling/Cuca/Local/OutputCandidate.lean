import Cuca.Local.OutputBare
import Mathlib.Data.List.DropRight

/-!
# Bare JSON in pieces

* `emitContent_blank`, `emitContent_text`, `emitContent_candidate` : what answer text does where a candidate may begin;
* `route_append_bare` : text without markers, over a seam;
* `reading`, `processHold_steady` : a steady text in pieces;
* `bare_divides` : so tokens may cut a steady text anywhere.
-/

namespace Cuca.Local
open Markers Sse

def Grammar.answering (g : Grammar) : Grammar := { g with stripOneSpace := false, trimLeadingWs := false, jsonCallWindow := false }

def Grammar.shown (g : Grammar) (text : List Char) : List Char :=
  if g.trimLeadingWs then text.dropWhile isWhitespace else stripped g.stripOneSpace text

section
variable (parse : CallParsers) (nextCallId : Nat → String)

/-- A candidate, as far as the text goes. -/
def Grammar.emitCandidate (g : Grammar) (text : List Char) : Grammar × List Item :=
  let scanned := JsonCapture.empty.advance text
  if scanned.2.2 then
    let done := g.completeJson parse nextCallId scanned.1.text
    ((done.1.emitText scanned.2.1).1, done.2 ++ (done.1.emitText scanned.2.1).2)
  else ({ g with state := .jsonCall scanned.1 }, [])

variable {format : ChatFormat} {g : Grammar} {text : List Char}

/-! ## Answer text where a candidate may begin -/

theorem head_dropWhile_ne_nil {c : Char} (h : (text.dropWhile isWhitespace).head? = some c) : text.dropWhile isWhitespace ≠ [] := by
  intro hnil
  rw [hnil] at h
  exact absurd h (by simp)

theorem trimPrefix_blank (htext : text ≠ []) (hblank : text.dropWhile isWhitespace = []) :
    (g.trimPrefix text).1 = { g with stripOneSpace := false } ∧ (g.trimPrefix text).2.dropWhile isWhitespace = [] := by
  rw [trimPrefix_of_ne g htext]
  unfold Grammar.trimWs
  dsimp only
  rw [dropWhile_stripped, hblank, if_pos List.isEmpty_nil]
  split
  · exact ⟨rfl, rfl⟩
  · exact ⟨rfl, (dropWhile_stripped _ text).trans hblank⟩

theorem trimPrefix_text (htext : text.dropWhile isWhitespace ≠ []) :
    g.trimPrefix text = ({ g with stripOneSpace := false, trimLeadingWs := false }, g.shown text) := by
  have hne : text ≠ [] := by
    rintro rfl
    exact htext rfl
  rw [trimPrefix_of_ne g hne]
  obtain ⟨format, markers, headerWord, state, trim, strip, window, callIds⟩ := g
  unfold Grammar.trimWs Grammar.shown
  dsimp only
  rw [dropWhile_stripped, if_neg (show ¬ (text.dropWhile isWhitespace).isEmpty = true by rwa [List.isEmpty_iff])]
  cases trim <;> rfl

theorem dropWhile_shown (g : Grammar) (text : List Char) : (g.shown text).dropWhile isWhitespace = text.dropWhile isWhitespace := by
  unfold Grammar.shown
  split
  · exact List.dropWhile_idempotent _ text
  · exact dropWhile_stripped _ text

theorem emitContent_blank (hwindow : g.jsonCallWindow = true) (htext : text ≠ []) (hblank : text.dropWhile isWhitespace = []) :
    g.emitContent parse nextCallId text = ({ g with stripOneSpace := false }, []) := by
  obtain ⟨hgrammar, hrest⟩ := @trimPrefix_blank g text htext hblank
  unfold Grammar.emitContent
  rw [if_pos hwindow]
  dsimp only
  rw [hrest, if_pos List.isEmpty_nil, hgrammar]

theorem emitContent_text (hwindow : g.jsonCallWindow = true) (htext : text.dropWhile isWhitespace ≠ [])
    (hhead : (text.dropWhile isWhitespace).head? ≠ some '\x7b') :
    g.emitContent parse nextCallId text = (g.answering, textBlock (g.shown text)) := by
  unfold Grammar.emitContent
  rw [if_pos hwindow, trimPrefix_text htext]
  dsimp only
  rw [dropWhile_shown, if_neg (by rwa [List.isEmpty_iff]), if_neg hhead]
  rfl

theorem emitContent_candidate (hwindow : g.jsonCallWindow = true) (hhead : (text.dropWhile isWhitespace).head? = some '\x7b') :
    g.emitContent parse nextCallId text = g.answering.emitCandidate parse nextCallId (text.dropWhile isWhitespace) := by
  have htext := head_dropWhile_ne_nil hhead
  unfold Grammar.emitContent Grammar.emitCandidate
  rw [if_pos hwindow, trimPrefix_text htext]
  dsimp only
  rw [dropWhile_shown, if_neg (by rwa [List.isEmpty_iff]), if_pos hhead]
  rfl

/-! ## Text without markers -/

theorem route_window (hstate : g.state = .content) (htext : text ≠ []) :
    g.route parse nextCallId text = g.emitContent parse nextCallId text := by
  unfold Grammar.route
  rw [if_neg (by rwa [List.isEmpty_iff]), hstate]

theorem completeJson_eq (g : Grammar) (text : List Char) :
    ∃ trim ids, (g.completeJson parse nextCallId text).1 = { g with trimLeadingWs := trim, callIds := ids } := by
  unfold Grammar.completeJson
  split
  · exact ⟨_, _, rfl⟩
  · exact ⟨g.trimLeadingWs, g.callIds, rfl⟩

theorem emitText_answering (hstrip : g.stripOneSpace = false) (htrim : g.trimLeadingWs = false) (text : List Char) :
    g.emitText text = (g, textBlock text) := by
  rw [emitText_eq, trimPrefix_unstripped hstrip, Grammar.trimWs, htrim, if_neg Bool.false_ne_true]

theorem shown_append {a : List Char} (h : a.dropWhile isWhitespace ≠ []) (b : List Char) : g.shown (a ++ b) = g.shown a ++ b := by
  have ha : a ≠ [] := by
    rintro rfl
    exact h rfl
  unfold Grammar.shown
  split
  · exact dropWhile_append_text h b
  · exact stripped_append _ ha b

theorem emitCandidate_closed (hclosed : (JsonCapture.empty.advance text).2.2 = true) :
    (g.answering.emitCandidate parse nextCallId text).1.state = g.state ∧
      (g.answering.emitCandidate parse nextCallId text).1.jsonCallWindow = false := by
  obtain ⟨trim, ids, hdone⟩ := completeJson_eq parse nextCallId g.answering (JsonCapture.empty.advance text).1.text
  unfold Grammar.emitCandidate
  dsimp only
  rw [if_pos hclosed]
  dsimp only
  rw [emitText_state, emitText_window, hdone]
  exact ⟨rfl, rfl⟩

theorem emitCandidate_append {a : List Char} (hclosed : (JsonCapture.empty.advance a).2.2 = true) (b : List Char) :
    (g.emitCandidate parse nextCallId (a ++ b)).1 = ((g.emitCandidate parse nextCallId a).1.emitText b).1 ∧
      Same (g.emitCandidate parse nextCallId (a ++ b)).2
        ((g.emitCandidate parse nextCallId a).2 ++ ((g.emitCandidate parse nextCallId a).1.emitText b).2) := by
  unfold Grammar.emitCandidate
  dsimp only
  rw [JsonCapture.advance_append, if_pos hclosed, if_pos hclosed]
  dsimp only
  obtain ⟨hgrammar, hitems⟩ := emitText_append (g.completeJson parse nextCallId (JsonCapture.empty.advance a).1.text).1
    (JsonCapture.empty.advance a).2.1 b
  rw [if_pos rfl, List.append_assoc]
  exact ⟨hgrammar, Same.append .rfl hitems⟩

theorem shown_flush {a b : List Char} (hwindow : g.jsonCallWindow = true) (hstate : g.state = .content) (ha : a ≠ [])
    (hblank : a.dropWhile isWhitespace = []) (hbody : b.dropWhile isWhitespace ≠ [])
    (hhead : (b.dropWhile isWhitespace).head? ≠ some '\x7b') (hflush : g.place.flush (a ++ b) = true) :
    g.shown (a ++ b) = { g with stripOneSpace := false }.shown b := by
  unfold Grammar.shown
  dsimp only
  split
  · exact dropWhile_append_blank hblank b
  · rename_i htrim
    have hplace : g.place = .fresh g.stripOneSpace := by
      unfold Grammar.place
      rw [hstate]
      dsimp only
      rw [if_pos hwindow, if_neg htrim]
    rw [hplace, Place.flush, Place.begins, dropWhile_append_blank hblank, stripped_append _ ha, Bool.or_eq_true, Bool.or_eq_true,
      decide_eq_true_eq, List.isEmpty_iff] at hflush
    rcases hflush with (hfirst | hnil) | hcandidate
    · rw [stripped_append _ ha, stripped_eq_nil hblank hfirst]
      rfl
    · exact absurd hnil hbody
    · exact absurd hcandidate hhead

/-- **Routing** text in two pieces, when no candidate is left open by the first. -/
theorem route_append_bare (hstate : ∀ capture, g.state ≠ .jsonCall capture) (a b : List Char)
    (hopen : ∀ capture, (g.route parse nextCallId a).1.state ≠ .jsonCall capture)
    (hflush : g.place.flush (a ++ b) = true ∨ b = []) :
    (g.route parse nextCallId (a ++ b)).1 = ((g.route parse nextCallId a).1.route parse nextCallId b).1 ∧
      Same (g.route parse nextCallId (a ++ b)).2
        ((g.route parse nextCallId a).2 ++ ((g.route parse nextCallId a).1.route parse nextCallId b).2) := by
  by_cases hplain : g.state = .content → g.jsonCallWindow = false
  · exact route_append parse nextCallId ⟨hplain, hstate⟩ a b
  obtain ⟨hcontent, hwindow⟩ := Classical.not_imp.mp hplain
  replace hwindow := eq_true_of_ne_false hwindow
  rcases eq_or_ne a [] with rfl | ha
  · exact ⟨rfl, .rfl⟩
  rcases eq_or_ne b [] with rfl | hb
  · rw [List.append_nil, route_nil, List.append_nil]
    exact ⟨rfl, .rfl⟩
  replace hflush := hflush.resolve_right hb
  rw [route_window _ _ hcontent ha] at hopen ⊢
  rw [route_window _ _ hcontent (List.append_ne_nil_of_left_ne_nil ha b)]
  by_cases hblank : a.dropWhile isWhitespace = []
  · rw [emitContent_blank _ _ hwindow ha hblank, route_window parse nextCallId (g := { g with stripOneSpace := false }) hcontent hb]
    by_cases hnone : b.dropWhile isWhitespace = []
    · rw [emitContent_blank _ _ hwindow (List.append_ne_nil_of_left_ne_nil ha b) ((dropWhile_append_blank hblank b).trans hnone),
        emitContent_blank parse nextCallId (g := { g with stripOneSpace := false }) hwindow hb hnone]
      exact ⟨rfl, .rfl⟩
    · by_cases hhead : (b.dropWhile isWhitespace).head? = some '\x7b'
      · rw [emitContent_candidate _ _ hwindow (by rwa [dropWhile_append_blank hblank]),
          emitContent_candidate parse nextCallId (g := { g with stripOneSpace := false }) hwindow hhead, dropWhile_append_blank hblank]
        exact ⟨rfl, .rfl⟩
      · rw [emitContent_text _ _ hwindow (by rwa [dropWhile_append_blank hblank]) (by rwa [dropWhile_append_blank hblank]),
          emitContent_text parse nextCallId (g := { g with stripOneSpace := false }) hwindow hnone hhead,
          shown_flush hwindow hcontent ha hblank hnone hhead hflush]
        exact ⟨rfl, .rfl⟩
  · have hbody := dropWhile_append_text hblank b
    have hhead' : ((a ++ b).dropWhile isWhitespace).head? = (a.dropWhile isWhitespace).head? := by
      rw [hbody, List.head?_append_of_ne_nil _ hblank]
    by_cases hhead : (a.dropWhile isWhitespace).head? = some '\x7b'
    · rw [emitContent_candidate _ _ hwindow hhead] at hopen ⊢
      rw [emitContent_candidate _ _ hwindow (hhead'.trans hhead), hbody]
      have hclosed : (JsonCapture.empty.advance (a.dropWhile isWhitespace)).2.2 = true := by
        by_contra hnot
        unfold Grammar.emitCandidate at hopen
        dsimp only at hopen
        rw [if_neg hnot] at hopen
        exact hopen _ rfl
      obtain ⟨hcontent', hwindow'⟩ := @emitCandidate_closed parse nextCallId g (a.dropWhile isWhitespace) hclosed
      rw [route_content _ _ hwindow' (hcontent'.trans hcontent)]
      exact emitCandidate_append parse nextCallId hclosed b
    · rw [emitContent_text _ _ hwindow hblank hhead,
        emitContent_text _ _ hwindow (hbody ▸ List.append_ne_nil_of_left_ne_nil hblank b) (hhead' ▸ hhead), shown_append hblank,
        route_content parse nextCallId (g := g.answering) rfl hcontent, emitText_answering rfl rfl]
      exact ⟨rfl, same_textBlock _ _⟩

/-! ## What stays as it was -/

theorem place_answer (hstate : g.state = .content) (hwindow : g.jsonCallWindow = false) : g.place = .answer := by
  unfold Grammar.place
  rw [hstate, hwindow]
  rfl

theorem place_window (hstate : g.state = .content) (hwindow : g.jsonCallWindow = true) :
    g.place = if g.trimLeadingWs then .opened else .fresh g.stripOneSpace := by
  unfold Grammar.place
  rw [hstate, hwindow]
  rfl

theorem window_of_place (h : (∃ strip, g.place = .fresh strip) ∨ g.place = .opened) : g.state = .content ∧ g.jsonCallWindow = true := by
  unfold Grammar.place at h
  rcases hstate : g.state with _ | header | _ | body | body | capture
  case content =>
    rw [hstate] at h
    dsimp only at h
    refine ⟨rfl, ?_⟩
    by_contra hwindow
    rw [if_neg hwindow] at h
    simp at h
  all_goals
    rw [hstate] at h
    simp at h

theorem place_reasoning : g.place = .reasoning ↔ g.state = .thinking ∨ ∃ header, g.state = .header header := by
  unfold Grammar.place
  rcases hstate : g.state with _ | header | _ | body | body | capture
  case content =>
    dsimp only
    split_ifs <;> simp
  all_goals simp

theorem route_open (hstate : ∀ capture, g.state ≠ .jsonCall capture) {a : List Char} {capture : JsonCapture}
    (hopen : (g.route parse nextCallId a).1.state = .jsonCall capture) :
    (g.state = .content ∧ g.jsonCallWindow = true) ∧ (a.dropWhile isWhitespace).head? = some '\x7b' ∧
      (JsonCapture.empty.advance (a.dropWhile isWhitespace)).2.2 = false ∧
      g.route parse nextCallId a =
        ({ g.answering with state := .jsonCall (JsonCapture.empty.advance (a.dropWhile isWhitespace)).1 }, []) := by
  rcases eq_or_ne a [] with rfl | ha
  · exact absurd hopen (hstate capture)
  rcases hcases : g.state with _ | header | _ | body | body | capture'
  · by_cases hwindow : g.jsonCallWindow = true
    · rw [route_window _ _ hcases ha] at hopen ⊢
      by_cases hblank : a.dropWhile isWhitespace = []
      · rw [emitContent_blank _ _ hwindow ha hblank] at hopen
        exact absurd (hcases.symm.trans hopen) (by simp)
      · by_cases hhead : (a.dropWhile isWhitespace).head? = some '\x7b'
        · rw [emitContent_candidate _ _ hwindow hhead] at hopen ⊢
          by_cases hclosed : (JsonCapture.empty.advance (a.dropWhile isWhitespace)).2.2 = true
          · rw [(emitCandidate_closed parse nextCallId hclosed).1] at hopen
            exact absurd (hcases.symm.trans hopen) (by simp)
          · refine ⟨⟨rfl, hwindow⟩, hhead, eq_false_of_ne_true hclosed, ?_⟩
            unfold Grammar.emitCandidate
            dsimp only
            rw [if_neg hclosed]
        · rw [emitContent_text _ _ hwindow hblank hhead] at hopen
          exact absurd (hcases.symm.trans hopen) (by simp)
    · rw [route_content _ _ (eq_false_of_ne_true hwindow) hcases, emitText_state] at hopen
      exact absurd hopen (hstate capture)
  · rw [route_header _ _ hcases ha] at hopen
    split at hopen
    · exact absurd hopen (by simp)
    · rw [emitThinking_state] at hopen
      exact absurd hopen (by simp)
  · rw [route_thinking _ _ hcases, emitThinking_state] at hopen
    exact absurd hopen (hstate capture)
  · rw [route_toolCall _ _ hcases] at hopen
    exact absurd hopen (by simp)
  · rw [route_pythonTag _ _ hcases] at hopen
    exact absurd hopen (by simp)
  · exact absurd hcases (hstate capture')

theorem trimPrefix_bare (h : Bare format g) (text : List Char) : Bare format (g.trimPrefix text).1 := by
  obtain ⟨trim, strip, heq⟩ := trimPrefix_eq g text
  rw [heq]
  exact h.of_eq rfl rfl rfl h.state

theorem route_bare (h : Bare format g) (hstate : ∀ capture, g.state ≠ .jsonCall capture) (a : List Char) :
    Bare format (g.route parse nextCallId a).1 ∧ ((∀ capture, (g.route parse nextCallId a).1.state ≠ .jsonCall capture) →
      (g.route parse nextCallId a).1.place = g.place.behind a) := by
  rcases eq_or_ne a [] with rfl | ha
  · rw [route_nil, behind_nil]
    exact ⟨h, fun _ => rfl⟩
  by_cases hopen : ∃ capture, (g.route parse nextCallId a).1.state = .jsonCall capture
  · obtain ⟨capture, hcapture⟩ := hopen
    obtain ⟨-, -, -, heq⟩ := route_open parse nextCallId hstate hcapture
    refine ⟨?_, fun hnot => absurd hcapture (hnot capture)⟩
    rw [heq]
    exact h.of_eq rfl rfl rfl (by simp)
  rcases hcases : g.state with _ | header | _ | body | body | capture'
  · by_cases hwindow : g.jsonCallWindow = true
    · have hplace := place_window hcases hwindow
      rw [route_window _ _ hcases ha] at hopen ⊢
      by_cases hblank : a.dropWhile isWhitespace = []
      · rw [emitContent_blank _ _ hwindow ha hblank]
        refine ⟨h.of_eq rfl rfl rfl h.state, fun _ => ?_⟩
        rw [hplace, place_window (g := { g with stripOneSpace := false }) hcases hwindow]
        dsimp only
        split
        · exact (behind_blank hblank true).2.symm
        · rw [(behind_blank hblank _).1, show a.isEmpty = false by simpa using ha, Bool.and_false]
      · have hbehind : g.place.behind a = .answer := by
          rw [hplace]
          split
          · exact (behind_text hblank true).2
          · exact (behind_text hblank _).1
        rw [hbehind]
        by_cases hhead : (a.dropWhile isWhitespace).head? = some '\x7b'
        · rw [emitContent_candidate _ _ hwindow hhead] at hopen ⊢
          by_cases hclosed : (JsonCapture.empty.advance (a.dropWhile isWhitespace)).2.2 = true
          · obtain ⟨hcontent, hfalse⟩ := @emitCandidate_closed parse nextCallId g (a.dropWhile isWhitespace) hclosed
            refine ⟨?_, fun _ => place_answer (hcontent.trans hcases) hfalse⟩
            obtain ⟨trim, ids, hdone⟩ := completeJson_eq parse nextCallId g.answering
              (JsonCapture.empty.advance (a.dropWhile isWhitespace)).1.text
            have hbare : Bare format { g.answering with trimLeadingWs := trim, callIds := ids } := h.of_eq rfl rfl rfl h.state
            unfold Grammar.emitCandidate
            dsimp only
            rw [if_pos hclosed, hdone]
            exact trimPrefix_bare hbare _
          · unfold Grammar.emitCandidate at hopen
            dsimp only at hopen
            rw [if_neg hclosed] at hopen
            exact absurd ⟨_, rfl⟩ hopen
        · rw [emitContent_text _ _ hwindow hblank hhead]
          exact ⟨h.of_eq rfl rfl rfl h.state, fun _ => place_answer hcases rfl⟩
    · replace hwindow := eq_false_of_ne_true hwindow
      rw [route_content _ _ hwindow hcases, place_answer hcases hwindow]
      exact ⟨trimPrefix_bare h a, fun _ => place_answer ((emitText_state g a).trans hcases) ((emitText_window g a).trans hwindow)⟩
  · have hplace : g.place = .reasoning := by
      unfold Grammar.place
      rw [hcases]
    have hthinking : Bare format { g with state := .thinking } := h.of_eq rfl rfl rfl (by simp)
    rw [route_header _ _ hcases ha, hplace]
    split
    · exact ⟨h.of_eq rfl rfl rfl (by simp), fun _ => rfl⟩
    · refine ⟨trimPrefix_bare hthinking _, fun _ => ?_⟩
      unfold Grammar.place
      rw [emitThinking_state]
      rfl
  · have hplace : g.place = .reasoning := by
      unfold Grammar.place
      rw [hcases]
    rw [route_thinking _ _ hcases, hplace]
    refine ⟨trimPrefix_bare h a, fun _ => ?_⟩
    unfold Grammar.place
    rw [emitThinking_state, hcases]
    rfl
  · exact absurd hcases (h.state body)
  · have hplace : g.place = .python := by
      unfold Grammar.place
      rw [hcases]
    rw [route_pythonTag _ _ hcases, hplace]
    exact ⟨h.of_eq rfl rfl rfl (by simp), fun _ => rfl⟩
  · exact absurd hcases (hstate capture')

theorem route_closes (hstate : ∀ capture, g.state ≠ .jsonCall capture) {a : List Char} (hcloses : g.place.closes a = true)
    (capture : JsonCapture) : (g.route parse nextCallId a).1.state ≠ .jsonCall capture := by
  intro hopen
  obtain ⟨⟨hcontent, hwindow⟩, hhead, hunclosed, -⟩ := route_open parse nextCallId hstate hopen
  have hbegins : g.place.begins a = true := by
    rw [place_window hcontent hwindow]
    split
    · exact decide_eq_true hhead
    · exact decide_eq_true hhead
  rw [Place.closes, hbegins, hunclosed] at hcloses
  exact absurd hcloses (by decide)

theorem apply_openPython (h : ∀ capture, g.state ≠ .jsonCall capture) :
    g.apply parse nextCallId .openPython = ({ g with state := .pythonTag [] }, []) := by
  unfold Grammar.apply
  rcases hstate : g.state with _ | header | _ | body | body | capture
  case jsonCall => exact absurd hstate (h capture)
  all_goals rfl

theorem apply_open {capture : JsonCapture} (h : g.state = .jsonCall capture) {action : Action}
    (haction : action = .openReasoning ∨ action = .strayClose ∨ action = .openPython) :
    g.apply parse nextCallId action = (({ g with state := .content }.apply parse nextCallId action).1,
      textBlock capture.text ++ ({ g with state := .content }.apply parse nextCallId action).2) := by
  rcases haction with rfl | rfl | rfl
  all_goals
    unfold Grammar.apply
    rw [h]
    dsimp only
    rw [List.append_nil]

theorem Bare.action (h : Bare format g) (htable : BareTable (Grammar.markersOf format) (headerWordOf format)) {found : Marker}
    (hfound : found ∈ g.activeMarkers) :
    (found.action = .openReasoning ∨ found.action = .strayClose ∨ found.action = .openPython) ∨ found.action = .closeReasoning := by
  rw [h.activeMarkers] at hfound
  cases hplace : g.place with
  | reasoning =>
    rw [hplace] at hfound
    exact .inr (htable.thinkingActions found hfound)
  | python =>
    rw [hplace] at hfound
    exact absurd hfound List.not_mem_nil
  | _ =>
    rw [hplace] at hfound
    exact .inl (htable.contentActions found hfound)

theorem resolveHeader_keeps (g : Grammar) (force : Bool) : (g.resolveHeader force).1.format = g.format ∧
    (g.resolveHeader force).1.markers = g.markers ∧ (g.resolveHeader force).1.headerWord = g.headerWord := by
  rcases hstate : g.state with _ | header | _ | body | body | capture
  case header =>
    rw [resolveHeader_eq hstate]
    split
    · exact ⟨rfl, rfl, rfl⟩
    · obtain ⟨trim, strip, heq⟩ := trimPrefix_eq { g with state := .thinking } (headerBody g.headerWord header)
      rw [emitThinking_eq, heq]
      exact ⟨rfl, rfl, rfl⟩
  all_goals
    rw [resolveHeader_other (by rw [hstate]; exact nofun)]
    exact ⟨rfl, rfl, rfl⟩

theorem apply_bare (h : Bare format g) (hstate : ∀ capture, g.state ≠ .jsonCall capture) (htools : format.tools.isLlamaJson = true)
    {action : Action} (haction : (action = .openReasoning ∨ action = .strayClose ∨ action = .openPython) ∨ action = .closeReasoning) :
    Bare format (g.apply parse nextCallId action).1 ∧ (g.apply parse nextCallId action).1.place = g.place.pass action ∧
      ∀ capture, (g.apply parse nextCallId action).1.state ≠ .jsonCall capture := by
  obtain ⟨hopening, hstray, hclosing, -⟩ := apply_eq parse nextCallId hstate
  rcases haction with (rfl | rfl | rfl) | rfl
  · rw [hopening]
    by_cases hword : g.headerWord.isEmpty = true
    · rw [if_pos hword]
      exact ⟨h.of_eq rfl rfl rfl (by simp), rfl, by simp⟩
    · rw [if_neg hword]
      exact ⟨h.of_eq rfl rfl rfl (by simp), rfl, by simp⟩
  · rw [hstray]
    exact ⟨h, rfl, hstate⟩
  · rw [apply_openPython parse nextCallId hstate]
    exact ⟨h.of_eq rfl rfl rfl (by simp), rfl, by simp⟩
  · obtain ⟨hformat, hmarkers, hword⟩ := resolveHeader_keeps g true
    rw [hclosing]
    refine ⟨h.of_eq hformat hmarkers hword (by simp), ?_, by simp⟩
    unfold Grammar.place
    dsimp only
    rw [hformat, h.ofFormat, htools]
    rfl

theorem upTo_bare (h : Bare format g) (hstate : ∀ capture, g.state ≠ .jsonCall capture) (htools : format.tools.isLlamaJson = true)
    (htable : BareTable (Grammar.markersOf format) (headerWordOf format)) {pos : Nat} {found : Marker}
    (hfound : found ∈ g.activeMarkers) (hopen : ∀ capture, (g.route parse nextCallId (text.take pos)).1.state ≠ .jsonCall capture) :
    Bare format (upTo parse nextCallId g text pos found).1 ∧
      (upTo parse nextCallId g text pos found).1.place = (g.place.behind (text.take pos)).pass found.action ∧
      ∀ capture, (upTo parse nextCallId g text pos found).1.state ≠ .jsonCall capture := by
  obtain ⟨hbare, hplace⟩ := route_bare parse nextCallId h hstate (text.take pos)
  obtain ⟨hnext, hplace', hnone⟩ := apply_bare parse nextCallId hbare hopen htools (h.action htable hfound)
  exact ⟨hnext, hplace'.trans (congrArg _ (hplace hopen)), hnone⟩

end

end Cuca.Local
