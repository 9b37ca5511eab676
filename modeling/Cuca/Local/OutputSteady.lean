import Cuca.Local.OutputCandidate

/-!
# A steady text in pieces

Tokens cut an answer with bare JSON anywhere. Of a steady text, what is held back stands for what is not decided.

* `reading` : what the grammar emits for a text that comes at once;
* `Follows` : the rest of a steady text, also where a candidate is open;
* `processHold_steady` : text in pieces;
* `bare_divides` : so tokens may cut a steady text anywhere.
-/

namespace Cuca.Local
open Markers Sse

section
variable (parse : CallParsers) (nextCallId : Nat → String)

/-- What the grammar emits for a text that comes at once. -/
def reading (g : Grammar) (text : List Char) : List Item :=
  let fed := processHold parse nextCallId g text
  fed.2.2 ++ (fed.1.finish parse nextCallId fed.2.1).2

variable {format : ChatFormat} {g : Grammar} {text : List Char}

theorem reading_some (hsep : Separated Marker.text g.activeMarkers) (hstate : ∀ capture, g.state ≠ .jsonCall capture) {pos : Nat}
    {found : Marker} (hfound : earliest Marker.text g.activeMarkers text = some (pos, found)) :
    reading parse nextCallId g text = (upTo parse nextCallId g text pos found).2 ++
      reading parse nextCallId (upTo parse nextCallId g text pos found).1 (text.drop (pos + found.text.length)) := by
  unfold reading
  rw [processHold_some _ _ hsep hstate hfound]
  dsimp only
  rw [List.append_assoc]

theorem reading_none (hstate : ∀ capture, g.state ≠ .jsonCall capture) (hfound : earliest Marker.text g.activeMarkers text = none) :
    reading parse nextCallId g text =
      let ready := text.length - partialSuffix Marker.text g.activeMarkers text
      (g.route parse nextCallId (text.take ready)).2 ++
        ((g.route parse nextCallId (text.take ready)).1.finish parse nextCallId (text.drop ready)).2 := by
  unfold reading
  rw [processHold_none _ _ hstate hfound]

/-! ## An open candidate -/

theorem processHold_nil (hsep : Separated Marker.text g.activeMarkers) : processHold parse nextCallId g [] = (g, [], []) := by
  by_cases hstate : ∃ capture, g.state = .jsonCall capture
  · obtain ⟨capture, hcapture⟩ := hstate
    rw [processHold]
    split
    · rename_i capture' hcapture'
      rw [JsonCapture.advance_nil]
      dsimp only
      rw [if_neg Bool.false_ne_true, ← hcapture']
    · rename_i hnot
      exact absurd hcapture (hnot capture)
  · rw [processHold_none _ _ (fun capture h => hstate ⟨capture, h⟩) (earliest_nil hsep)]
    dsimp only
    rw [List.take_nil, List.drop_nil, route_nil]

variable {capture : JsonCapture}

theorem processHold_open (hstate : g.state = .jsonCall capture) (hopen : (capture.advance text).2.2 = false) :
    processHold parse nextCallId g text = ({ g with state := .jsonCall (capture.advance text).1 }, [], []) := by
  rw [processHold]
  split
  · rename_i capture' hcapture
    obtain rfl : capture' = capture := State.jsonCall.inj (hcapture.symm.trans hstate)
    dsimp only
    rw [if_neg (by rw [hopen]; exact Bool.false_ne_true), JsonCapture.advance_open hopen]
  · rename_i hnot
    exact absurd hstate (hnot capture)

theorem processHold_closed (hstate : g.state = .jsonCall capture) (hclosed : (capture.advance text).2.2 = true)
    (hsep : Separated Marker.text ({ g with state := .content } : Grammar).activeMarkers) :
    processHold parse nextCallId g text =
      let done := { g with state := .content }.completeJson parse nextCallId (capture.advance text).1.text
      let next := processHold parse nextCallId done.1 (capture.advance text).2.1
      (next.1, next.2.1, done.2 ++ next.2.2) := by
  rw [processHold]
  split
  · rename_i capture' hcapture
    obtain rfl : capture' = capture := State.jsonCall.inj (hcapture.symm.trans hstate)
    dsimp only
    rw [if_pos hclosed]
    by_cases hrest : (capture'.advance text).2.1 = []
    · obtain ⟨trim, ids, hdone⟩ := completeJson_eq parse nextCallId { g with state := .content } (capture'.advance text).1.text
      have hnil := processHold_nil parse nextCallId
        (g := ({ g with state := .content }.completeJson parse nextCallId (capture'.advance text).1.text).1) (by rw [hdone]; exact hsep)
      rw [hrest, if_neg (by simp), hnil, List.append_nil]
    · rw [if_pos ⟨JsonCapture.advance_closed hclosed, hrest⟩]
  · rename_i hnot
    exact absurd hstate (hnot capture)

theorem reading_open (hstate : g.state = .jsonCall capture) (hopen : (capture.advance text).2.2 = false) :
    reading parse nextCallId g text = textBlock (capture.advance text).1.text := by
  unfold reading
  rw [processHold_open _ _ hstate hopen]
  unfold Grammar.finish
  dsimp only
  rw [List.append_nil, List.nil_append]

theorem reading_closed (hstate : g.state = .jsonCall capture) (hclosed : (capture.advance text).2.2 = true)
    (hsep : Separated Marker.text ({ g with state := .content } : Grammar).activeMarkers) :
    reading parse nextCallId g text =
      let done := { g with state := .content }.completeJson parse nextCallId (capture.advance text).1.text
      done.2 ++ reading parse nextCallId done.1 (capture.advance text).2.1 := by
  unfold reading
  rw [processHold_closed _ _ hstate hclosed hsep]
  dsimp only
  rw [List.append_assoc]

/-! ## What follows a seam -/

/-- The rest of a steady text; of a candidate that is open, what is behind its closing brace. -/
def Follows (format : ChatFormat) (g : Grammar) (text : List Char) : Prop :=
  match g.state with
  | .jsonCall capture => g.jsonCallWindow = false ∧ ((capture.advance text).2.2 = true →
      steady (Grammar.markersOf format) .answer (capture.advance text).2.1 = true)
  | _ => steady (Grammar.markersOf format) g.place text = true

theorem follows_open (hstate : g.state = .jsonCall capture) :
    Follows format g text ↔ g.jsonCallWindow = false ∧ ((capture.advance text).2.2 = true →
      steady (Grammar.markersOf format) .answer (capture.advance text).2.1 = true) := by
  unfold Follows
  rw [hstate]

theorem follows_iff (hstate : ∀ capture, g.state ≠ .jsonCall capture) :
    Follows format g text ↔ steady (Grammar.markersOf format) g.place text = true := by
  unfold Follows
  rcases hcases : g.state with _ | header | _ | body | body | capture
  case jsonCall => exact absurd hcases (hstate capture)
  all_goals exact Iff.rfl

section
variable (h : Bare format g) (hstate : ∀ capture, g.state ≠ .jsonCall capture)
  (htable : BareTable (Grammar.markersOf format) (headerWordOf format)) {ready later : List Char}
  (hmarker : earliest Marker.text g.activeMarkers (ready ++ later) =
    (earliest Marker.text g.activeMarkers later).map fun hit => (hit.1 + ready.length, hit.2))
  (hkept : partialSuffix Marker.text g.activeMarkers (ready ++ later) = partialSuffix Marker.text g.activeMarkers later)
  (hsteady : steady (Grammar.markersOf format) g.place (ready ++ later) = true)
include h hstate htable hmarker hkept hsteady

theorem reading_route (hopen : ∀ capture, (g.route parse nextCallId ready).1.state ≠ .jsonCall capture) :
    Same (reading parse nextCallId g (ready ++ later))
        ((g.route parse nextCallId ready).2 ++ reading parse nextCallId (g.route parse nextCallId ready).1 later) ∧
      Follows format (g.route parse nextCallId ready).1 later := by
  obtain ⟨hbare, hplace⟩ := route_bare parse nextCallId h hstate ready
  replace hplace := hplace hopen
  have hactive : (g.route parse nextCallId ready).1.activeMarkers = g.activeMarkers := by
    rw [hbare.activeMarkers, h.activeMarkers, hplace, behind_markers]
  have hsep := h.separated htable
  rw [follows_iff hopen, hplace]
  rw [h.activeMarkers] at hmarker hsep
  refine ⟨?_, steady_append hsep ready later hmarker hsteady⟩
  rw [← h.activeMarkers] at hmarker hsep
  rcases hfound : earliest Marker.text g.activeMarkers later with _ | ⟨pos, found⟩
  · rw [hfound] at hmarker
    have hflush := flush_kept (h.activeMarkers ▸ hmarker) hsteady
    have hle := @partialSuffix_le _ _ _ Marker.text g.activeMarkers later
    generalize hn : later.length - partialSuffix Marker.text g.activeMarkers later = n
    have hready : (ready ++ later).length - partialSuffix Marker.text g.activeMarkers (ready ++ later) = n + ready.length := by
      rw [hkept, List.length_append]
      omega
    rw [← h.activeMarkers, hready, take_seam] at hflush
    obtain ⟨hgrammar, hitems⟩ := route_append_bare parse nextCallId hstate ready (later.take n) hopen (.inl hflush)
    have hdrop : (ready ++ later).drop (n + ready.length) = later.drop n := drop_seam ready later n 0
    rw [reading_none _ _ hstate hmarker, reading_none _ _ hopen (hactive ▸ hfound), hactive]
    dsimp only
    rw [hn, hready, take_seam, hdrop, hgrammar, ← List.append_assoc]
    exact hitems.append .rfl
  · rw [hfound] at hmarker
    have hpieces := (steady_some (h.activeMarkers ▸ hsep) (h.activeMarkers ▸ hmarker)).mp hsteady
    rw [take_seam] at hpieces
    obtain ⟨hgrammar, hitems⟩ := route_append_bare parse nextCallId hstate ready (later.take pos) hopen (.inl hpieces.1.1)
    obtain ⟨hupTo, hbefore⟩ := upTo_route parse nextCallId found hgrammar hitems
    rw [reading_some _ _ hsep hstate hmarker, reading_some _ _ (hactive.symm ▸ hsep) hopen (hactive ▸ hfound), drop_seam, hupTo,
      ← List.append_assoc]
    exact hbefore.append .rfl

theorem reading_candidate {capture : JsonCapture} (hopen : (g.route parse nextCallId ready).1.state = .jsonCall capture) :
    Same (reading parse nextCallId g (ready ++ later))
        ((g.route parse nextCallId ready).2 ++ reading parse nextCallId (g.route parse nextCallId ready).1 later) ∧
      Follows format (g.route parse nextCallId ready).1 later := by
  obtain ⟨⟨hcontent, hwindow⟩, hhead, hunclosed, hroute⟩ := route_open parse nextCallId hstate hopen
  have hbody := head_dropWhile_ne_nil hhead
  have hready : ready ≠ [] := by
    rintro rfl
    exact hbody rfl
  obtain rfl : (JsonCapture.empty.advance (ready.dropWhile isWhitespace)).1 = capture := by
    rw [hroute] at hopen
    exact State.jsonCall.inj hopen
  generalize hcapture : (JsonCapture.empty.advance (ready.dropWhile isWhitespace)).1 = capture at hroute
  have hplace := place_window hcontent hwindow
  have hsep := h.separated htable
  have hg : ({ ({ g.answering with state := .jsonCall capture } : Grammar) with state := .content } : Grammar) = g.answering := by
    rw [Grammar.answering, ← hcontent]
  have hactive : g.answering.activeMarkers = g.activeMarkers := rfl
  have hcontentMarkers : g.activeMarkers = Place.answer.markers (Grammar.markersOf format) := by
    unfold Grammar.activeMarkers
    rw [hcontent, h.markers]
    rfl
  -- the whole candidate, as far as some of what follows goes
  have hscan (part : List Char) : JsonCapture.empty.advance ((ready ++ part).dropWhile isWhitespace) = capture.advance part := by
    rw [dropWhile_append_text hbody, JsonCapture.advance_append, if_neg (by rw [hunclosed]; exact Bool.false_ne_true), hcapture]
  have hwhole (part : List Char) : g.route parse nextCallId (ready ++ part) =
      g.answering.emitCandidate parse nextCallId ((ready ++ part).dropWhile isWhitespace) := by
    rw [route_window _ _ hcontent (List.append_ne_nil_of_left_ne_nil hready part)]
    apply emitContent_candidate _ _ hwindow
    rw [dropWhile_append_text hbody, List.head?_append_of_ne_nil _ hbody, hhead]
  -- it is closed in the first part of what follows
  have hclosing (n : Nat) (hclosed : (capture.advance (later.take n)).2.2 = true) :
      ∃ done : Grammar × List Item, ∃ rest before, capture.advance (later.take n) = ((capture.advance (later.take n)).1, rest, true) ∧
        capture.advance later = ((capture.advance (later.take n)).1, rest ++ later.drop n, true) ∧
        ready ++ later = before ++ (rest ++ later.drop n) ∧
        g.route parse nextCallId (ready ++ later.take n) = ((done.1.emitText rest).1, done.2 ++ (done.1.emitText rest).2) ∧
        reading parse nextCallId { g.answering with state := .jsonCall capture } later =
          done.2 ++ reading parse nextCallId done.1 (rest ++ later.drop n) ∧
        (done.1.state = .content ∧ done.1.jsonCallWindow = false) ∧ done.1.activeMarkers = g.activeMarkers := by
    obtain ⟨trim, ids, hdone⟩ := completeJson_eq parse nextCallId g.answering (capture.advance (later.take n)).1.text
    obtain ⟨consumed, hconsumed, -, -⟩ := JsonCapture.advance_split capture (later.take n)
    have hall : capture.advance later =
        ((capture.advance (later.take n)).1, (capture.advance (later.take n)).2.1 ++ later.drop n, true) := by
      rw [← List.take_append_drop n later, JsonCapture.advance_append, List.take_append_drop, if_pos hclosed]
    refine ⟨g.answering.completeJson parse nextCallId (capture.advance (later.take n)).1.text, (capture.advance (later.take n)).2.1,
      ready ++ consumed, Prod.ext rfl (Prod.ext rfl hclosed), hall, ?_, ?_, ?_, ?_, ?_⟩
    · rw [List.append_assoc, ← List.append_assoc consumed, hconsumed, List.take_append_drop]
    · rw [hwhole, Grammar.emitCandidate, hscan]
      dsimp only
      rw [if_pos hclosed]
    · rw [reading_closed parse nextCallId (g := { g.answering with state := .jsonCall capture }) rfl (by rw [hall])
        (by rw [hg, hactive]; exact hsep), hg, hall]
    · rw [hdone]
      exact ⟨hcontent, rfl⟩
    · rw [hdone]
      rfl
  rw [hroute, List.nil_append, follows_open rfl]
  rcases hfound : earliest Marker.text g.activeMarkers later with _ | ⟨pos, found⟩
  · rw [hfound] at hmarker
    have hle := @partialSuffix_le _ _ _ Marker.text g.activeMarkers later
    obtain ⟨n, hn⟩ : ∃ n, later.length - partialSuffix Marker.text g.activeMarkers later = n := ⟨_, rfl⟩
    have hsplit : (ready ++ later).length - partialSuffix Marker.text g.activeMarkers (ready ++ later) = n + ready.length := by
      rw [hkept, List.length_append]
      omega
    have hdrop : (ready ++ later).drop (n + ready.length) = later.drop n := drop_seam ready later n 0
    rw [reading_none _ _ hstate hmarker]
    dsimp only
    rw [hsplit, take_seam, hdrop]
    by_cases hclosed : (capture.advance (later.take n)).2.2 = true
    · obtain ⟨done, rest, before, -, hall, htext, hrouted, hread, ⟨hdone, hfalse⟩, hsame⟩ := hclosing n hclosed
      have hbefore : before.length ≤ (ready ++ later).length - partialSuffix Marker.text g.activeMarkers (ready ++ later) := by
        have hlength := congrArg List.length htext
        rw [List.length_append, List.length_append, List.length_append, List.length_drop] at hlength
        rw [hsplit]
        omega
      have hbehind : (ready ++ later).drop before.length = rest ++ later.drop n := by rw [htext, List.drop_left]
      have hnone : earliest Marker.text g.activeMarkers (rest ++ later.drop n) = none := hbehind ▸ earliest_drop_eq_none hmarker _
      have hsuffix : partialSuffix Marker.text g.activeMarkers (rest ++ later.drop n) =
          partialSuffix Marker.text g.activeMarkers later := by
        rw [← hbehind, partialSuffix_drop hbefore, hkept]
      have hrest : (rest ++ later.drop n).length - partialSuffix Marker.text g.activeMarkers (rest ++ later.drop n) = rest.length := by
        rw [hsuffix, List.length_append, List.length_drop]
        omega
      have hdoneState : ∀ capture, done.1.state ≠ .jsonCall capture := by
        rw [hdone]
        exact nofun
      rw [hrouted, hread, reading_none _ _ hdoneState (hsame ▸ hnone), hsame]
      dsimp only
      rw [hrest, List.take_left, List.drop_left, route_content _ _ hfalse hdone, List.append_assoc]
      refine ⟨.rfl, rfl, fun _ => ?_⟩
      rw [hall]
      exact (steady_none (hcontentMarkers ▸ hnone)).mpr (.inl rfl)
    · -- what is held back has no brace, so it stays open
      have hbrace : '\x7d' ∉ later.drop n := by
        intro hmem
        rcases @kept_beginning _ _ _ Marker.text g.activeMarkers later with hnil | ⟨m, hm, hbeginning⟩
        · rw [hn] at hnil
          rw [hnil] at hmem
          exact absurd hmem List.not_mem_nil
        · rw [hn] at hbeginning
          exact (unbraced_iff.mp (h.chars htable m hm _ (hbeginning.subset hmem))).2.2 rfl
      have hlast := JsonCapture.advance_unclosed hbrace (capture.advance (later.take n)).1
      have hall : capture.advance later = (capture.advance (later.take n)).1.advance (later.drop n) := by
        have happend := JsonCapture.advance_append capture (later.take n) (later.drop n)
        rwa [List.take_append_drop, if_neg hclosed] at happend
      obtain ⟨consumed, hconsumed, htext, -⟩ := JsonCapture.advance_split (capture.advance (later.take n)).1 (later.drop n)
      rw [JsonCapture.advance_open hlast, List.append_nil] at hconsumed
      rw [hwhole, Grammar.emitCandidate, hscan]
      dsimp only
      rw [if_neg hclosed, reading_open parse nextCallId (g := { g.answering with state := .jsonCall capture }) rfl (by rw [hall, hlast]),
        hall, htext, hconsumed]
      refine ⟨.rfl, rfl, fun hnot => ?_⟩
      rw [hlast] at hnot
      exact absurd hnot Bool.false_ne_true
  · rw [hfound] at hmarker
    have hat := (earliest_some hfound).2.1.1
    obtain ⟨⟨-, hcloses⟩, hnext⟩ := (steady_some (h.activeMarkers ▸ hsep) (h.activeMarkers ▸ hmarker)).mp hsteady
    rw [take_seam] at hcloses hnext
    have hbehind : g.place.behind (ready ++ later.take pos) = .answer := by
      have htext : (ready ++ later.take pos).dropWhile isWhitespace ≠ [] := by
        rw [dropWhile_append_text hbody]
        exact List.append_ne_nil_of_left_ne_nil hbody _
      rw [hplace]
      split
      · exact (behind_text htext true).2
      · exact (behind_text htext _).1
    have hclosed : (capture.advance (later.take pos)).2.2 = true := by
      have hbegins : g.place.begins (ready ++ later.take pos) = true := by
        have hhead' : ((ready ++ later.take pos).dropWhile isWhitespace).head? = some '\x7b' := by
          rw [dropWhile_append_text hbody, List.head?_append_of_ne_nil _ hbody, hhead]
        rw [hplace]
        split
        · exact decide_eq_true hhead'
        · exact decide_eq_true hhead'
      rwa [Place.closes, hbegins, hscan] at hcloses
    obtain ⟨done, rest, before, -, hall, htext, hrouted, hread, ⟨hdone, hfalse⟩, hsame⟩ := hclosing pos hclosed
    have hlength := congrArg List.length htext
    rw [List.length_append, List.length_append, List.length_append, List.length_drop] at hlength
    have hrest : earliest Marker.text g.activeMarkers (rest ++ later.drop pos) = some (rest.length, found) := by
      have hdrop := earliest_drop_eq_some hsep (n := before.length) hmarker (by omega)
      rw [htext, List.drop_left] at hdrop
      rw [hdrop]
      congr 2
      omega
    have hdoneState : ∀ capture, done.1.state ≠ .jsonCall capture := by
      rw [hdone]
      exact nofun
    have hbefore : (rest ++ later.drop pos).drop (rest.length + found.text.length) = later.drop (pos + found.text.length) := by
      rw [← List.drop_drop, List.drop_left, List.drop_drop]
    rw [reading_some _ _ hsep hstate hmarker, hread, reading_some _ _ (hsame.symm ▸ hsep) hdoneState (hsame ▸ hrest), drop_seam, hbefore]
    unfold upTo
    rw [take_seam, hrouted, List.take_left]
    dsimp only
    rw [route_content _ _ hfalse hdone]
    refine ⟨?_, rfl, fun _ => ?_⟩
    · rw [List.append_assoc, List.append_assoc, List.append_assoc]
      exact .rfl
    · rw [hall]
      refine (steady_some (hcontentMarkers ▸ hsep) (hcontentMarkers ▸ hrest)).mpr ⟨⟨rfl, rfl⟩, ?_⟩
      dsimp only
      rw [hbefore]
      rw [hbehind, drop_seam] at hnext
      exact hnext

end

/-! ## Text in pieces -/

/-- What is held back may be the beginning of a marker, and closes no candidate. -/
structure Kept (g : Grammar) (hold : List Char) : Prop where
  brace : ∀ capture, g.state = .jsonCall capture → '\x7d' ∉ hold
  unmarked : (∀ capture, g.state ≠ .jsonCall capture) → earliest Marker.text g.activeMarkers hold = none ∧
    partialSuffix Marker.text g.activeMarkers hold = hold.length

theorem kept_reading {hold : List Char} (h : Kept g hold) :
    reading parse nextCallId g hold = (g.finish parse nextCallId hold).2 := by
  by_cases hstate : ∃ capture, g.state = .jsonCall capture
  · obtain ⟨capture, hcapture⟩ := hstate
    have hopen := JsonCapture.advance_unclosed (h.brace capture hcapture) capture
    obtain ⟨consumed, hconsumed, htext, -⟩ := JsonCapture.advance_split capture hold
    rw [JsonCapture.advance_open hopen, List.append_nil] at hconsumed
    rw [reading_open _ _ hcapture hopen, htext, hconsumed]
    unfold Grammar.finish
    rw [hcapture]
  · have hnone : ∀ capture, g.state ≠ .jsonCall capture := fun capture h => hstate ⟨capture, h⟩
    obtain ⟨hmarker, hkept⟩ := h.unmarked hnone
    rw [reading_none _ _ hnone hmarker]
    dsimp only
    rw [hkept, Nat.sub_self, List.take_zero, List.drop_zero, route_nil, List.nil_append]

/-- **Text that is held back** stands for what is not decided of a steady text. -/
theorem processHold_steady (h : Bare format g) (htools : format.tools.isLlamaJson = true)
    (htable : BareTable (Grammar.markersOf format) (headerWordOf format)) (hold more : List Char)
    (hfollows : Follows format g (hold ++ more)) :
    let fed := processHold parse nextCallId g hold
    (Bare format fed.1 ∧ Kept fed.1 fed.2.1 ∧ Follows format fed.1 (fed.2.1 ++ more)) ∧
      Same (reading parse nextCallId g (hold ++ more)) (fed.2.2 ++ reading parse nextCallId fed.1 (fed.2.1 ++ more)) := by
  induction hlength : hold.length using Nat.strongRecOn generalizing g hold with
  | ind n ih =>
    have hsep := h.separated htable
    by_cases hstate : ∃ capture, g.state = .jsonCall capture
    · obtain ⟨capture, hcapture⟩ := hstate
      obtain ⟨hwindow, hrest⟩ := (follows_open hcapture).mp hfollows
      have hcontent : Bare format { g with state := .content } := h.of_eq rfl rfl rfl (by simp)
      have happend := JsonCapture.advance_append capture hold more
      by_cases hclosed : (capture.advance hold).2.2 = true
      · rw [if_pos hclosed] at happend
        obtain ⟨trim, ids, hdone⟩ := completeJson_eq parse nextCallId { g with state := .content } (capture.advance hold).1.text
        rw [happend] at hrest
        have hbare : Bare format ({ g with state := .content }.completeJson parse nextCallId (capture.advance hold).1.text).1 := by
          rw [hdone]
          exact hcontent.of_eq rfl rfl rfl hcontent.state
        have hanswer : ({ g with state := .content }.completeJson parse nextCallId (capture.advance hold).1.text).1.place = .answer := by
          rw [hdone]
          exact place_answer rfl hwindow
        have hnone : ∀ capture', ({ g with state := .content }.completeJson parse nextCallId (capture.advance hold).1.text).1.state ≠
            .jsonCall capture' := by
          rw [hdone]
          exact nofun
        obtain ⟨hnext, hsame⟩ := ih _ (hlength ▸ JsonCapture.advance_closed hclosed) hbare (capture.advance hold).2.1
          ((follows_iff hnone).mpr (hanswer.symm ▸ hrest rfl)) rfl
        rw [processHold_closed _ _ hcapture hclosed (hcontent.separated htable)]
        refine ⟨hnext, ?_⟩
        rw [reading_closed _ _ hcapture (by rw [happend]) (hcontent.separated htable), happend, List.append_assoc]
        exact Same.append .rfl hsame
      · rw [if_neg hclosed] at happend
        rw [processHold_open _ _ hcapture (eq_false_of_ne_true hclosed)]
        dsimp only
        rw [List.nil_append, List.nil_append, follows_open rfl]
        rw [happend] at hrest
        refine ⟨⟨h.of_eq rfl rfl rfl (by simp), ⟨fun _ _ => List.not_mem_nil, fun hnot => absurd rfl (hnot _)⟩, hwindow, hrest⟩, ?_⟩
        by_cases hlater : ((capture.advance hold).1.advance more).2.2 = true
        · rw [reading_closed _ _ hcapture (by rw [happend, hlater]) (hcontent.separated htable), happend,
            reading_closed parse nextCallId (g := { g with state := .jsonCall (capture.advance hold).1 }) rfl hlater
              (hcontent.separated htable)]
          exact .rfl
        · replace hlater := eq_false_of_ne_true hlater
          rw [reading_open _ _ hcapture (by rw [happend, hlater]), happend,
            reading_open parse nextCallId (g := { g with state := .jsonCall (capture.advance hold).1 }) rfl hlater]
          exact .rfl
    · have hnone : ∀ capture, g.state ≠ .jsonCall capture := fun capture h => hstate ⟨capture, h⟩
      have hsteady := (follows_iff hnone).mp hfollows
      rcases hfound : earliest Marker.text g.activeMarkers hold with _ | ⟨pos, found⟩
      · rw [processHold_none _ _ hnone hfound]
        have hmarker := earliest_kept hsep hfound more
        have hkept := @partialSuffix_append _ _ _ Marker.text g.activeMarkers hold more
        have hbeginning := @kept_beginning _ _ _ Marker.text g.activeMarkers hold
        have hle := @partialSuffix_le _ _ _ Marker.text g.activeMarkers hold
        obtain ⟨ready, hready⟩ : ∃ ready, hold.length - partialSuffix Marker.text g.activeMarkers hold = ready := ⟨_, rfl⟩
        rw [hready] at hmarker hkept hbeginning
        have hall : hold.take ready ++ (hold.drop ready ++ more) = hold ++ more := by
          rw [← List.append_assoc, List.take_append_drop]
        have hlen : (hold.take ready).length = ready := by
          rw [List.length_take]
          omega
        replace hmarker : earliest Marker.text g.activeMarkers (hold.take ready ++ (hold.drop ready ++ more)) =
            (earliest Marker.text g.activeMarkers (hold.drop ready ++ more)).map fun hit => (hit.1 + (hold.take ready).length, hit.2) := by
          rw [hall, hlen]
          exact hmarker
        rw [← hall] at hkept hsteady
        obtain ⟨hbare, hplace⟩ := route_bare parse nextCallId h hnone (hold.take ready)
        dsimp only
        rw [hready]
        by_cases hopen : ∃ capture, (g.route parse nextCallId (hold.take ready)).1.state = .jsonCall capture
        · obtain ⟨capture, hcapture⟩ := hopen
          obtain ⟨hsame, hnext⟩ := reading_candidate parse nextCallId h hnone htable hmarker hkept hsteady hcapture
          rw [hall] at hsame
          refine ⟨⟨hbare, ⟨fun _ _ hmem => ?_, fun hnot => absurd hcapture (hnot capture)⟩, hnext⟩, hsame⟩
          rcases hbeginning with hnil | ⟨m, hm, hbeginning⟩
          · rw [hnil] at hmem
            exact absurd hmem List.not_mem_nil
          · exact (unbraced_iff.mp (h.chars htable m hm _ (hbeginning.subset hmem))).2.2 rfl
        · have hplain : ∀ capture, (g.route parse nextCallId (hold.take ready)).1.state ≠ .jsonCall capture :=
            fun capture h => hopen ⟨capture, h⟩
          obtain ⟨hsame, hnext⟩ := reading_route parse nextCallId h hnone htable hmarker hkept hsteady hplain
          have hactive : (g.route parse nextCallId (hold.take ready)).1.activeMarkers = g.activeMarkers := by
            rw [hbare.activeMarkers, h.activeMarkers, hplace hplain, behind_markers]
          rw [hall] at hsame
          refine ⟨⟨hbare, ⟨fun capture hcapture => absurd hcapture (hplain capture), fun _ => ?_⟩, hnext⟩, hsame⟩
          rw [hactive, partialSuffix_drop (Nat.le_of_eq hready.symm), List.length_drop]
          exact ⟨earliest_drop_eq_none hfound ready, by omega⟩
      · have hall := earliest_append hsep hfound more
        have hle := (earliest_some hfound).2.1.length_le
        obtain ⟨⟨-, hcloses⟩, hnext⟩ := (steady_some (h.activeMarkers ▸ hsep) (h.activeMarkers ▸ hall)).mp hsteady
        rw [List.take_append_of_le_length (by omega)] at hcloses hnext
        rw [List.drop_append_of_le_length hle] at hnext
        obtain ⟨hbare, hplace, hplain⟩ := upTo_bare parse nextCallId h hnone htools htable (earliest_some hfound).1
          (route_closes parse nextCallId hnone hcloses)
        obtain ⟨hsettled, hsame⟩ := ih _ (hlength ▸ rest_shorter hsep hfound) hbare (hold.drop (pos + found.text.length))
          ((follows_iff hplain).mpr (hplace.symm ▸ hnext)) rfl
        have hupTo : upTo parse nextCallId g (hold ++ more) pos found = upTo parse nextCallId g hold pos found := by
          unfold upTo
          rw [List.take_append_of_le_length (by omega)]
        rw [processHold_some _ _ hsep hnone hfound]
        refine ⟨hsettled, ?_⟩
        rw [reading_some _ _ hsep hnone hall, hupTo, List.drop_append_of_le_length hle, List.append_assoc]
        exact Same.append .rfl hsame

theorem bare_divides (htools : format.tools.isLlamaJson = true)
    (htable : BareTable (Grammar.markersOf format) (headerWordOf format)) :
    Divides parse nextCallId format (reading parse nextCallId) fun g hold text =>
      Bare format g ∧ Kept g hold ∧ Follows format g (hold ++ text) where
  format h := h.1.ofFormat
  feed {g hold text more} h := by
    obtain ⟨hbare, -, hfollows⟩ := h
    rw [← List.append_assoc] at hfollows ⊢
    exact processHold_steady parse nextCallId hbare htools htable (hold ++ text) more hfollows
  finish h := by
    rw [kept_reading _ _ h.2.1]
    exact .rfl

end

end Cuca.Local
