import Cuca.Local.OutputShown

/-!
# Cuts that are seen

Where a text is not steady, a cut is seen: blanks are dropped that are shown when the answer text comes with them, and a marker is found
that is part of the candidate when its brace comes alone.

* `blank_split`, `candidate_split` : a cut behind the blanks, and behind the brace of a candidate;
* `unsteady_split` : a text that is not steady has a cut that is seen;
* `splitIndependent_iff` : the tokens of a text make no difference to the output exactly when it is steady.
-/

namespace Cuca.Local
open Markers Sse

section
variable (parse : CallParsers) (nextCallId : Nat → String) {format : ChatFormat} {g : Grammar} {text : List Char}

theorem processHold_unmarked (h : Bare format g) (htable : BareTable (Grammar.markersOf format) (headerWordOf format))
    (hstate : ∀ capture, g.state ≠ .jsonCall capture) (hchars : ∀ c ∈ text, unbraced c = false) :
    processHold parse nextCallId g text = ((g.route parse nextCallId text).1, [], (g.route parse nextCallId text).2) := by
  have hnone : earliest Marker.text g.activeMarkers text = none := by
    rw [earliest_eq_none_iff]
    intro m hm i hat
    obtain ⟨c, rest, hcons⟩ := List.exists_cons_of_ne_nil ((h.separated htable).nonempty m hm)
    have hmem : c ∈ m.text := hcons ▸ List.mem_cons_self
    have hfalse := hchars c ((List.drop_subset i text) (hat.2.subset hmem))
    rw [h.chars htable m hm c hmem] at hfalse
    exact absurd hfalse (by decide)
  have hkept : partialSuffix Marker.text g.activeMarkers text = 0 := by
    rcases @partialSuffix_attained _ _ _ Marker.text g.activeMarkers text with hzero | ⟨m, hm, hle, hsuffix⟩
    · exact hzero
    · by_contra hpos
      obtain ⟨c, hc⟩ : ∃ c, c ∈ m.text.take (partialSuffix Marker.text g.activeMarkers text) := by
        refine List.exists_mem_of_length_pos ?_
        rw [List.length_take]
        omega
      have hfalse := hchars c (hsuffix.subset hc)
      rw [h.chars htable m hm c ((List.take_subset _ _) hc)] at hfalse
      exact absurd hfalse (by decide)
  rw [processHold_none _ _ hstate hnone]
  dsimp only
  rw [hkept, Nat.sub_zero, List.take_length, List.drop_length]

theorem not_unbraced_of_blank {c : Char} (h : isWhitespace c = true) : unbraced c = false := by
  unfold unbraced
  rw [h]
  rfl

theorem dropWhile_unbraced (h : ∀ c ∈ text, unbraced c = true) : text.dropWhile isWhitespace = text := by
  rcases text with _ | ⟨c, text⟩
  · rfl
  · obtain ⟨hblank, -⟩ := unbraced_iff.mp (h c List.mem_cons_self)
    rw [List.dropWhile_cons_of_neg (by rw [hblank]; exact Bool.false_ne_true)]

theorem reading_first (h : Bare format g) (htable : BareTable (Grammar.markersOf format) (headerWordOf format))
    (hstate : ∀ capture, g.state ≠ .jsonCall capture) {n : Nat}
    (hfirst : (∃ found, earliest Marker.text g.activeMarkers text = some (n, found)) ∨
      earliest Marker.text g.activeMarkers text = none ∧ text.length - partialSuffix Marker.text g.activeMarkers text = n) :
    ∃ more, reading parse nextCallId g text = (g.route parse nextCallId (text.take n)).2 ++ more := by
  rcases hfirst with ⟨found, hfound⟩ | ⟨hnone, hn⟩
  · rw [reading_some _ _ (h.separated htable) hstate hfound]
    unfold upTo
    dsimp only
    rw [List.append_assoc]
    exact ⟨_, rfl⟩
  · rw [reading_none _ _ hstate hnone]
    dsimp only
    rw [hn]
    exact ⟨_, rfl⟩

theorem symbols_first (hcontent : g.state = .content) (hwindow : g.jsonCallWindow = true) {piece rest : List Char} {c : Char}
    (hbody : piece.dropWhile isWhitespace ≠ []) (hhead : (piece.dropWhile isWhitespace).head? ≠ some '\x7b')
    (hshown : g.shown piece = c :: rest) (more : List Item) :
    ∃ seen, symbols ((g.route parse nextCallId piece).2 ++ more) = some c :: seen := by
  have hne : piece ≠ [] := by
    rintro rfl
    exact hbody rfl
  rw [route_window _ _ hcontent hne, emitContent_text _ _ hwindow hbody hhead, symbols_append, symbols_textBlock, hshown]
  exact ⟨_, rfl⟩

/-- **A cut behind the blanks** is seen: alone they are dropped, with answer text they are shown. -/
theorem blank_split (h : Bare format g) (htable : BareTable (Grammar.markersOf format) (headerWordOf format))
    (hcontent : g.state = .content) (hwindow : g.jsonCallWindow = true) {n : Nat} (hn : n ≤ text.length)
    (hfirst : (∃ found, earliest Marker.text g.activeMarkers text = some (n, found)) ∨
      earliest Marker.text g.activeMarkers text = none ∧ text.length - partialSuffix Marker.text g.activeMarkers text = n)
    (hflush : g.place.flush (text.take n) = false) :
    (text.takeWhile isWhitespace ≠ [] ∧ text.dropWhile isWhitespace ≠ []) ∧
      symbols (reading parse nextCallId g text) ≠
        symbols ((processHold parse nextCallId g (text.takeWhile isWhitespace)).2.2 ++
          reading parse nextCallId (processHold parse nextCallId g (text.takeWhile isWhitespace)).1
            ((processHold parse nextCallId g (text.takeWhile isWhitespace)).2.1 ++ text.dropWhile isWhitespace)) := by
  have hstate : ∀ capture, g.state ≠ .jsonCall capture := by
    rw [hcontent]
    exact nofun
  have hsplit : text.takeWhile isWhitespace ++ text.dropWhile isWhitespace = text := List.takeWhile_append_dropWhile
  obtain ⟨piece, hpiece⟩ : ∃ piece, text.take n = piece := ⟨_, rfl⟩
  rw [hpiece] at hflush
  -- the place is the beginning of the answer, and the piece begins with blanks that are shown
  have htrim : g.trimLeadingWs = false := by
    rw [place_window hcontent hwindow] at hflush
    by_contra htrim
    rw [if_pos (eq_true_of_ne_false htrim)] at hflush
    exact absurd hflush (by simp [Place.flush])
  rw [place_window hcontent hwindow, htrim, if_neg Bool.false_ne_true, Place.flush, Place.begins, Bool.or_eq_false_iff,
    Bool.or_eq_false_iff, decide_eq_false_iff_not] at hflush
  obtain ⟨⟨hfirstChar, hbody⟩, hhead⟩ := hflush
  replace hbody : piece.dropWhile isWhitespace ≠ [] := by
    intro hnil
    rw [hnil] at hbody
    exact absurd hbody (by decide)
  obtain ⟨c, rest, hshown, hblank⟩ : ∃ c rest, stripped g.stripOneSpace piece = c :: rest ∧ isWhitespace c = true := by
    rcases hstripped : stripped g.stripOneSpace piece with _ | ⟨c, rest⟩
    · rw [hstripped] at hfirstChar
      exact absurd hfirstChar (by decide)
    · rw [hstripped, List.head?_cons, Option.all_some, Bool.not_eq_false'] at hfirstChar
      exact ⟨c, rest, rfl, hfirstChar⟩
  have htext : text.dropWhile isWhitespace = piece.dropWhile isWhitespace ++ text.drop n := by
    rw [← dropWhile_append_text hbody, ← hpiece, List.take_append_drop]
  obtain ⟨d, body, hd⟩ := List.exists_cons_of_ne_nil hbody
  have hnotBlank : isWhitespace d = false := by
    have hhead := List.head?_dropWhile_not isWhitespace piece
    rw [hd] at hhead
    exact eq_false_of_ne_true (by simpa using hhead)
  have hblanks : (text.takeWhile isWhitespace).length + (piece.dropWhile isWhitespace).length = n := by
    have hlength := congrArg List.length hsplit
    rw [List.length_append, htext, List.length_append, List.length_drop] at hlength
    omega
  have hx : text.takeWhile isWhitespace ≠ [] := by
    intro hnil
    rw [hnil, List.length_nil, Nat.zero_add] at hblanks
    have hwhole : piece.dropWhile isWhitespace = piece := by
      refine (List.dropWhile_suffix isWhitespace).eq_of_length ?_
      rw [hblanks, ← hpiece, List.length_take]
      omega
    rw [hwhole] at hd
    rw [hd] at hshown
    unfold stripped at hshown
    rw [if_neg ?_] at hshown
    · rw [(List.cons.inj hshown).1, hblank] at hnotBlank
      exact absurd hnotBlank (by decide)
    · rw [Bool.and_eq_true, decide_eq_true_eq, List.head?_cons]
      rintro ⟨-, hspace⟩
      rw [Option.some.inj hspace] at hnotBlank
      exact absurd hnotBlank (by decide)
  refine ⟨⟨hx, ?_⟩, ?_⟩
  · rw [htext]
    exact List.append_ne_nil_of_left_ne_nil hbody _
  -- the blanks alone are dropped
  have hall : ∀ c ∈ text.takeWhile isWhitespace, isWhitespace c = true := fun c hc => List.mem_takeWhile_imp hc
  rw [processHold_unmarked parse nextCallId h htable hstate fun c hc => not_unbraced_of_blank (hall c hc),
    route_window _ _ hcontent hx, emitContent_blank _ _ hwindow hx (List.dropWhile_eq_nil_iff.mpr hall)]
  dsimp only
  rw [List.nil_append, List.nil_append]
  have hdrop : text.drop (text.takeWhile isWhitespace).length = text.dropWhile isWhitespace := drop_takeWhile isWhitespace text
  have hnext : Bare format { g with stripOneSpace := false } := h.of_eq rfl rfl rfl h.state
  have hfirst' : (∃ found, earliest Marker.text g.activeMarkers (text.dropWhile isWhitespace) =
        some ((piece.dropWhile isWhitespace).length, found)) ∨
      earliest Marker.text g.activeMarkers (text.dropWhile isWhitespace) = none ∧ (text.dropWhile isWhitespace).length -
        partialSuffix Marker.text g.activeMarkers (text.dropWhile isWhitespace) = (piece.dropWhile isWhitespace).length := by
    rw [← hdrop]
    rcases hfirst with ⟨found, hfound⟩ | ⟨hnone, hkept⟩
    · refine .inl ⟨found, ?_⟩
      rw [earliest_drop_eq_some (h.separated htable) hfound (by omega)]
      congr 2
      omega
    · refine .inr ⟨earliest_drop_eq_none hnone _, ?_⟩
      rw [partialSuffix_drop (by omega), List.length_drop]
      omega
  obtain ⟨more, hmore⟩ := reading_first parse nextCallId h htable hstate hfirst
  obtain ⟨more', hmore'⟩ := reading_first parse nextCallId hnext htable hstate hfirst'
  have hshownWhole : g.shown piece = c :: rest := by
    rw [Grammar.shown, htrim, if_neg Bool.false_ne_true, hshown]
  have hshownRest : ({ g with stripOneSpace := false } : Grammar).shown (piece.dropWhile isWhitespace) = d :: body := by
    unfold Grammar.shown
    dsimp only
    rw [htrim, if_neg Bool.false_ne_true, hd]
    rfl
  have hidem : (piece.dropWhile isWhitespace).dropWhile isWhitespace = piece.dropWhile isWhitespace := List.dropWhile_idempotent _ _
  obtain ⟨seen, hseen⟩ := symbols_first parse nextCallId hcontent hwindow hbody hhead hshownWhole more
  obtain ⟨seen', hseen'⟩ := symbols_first parse nextCallId (g := { g with stripOneSpace := false }) hcontent hwindow
    (hidem.symm ▸ hbody) (hidem.symm ▸ hhead) hshownRest more'
  rw [hmore, hpiece, hseen, hmore', htext, List.take_left, hseen']
  intro heq
  rw [Option.some.inj (List.cons.inj heq).1, hnotBlank] at hblank
  exact absurd hblank Bool.false_ne_true

section
variable (hparse : ∀ body requireArguments calls, parse.parseJsonCalls body requireArguments = .ok calls → calls ≠ [])
include hparse

/-- **A cut behind the brace of a candidate** is seen: the marker that comes later is part of the candidate, and comes with the brace it
ends it. -/
theorem candidate_split (h : Bare format g) (htools : format.tools.isLlamaJson = true)
    (htable : BareTable (Grammar.markersOf format) (headerWordOf format)) (hcontent : g.state = .content)
    (hwindow : g.jsonCallWindow = true) {pos : Nat} {found : Marker}
    (hfound : earliest Marker.text g.activeMarkers text = some (pos, found))
    (hhead : ((text.take pos).dropWhile isWhitespace).head? = some '\x7b')
    (hunclosed : (JsonCapture.empty.advance ((text.take pos).dropWhile isWhitespace)).2.2 = false) :
    ∃ x y, text = x ++ y ∧ (x ≠ [] ∧ y ≠ []) ∧ symbols (reading parse nextCallId g text) ≠
      symbols ((processHold parse nextCallId g x).2.2 ++
        reading parse nextCallId (processHold parse nextCallId g x).1 ((processHold parse nextCallId g x).2.1 ++ y)) := by
  have hstate : ∀ capture, g.state ≠ .jsonCall capture := by
    rw [hcontent]
    exact nofun
  have hsep := h.separated htable
  obtain ⟨hmem, hat, -⟩ := earliest_some hfound
  have hpositive := List.length_pos_of_ne_nil (hsep.nonempty found hmem)
  have haction : found.action = .openReasoning ∨ found.action = .strayClose ∨ found.action = .openPython := by
    unfold Grammar.activeMarkers at hmem
    rw [hcontent, h.markers] at hmem
    exact htable.contentActions found hmem
  obtain ⟨behind, hmarker⟩ := hat.2
  obtain ⟨piece, hpiece⟩ : ∃ piece, (text.take pos).dropWhile isWhitespace = piece := ⟨_, rfl⟩
  rw [hpiece] at hhead hunclosed
  obtain ⟨inner, rfl⟩ := List.head?_eq_some_iff.mp hhead
  have hbody : text.dropWhile isWhitespace = '\x7b' :: (inner ++ (found.text ++ behind)) := by
    rw [← List.take_append_drop pos text, dropWhile_append_text (by rw [hpiece]; exact List.cons_ne_nil _ _), hpiece, hmarker,
      List.cons_append]
  have hdrop : text.drop (pos + found.text.length) = behind := by
    rw [← List.drop_drop, ← hmarker, List.drop_left]
  -- the whole text: the candidate ends at the marker
  have hwhole : ∃ g', (Bare format g' ∧ ∀ capture, g'.state ≠ .jsonCall capture) ∧
      symbols (reading parse nextCallId g text) = ('\x7b' :: inner).map some ++ symbols (reading parse nextCallId g' behind) := by
    have hne : text.take pos ≠ [] := by
      intro hnil
      rw [hnil] at hpiece
      exact absurd hpiece (List.cons_ne_nil _ _).symm
    have hg : ({ ({ g.answering with state := .jsonCall (JsonCapture.empty.advance ('\x7b' :: inner)).1 } : Grammar) with
        state := .content } : Grammar) = g.answering := by
      rw [Grammar.answering, ← hcontent]
    have hanswering : ∀ capture, g.answering.state ≠ .jsonCall capture := hstate
    obtain ⟨consumed, hconsumed, hcaptured, -⟩ := JsonCapture.advance_split JsonCapture.empty ('\x7b' :: inner)
    rw [JsonCapture.advance_open hunclosed, List.append_nil] at hconsumed
    obtain ⟨hopening, hstray, -, -⟩ := apply_eq parse nextCallId hanswering
    have hnothing : (g.answering.apply parse nextCallId found.action).2 = [] := by
      rcases haction with heq | heq | heq
      · rw [heq, hopening]
      · rw [heq, hstray]
      · rw [heq, apply_openPython parse nextCallId hanswering]
    obtain ⟨hbare, -, hnone⟩ := apply_bare parse nextCallId (g := g.answering) (h.of_eq rfl rfl rfl h.state) hanswering htools (.inl haction)
    refine ⟨(g.answering.apply parse nextCallId found.action).1, ⟨hbare, hnone⟩, ?_⟩
    rw [reading_some _ _ hsep hstate hfound, hdrop, upTo, route_window _ _ hcontent hne,
      emitContent_candidate _ _ hwindow (by rw [hpiece, List.head?_cons]), hpiece, Grammar.emitCandidate]
    dsimp only
    rw [hunclosed, if_neg Bool.false_ne_true]
    dsimp only
    rw [apply_open parse nextCallId (g := { g.answering with state := .jsonCall (JsonCapture.empty.advance ('\x7b' :: inner)).1 }) rfl
      haction, hg, hnothing, hcaptured, hconsumed]
    dsimp only
    rw [List.append_nil, List.nil_append, symbols_append, symbols_textBlock]
    rfl
  obtain ⟨g', ⟨hbare, hnone⟩, hwhole⟩ := hwhole
  refine ⟨text.takeWhile isWhitespace ++ ['\x7b'], inner ++ (found.text ++ behind), ?_, ⟨by simp, by simp [hsep.nonempty found hmem]⟩, ?_⟩
  · rw [List.append_assoc, List.singleton_append, ← hbody, List.takeWhile_append_dropWhile]
  -- the brace alone opens the candidate
  have hopened : processHold parse nextCallId g (text.takeWhile isWhitespace ++ ['\x7b']) =
      ({ g.answering with state := .jsonCall (JsonCapture.empty.next '\x7b').1 }, [], []) := by
    have hblanks : ∀ c ∈ text.takeWhile isWhitespace, isWhitespace c = true := fun c hc => List.mem_takeWhile_imp hc
    have hbrace : (text.takeWhile isWhitespace ++ ['\x7b']).dropWhile isWhitespace = ['\x7b'] := by
      rw [dropWhile_append_blank (List.dropWhile_eq_nil_iff.mpr hblanks)]
      decide
    rw [processHold_unmarked parse nextCallId h htable hstate ?_, route_window _ _ hcontent (by simp),
      emitContent_candidate _ _ hwindow (by rw [hbrace]; rfl), hbrace]
    · rfl
    · intro c hc
      rcases List.mem_append.mp hc with hc | hc
      · exact not_unbraced_of_blank (hblanks c hc)
      · rw [List.mem_singleton.mp hc]
        decide
  rw [hopened, List.nil_append, List.nil_append, hwhole]
  -- it goes on over the marker, up to its closing brace
  obtain ⟨capture, hcapture⟩ : ∃ capture, ((JsonCapture.empty.next '\x7b').1.advance inner).1 = capture := ⟨_, rfl⟩
  rw [JsonCapture.advance_cons, if_neg (by decide)] at hunclosed
  obtain ⟨consumed₀, hconsumed₀, hcaptured₀, -⟩ := JsonCapture.advance_split (JsonCapture.empty.next '\x7b').1 inner
  rw [JsonCapture.advance_open hunclosed, List.append_nil] at hconsumed₀
  have happend := JsonCapture.advance_append (JsonCapture.empty.next '\x7b').1 inner (found.text ++ behind)
  rw [hunclosed, if_neg Bool.false_ne_true, hcapture] at happend
  obtain ⟨consumed, hconsumed, hcaptured, hclosing⟩ := JsonCapture.advance_split capture (found.text ++ behind)
  rw [← hcapture, hcaptured₀, hconsumed₀] at hcaptured
  replace hcaptured : (capture.advance (found.text ++ behind)).1.text = '\x7b' :: (inner ++ consumed) := hcapture ▸ hcaptured
  have hseen : (∃ seen, symbols (reading parse nextCallId { g.answering with state := .jsonCall (JsonCapture.empty.next '\x7b').1 }
        (inner ++ (found.text ++ behind))) = none :: seen) ∨
      ∃ seen, symbols (reading parse nextCallId { g.answering with state := .jsonCall (JsonCapture.empty.next '\x7b').1 }
        (inner ++ (found.text ++ behind))) = ('\x7b' :: inner).map some ++ (consumed.map some ++ seen) ∧
        (consumed = found.text ++ behind ∨ '\x7d' ∈ consumed) := by
    by_cases hclosed : (capture.advance (found.text ++ behind)).2.2 = true
    · have hg : ({ ({ g.answering with state := .jsonCall (JsonCapture.empty.next '\x7b').1 } : Grammar) with
          state := .content } : Grammar) = g.answering := by
        rw [Grammar.answering, ← hcontent]
      have hanswering : Separated Marker.text g.answering.activeMarkers := hsep
      rw [reading_closed parse nextCallId (g := { g.answering with state := .jsonCall (JsonCapture.empty.next '\x7b').1 }) rfl
        (by rw [happend, hclosed]) (hg ▸ hanswering), happend, hcaptured]
      dsimp only
      rw [symbols_append]
      rcases symbols_completeJson parse nextCallId hparse _ (inner ++ consumed) with ⟨seen, hseen⟩ | hseen
      · rw [hseen]
        exact .inl ⟨_, rfl⟩
      · rw [hseen, ← List.cons_append, List.map_append, List.append_assoc]
        exact .inr ⟨_, rfl, .inr (hclosing hclosed)⟩
    · replace hclosed := eq_false_of_ne_true hclosed
      rw [JsonCapture.advance_open hclosed, List.append_nil] at hconsumed
      rw [reading_open parse nextCallId (g := { g.answering with state := .jsonCall (JsonCapture.empty.next '\x7b').1 }) rfl
        (by rw [happend, hclosed]), happend, hcaptured, symbols_textBlock, ← List.cons_append, List.map_append]
      exact .inr ⟨[], by rw [List.append_nil], .inl hconsumed⟩
  intro heq
  rcases hseen with ⟨seen, hseen⟩ | ⟨seen, hseen, hor⟩
  · rw [hseen] at heq
    exact absurd (List.cons.inj heq).1 (by simp)
  · rw [hseen] at heq
    have hrest := List.append_cancel_left heq
    have hfew := lead_reading parse nextCallId hparse hbare htools htable hnone behind
    have hmany : lead ((found.text ++ behind).map some) ≤ lead (consumed.map some ++ seen) := by
      rcases hor with hall | hbrace
      · rw [hall]
        exact lead_le_append _ _
      · have hstop := stop_of_brace ⟨_, hbrace, (by decide : isBrace '\x7d' = true)⟩
        rw [← hconsumed, List.map_append, lead_append_stop hstop, lead_append_stop hstop]
    have hsmooth := smooth_of_unbraced fun c hc => not_brace_of_unbraced (h.chars htable found hmem c hc)
    rw [List.map_append, lead_append_smooth hsmooth, List.length_map, ← hrest] at hmany
    omega

/-- **A text that is not steady** has a cut that is seen. -/
theorem unsteady_split (h : Bare format g) (htools : format.tools.isLlamaJson = true)
    (htable : BareTable (Grammar.markersOf format) (headerWordOf format)) (hstate : ∀ capture, g.state ≠ .jsonCall capture)
    (text : List Char) (hnot : ¬ steady (Grammar.markersOf format) g.place text = true) :
    ∃ x y, text = x ++ y ∧ (x ≠ [] ∧ y ≠ []) ∧ symbols (reading parse nextCallId g text) ≠
      symbols ((processHold parse nextCallId g x).2.2 ++
        reading parse nextCallId (processHold parse nextCallId g x).1 ((processHold parse nextCallId g x).2.1 ++ y)) := by
  induction hlength : text.length using Nat.strongRecOn generalizing g text with
  | ind n ih =>
    have hsep := h.separated htable
    have hblanks {n : Nat} (hn : n ≤ text.length) (hfirst : (∃ found, earliest Marker.text g.activeMarkers text = some (n, found)) ∨
        earliest Marker.text g.activeMarkers text = none ∧ text.length - partialSuffix Marker.text g.activeMarkers text = n)
        (hflush : ¬ g.place.flush (text.take n) = true) :
        ∃ x y, text = x ++ y ∧ (x ≠ [] ∧ y ≠ []) ∧ symbols (reading parse nextCallId g text) ≠
          symbols ((processHold parse nextCallId g x).2.2 ++
            reading parse nextCallId (processHold parse nextCallId g x).1 ((processHold parse nextCallId g x).2.1 ++ y)) := by
      have hplace : ∃ strip, g.place = .fresh strip := by
        cases hplace : g.place with
        | fresh strip => exact ⟨strip, rfl⟩
        | _ =>
          rw [hplace] at hflush
          exact absurd rfl hflush
      obtain ⟨hcontent, hwindow⟩ := window_of_place (.inl hplace)
      obtain ⟨hne, hseen⟩ := blank_split parse nextCallId h htable hcontent hwindow hn hfirst (eq_false_of_ne_true hflush)
      exact ⟨_, _, List.takeWhile_append_dropWhile.symm, hne, hseen⟩
    rcases hfound : earliest Marker.text g.activeMarkers text with _ | ⟨pos, found⟩
    · rw [steady_none (h.activeMarkers ▸ hfound), ← h.activeMarkers] at hnot
      have hbeginning := @kept_beginning _ _ _ Marker.text g.activeMarkers text
      refine hblanks (Nat.sub_le _ _) (.inr ⟨hfound, rfl⟩) fun hflush => ?_
      generalize text.length - partialSuffix Marker.text g.activeMarkers text = ready at hbeginning hflush
      have hsplit : text.take ready ++ text.drop ready = text := List.take_append_drop ready text
      by_cases hbody : (text.take ready).dropWhile isWhitespace = []
      · -- all but the blanks is the beginning of a marker
        have hrest := dropWhile_append_blank hbody (text.drop ready)
        rw [hsplit] at hrest
        rcases hbeginning with hnil | ⟨m, hm, hbeginning⟩
        · apply hnot
          left
          rw [← hsplit, hnil, List.append_nil]
          exact hflush
        · apply hnot
          right
          refine ⟨m, hm, ?_⟩
          rw [hrest, dropWhile_unbraced fun c hc => h.chars htable m hm c (hbeginning.subset hc)]
          exact hbeginning
      · apply hnot
        left
        rw [← hsplit]
        exact flush_extend hbody _ hflush
    · rw [steady_some (h.activeMarkers ▸ hsep) (h.activeMarkers ▸ hfound)] at hnot
      obtain ⟨hmem, hat, -⟩ := earliest_some hfound
      by_cases hcloses : g.place.closes (text.take pos) = true
      · by_cases hflush : g.place.flush (text.take pos) = true
        · have hopen := route_closes parse nextCallId hstate hcloses
          obtain ⟨hbare, hplace, hnone⟩ := upTo_bare parse nextCallId h hstate htools htable hmem hopen
          obtain ⟨x, y, htext, hne, hseen⟩ := ih _ (hlength ▸ rest_shorter hsep hfound) hbare hnone
            (text.drop (pos + found.text.length)) (hplace ▸ fun hsteady => hnot ⟨⟨hflush, hcloses⟩, hsteady⟩) rfl
          have hle := hat.length_le
          have hall : text.take (pos + found.text.length) ++ x ++ y = text := by
            rw [List.append_assoc, ← htext, List.take_append_drop]
          refine ⟨text.take (pos + found.text.length) ++ x, y, hall.symm, ⟨List.append_ne_nil_of_right_ne_nil _ hne.1, hne.2⟩, ?_⟩
          have hhead : (text.take (pos + found.text.length)).length = pos + found.text.length := by
            rw [List.length_take]
            omega
          have hfirst : earliest Marker.text g.activeMarkers (text.take (pos + found.text.length) ++ x) = some (pos, found) := by
            refine earliest_of_append hsep (hall.symm ▸ hfound) ?_
            rw [List.length_append]
            omega
          have hupTo : upTo parse nextCallId g (text.take (pos + found.text.length) ++ x) pos found = upTo parse nextCallId g text pos found := by
            unfold upTo
            rw [List.take_append_of_le_length (by omega), List.take_take, Nat.min_eq_left (by omega)]
          have hdrop : (text.take (pos + found.text.length) ++ x).drop (pos + found.text.length) = x := by
            rw [List.drop_append_of_le_length (by omega), List.drop_eq_nil_of_le (by omega), List.nil_append]
          rw [processHold_some _ _ hsep hstate hfirst, hupTo, hdrop, reading_some _ _ hsep hstate hfound]
          dsimp only
          rw [List.append_assoc, symbols_append, symbols_append]
          exact fun heq => hseen (List.append_cancel_left heq)
        · exact hblanks hat.1 (.inl ⟨found, hfound⟩) hflush
      · rw [Place.closes, Bool.or_eq_true, Bool.not_eq_true'] at hcloses
        have hbegins : g.place.begins (text.take pos) = true := eq_true_of_ne_false fun hfalse => hcloses (.inl hfalse)
        have hunclosed := eq_false_of_ne_true fun hclosed => hcloses (.inr hclosed)
        have hplace : ((∃ strip, g.place = .fresh strip) ∨ g.place = .opened) ∧
            ((text.take pos).dropWhile isWhitespace).head? = some '\x7b' := by
          cases hplace : g.place with
          | fresh strip =>
            rw [hplace] at hbegins
            exact ⟨.inl ⟨strip, rfl⟩, of_decide_eq_true hbegins⟩
          | opened =>
            rw [hplace] at hbegins
            exact ⟨.inr rfl, of_decide_eq_true hbegins⟩
          | _ =>
            rw [hplace] at hbegins
            exact absurd hbegins Bool.false_ne_true
        obtain ⟨hcontent, hwindow⟩ := window_of_place hplace.1
        exact candidate_split parse nextCallId hparse h htools htable hcontent hwindow hfound hplace.2 hunclosed

end

/-! ## Tokens -/

theorem trimPrefix_format (g : Grammar) (text : List Char) : (g.trimPrefix text).1.format = g.format := by
  obtain ⟨trim, strip, heq⟩ := trimPrefix_eq g text
  rw [heq]

theorem completeJson_format (g : Grammar) (text : List Char) : (g.completeJson parse nextCallId text).1.format = g.format := by
  unfold Grammar.completeJson
  split <;> rfl

theorem emitContent_format (g : Grammar) (text : List Char) : (g.emitContent parse nextCallId text).1.format = g.format := by
  unfold Grammar.emitContent Grammar.emitText
  dsimp only
  split_ifs
  · exact trimPrefix_format g text
  · rw [trimPrefix_format, completeJson_format]
    exact trimPrefix_format g text
  all_goals exact trimPrefix_format g text

theorem route_format (g : Grammar) (text : List Char) : (g.route parse nextCallId text).1.format = g.format := by
  unfold Grammar.route
  split_ifs
  · rfl
  · split
    · exact emitContent_format parse nextCallId g text
    · exact trimPrefix_format g text
    · exact (resolveHeader_keeps _ false).1
    all_goals rfl

theorem finishToolCall_format (g : Grammar) (body : List Char) : (g.finishToolCall parse nextCallId body).1.format = g.format := by
  unfold Grammar.finishToolCall Grammar.emitCalls
  dsimp only
  split <;> rfl

theorem apply_format (g : Grammar) (action : Action) : (g.apply parse nextCallId action).1.format = g.format := by
  rcases hstate : g.state with _ | header | _ | body | body | capture
  case jsonCall =>
    unfold Grammar.apply
    rw [hstate]
    cases action with
    | closeReasoning => exact (resolveHeader_keeps { g with state := .content } true).1
    | openTool => exact (resolveHeader_keeps { g with state := .content } true).1
    | _ => rfl
  all_goals
    unfold Grammar.apply
    rw [hstate]
    dsimp only
    cases action with
    | closeReasoning => exact (resolveHeader_keeps g true).1
    | openTool => exact (resolveHeader_keeps g true).1
    | closeTool =>
      dsimp only
      split
      · exact finishToolCall_format parse nextCallId _ _
      · rfl
    | _ => rfl

theorem processHold_format (g : Grammar) (hold : List Char) : (processHold parse nextCallId g hold).1.format = g.format := by
  induction hlength : hold.length using Nat.strongRecOn generalizing g hold with
  | ind n ih =>
    rw [processHold]
    split
    · dsimp only
      split_ifs with hcomplete hrest
      · dsimp only
        rw [ih _ (hlength ▸ hrest.1) _ _ rfl, completeJson_format]
      · exact completeJson_format parse nextCallId _ _
      · rfl
    · split
      · dsimp only
        split_ifs with hrest
        · dsimp only
          rw [ih _ (hlength ▸ hrest) _ _ rfl, apply_format, route_format]
        · dsimp only
          rw [apply_format, route_format]
      · exact route_format parse nextCallId g _

variable (spell : Spellings)

theorem push_text {p : OutputParser} {id : Nat} (hid : p.format.isMarker id = false) (hcontrol : spell.isControl id = false)
    (hpending : p.pending = []) (hvalid : Utf8.valid (spell.decode id) = (text, [])) (htext : text ≠ []) :
    ∃ n, p.push parse nextCallId spell id =
      let fed := processHold parse nextCallId p.toGrammar (p.hold ++ text)
      (⟨fed.1, [], fed.2.1, n⟩, fed.2.2) := by
  obtain ⟨n, heq⟩ := push_eq parse nextCallId spell hid
  rw [heq, bytesOf_eq spell p hcontrol, hpending, List.nil_append]
  refine ⟨n, ?_⟩
  unfold OutputParser.drain
  dsimp only
  rw [drainPending, hvalid]
  dsimp only
  rw [if_neg (by simpa using htext)]
  rfl

theorem finish_text {p : OutputParser} (hpending : p.pending = []) :
    (p.finish parse nextCallId).2 = (p.toGrammar.finish parse nextCallId p.hold).2 := by
  have hdrain : p.drain parse nextCallId = (p, []) := by
    unfold OutputParser.drain
    rw [hpending, drainPending, Utf8.valid_other (fun c n => Utf8.Next.noConfusion)]
    dsimp only
    rw [if_pos List.isEmpty_nil]
    obtain ⟨g, pending, hold, n⟩ := p
    obtain rfl : pending = [] := hpending
    rfl
  unfold OutputParser.finish OutputParser.flushPending
  rw [hdrain]
  dsimp only
  rw [hpending, if_pos List.isEmpty_nil]
  rfl

theorem pushAll_cons (p : OutputParser) (id : Nat) (ids : List Nat) :
    p.pushAll parse nextCallId spell (id :: ids) = (((p.push parse nextCallId spell id).1.pushAll parse nextCallId spell ids).1,
      (p.push parse nextCallId spell id).2 ++ ((p.push parse nextCallId spell id).1.pushAll parse nextCallId spell ids).2) := rfl

/-- All that a run of the parser emits. -/
def output (format : ChatFormat) (startInThinking : Bool) (ids : List Nat) : List Item :=
  let run := (OutputParser.new format startInThinking).pushAll parse nextCallId spell ids
  run.2 ++ (run.1.finish parse nextCallId).2

/-- However these bytes are cut into ordinary tokens, the blocks are the same when adjacent text and adjacent reasoning are merged. -/
def SplitIndependent (format : ChatFormat) (startInThinking : Bool) (bytes : List UInt8) : Prop :=
  ∀ (spell : Spellings) (ids ids' : List Nat), (∀ id ∈ ids ++ ids', format.isMarker id = false) →
    ids.flatMap spell.decode = bytes → ids'.flatMap spell.decode = bytes →
      Same (output parse nextCallId spell format startInThinking ids) (output parse nextCallId spell format startInThinking ids')

theorem new_bare (htools : format.tools.isLlamaJson = true) (startInThinking : Bool) :
    let g := Grammar.new format startInThinking
    Bare format g ∧ (∀ capture, g.state ≠ .jsonCall capture) ∧ g.place = Place.start format startInThinking := by
  unfold Grammar.new Place.start Grammar.place
  dsimp only
  rw [htools]
  cases startInThinking && format.reasoning.isSome
  · exact ⟨⟨rfl, rfl, rfl, by simp⟩, by simp, rfl⟩
  · exact ⟨⟨rfl, rfl, rfl, by simp⟩, by simp, rfl⟩

theorem steady_bytes (htools : format.tools.isLlamaJson = true)
    (htable : BareTable (Grammar.markersOf format) (headerWordOf format)) {p : OutputParser} (ids : List Nat)
    (hids : ∀ id ∈ ids, format.isMarker id = false)
    (hready : p.Reads (fun g hold text => Bare format g ∧ Kept g hold ∧ Follows format g (hold ++ text)) (ids.flatMap spell.decode)) :
    p.bytesOfAll parse nextCallId spell ids = ids.flatMap spell.decode := by
  induction ids generalizing p with
  | nil => rfl
  | cons id ids ih =>
    have hbytes : p.bytesOf spell id = spell.decode id := by
      unfold OutputParser.bytesOf
      have hstate := hready.1.state
      rcases hcases : p.state with _ | header | _ | body | body | capture
      case toolCall => exact absurd hcases (hstate body)
      all_goals
        dsimp only
        rw [Bool.and_false, if_neg Bool.false_ne_true]
    rw [List.flatMap_cons] at hready ⊢
    rw [← hbytes] at hready
    obtain ⟨hnext, -⟩ := push_sound parse nextCallId spell (bare_divides parse nextCallId htools htable) (hids id List.mem_cons_self) hready
    rw [OutputParser.bytesOfAll, hbytes, ih (fun id' hid' => hids id' (List.mem_cons_of_mem _ hid')) hnext]

/-- **The tokens of a steady text** make no difference. -/
theorem steady_output (htools : format.tools.isLlamaJson = true)
    (htable : BareTable (Grammar.markersOf format) (headerWordOf format)) (startInThinking : Bool) (ids : List Nat)
    (hids : ∀ id ∈ ids, format.isMarker id = false)
    (hsteady : steady (Grammar.markersOf format) (Place.start format startInThinking) (Utf8.lossy (ids.flatMap spell.decode)) = true) :
    Same (reading parse nextCallId (Grammar.new format startInThinking) (Utf8.lossy (ids.flatMap spell.decode)))
      (output parse nextCallId spell format startInThinking ids) := by
  obtain ⟨hbare, hstate, hplace⟩ := new_bare htools startInThinking
  have hready : (OutputParser.new format startInThinking).Reads
      (fun g hold text => Bare format g ∧ Kept g hold ∧ Follows format g (hold ++ text)) (ids.flatMap spell.decode) := by
    refine ⟨hbare, ⟨fun capture h => absurd h (hstate capture), fun _ => ?_⟩, ?_⟩
    · exact ⟨earliest_nil (hbare.separated htable), Nat.le_zero.mp (partialSuffix_le [])⟩
    · refine (follows_iff hstate).mpr ?_
      rw [hplace]
      exact hsteady
  have hbytes := steady_bytes parse nextCallId spell htools htable ids hids hready
  have hrun := run_sound parse nextCallId spell (bare_divides parse nextCallId htools htable) ids hids (hbytes.symm ▸ hready)
  rw [hbytes] at hrun
  exact hrun

/-- A token that is a text, or two that are its parts. -/
def cutInTwo (n : Nat) (bytes before behind : List UInt8) : Spellings where
  tokenText := fun _ => ""
  decode := fun id => if id = n then bytes else if id = n + 1 then before else behind
  isControl := fun _ => false

theorem ordinary_ids (markerIds : List Nat) : ∃ n, ∀ id, n ≤ id → markerIds.contains id = false := by
  induction markerIds with
  | nil => exact ⟨0, fun _ _ => rfl⟩
  | cons marker markerIds ih =>
    obtain ⟨n, hn⟩ := ih
    refine ⟨max n (marker + 1), fun id hid => ?_⟩
    have hrest := hn id (by omega)
    have hne : id ≠ marker := by omega
    rw [List.contains_cons, hrest, Bool.or_false]
    exact beq_false_of_ne hne

/-- **A text that is not steady** has two tokens that are not the one. -/
theorem unsteady_output (hparse : ∀ body requireArguments calls, parse.parseJsonCalls body requireArguments = .ok calls → calls ≠ [])
    (htools : format.tools.isLlamaJson = true)
    (htable : BareTable (Grammar.markersOf format) (headerWordOf format)) (startInThinking : Bool) {bytes : List UInt8}
    (hvalid : (Utf8.valid bytes).2 = [])
    (hnot : ¬ steady (Grammar.markersOf format) (Place.start format startInThinking) (Utf8.lossy bytes) = true) :
    ¬ SplitIndependent parse nextCallId format startInThinking bytes := by
  obtain ⟨hbare, hstate, hplace⟩ := new_bare htools startInThinking
  obtain ⟨x, y, htext, ⟨hx, hy⟩, hseen⟩ := unsteady_split parse nextCallId hparse hbare htools htable hstate (Utf8.lossy bytes) (hplace ▸ hnot)
  have hbytes : Utf8.valid bytes = (x ++ y, []) := by
    rw [← htext, Utf8.lossy_of_valid hvalid]
    exact Prod.ext rfl hvalid
  obtain ⟨before, behind, hcut, hbefore, hbehind⟩ := Utf8.valid_split hbytes
  obtain ⟨n, hordinary⟩ := ordinary_ids format.markerIds
  have hid : ∀ id, n ≤ id → format.isMarker id = false := hordinary
  intro hindependent
  have hsame := hindependent (cutInTwo n bytes before behind) [n] [n + 1, n + 2] (by simp [hid]) (by simp [cutInTwo])
    (by simp [cutInTwo, hcut])
  refine hseen ?_
  have hone : output parse nextCallId (cutInTwo n bytes before behind) format startInThinking [n] =
      reading parse nextCallId (Grammar.new format startInThinking) (Utf8.lossy bytes) := by
    obtain ⟨k, hpush⟩ := push_text parse nextCallId (cutInTwo n bytes before behind) (p := OutputParser.new format startInThinking)
      (hid n (Nat.le_refl n)) rfl rfl (by simpa [cutInTwo] using hbytes) (List.append_ne_nil_of_left_ne_nil hx y)
    unfold output OutputParser.pushAll OutputParser.pushAll
    rw [hpush]
    dsimp only
    rw [finish_text _ _ rfl, List.append_nil, htext]
    rfl
  have htwo : output parse nextCallId (cutInTwo n bytes before behind) format startInThinking [n + 1, n + 2] =
      (processHold parse nextCallId (Grammar.new format startInThinking) x).2.2 ++
        reading parse nextCallId (processHold parse nextCallId (Grammar.new format startInThinking) x).1
          ((processHold parse nextCallId (Grammar.new format startInThinking) x).2.1 ++ y) := by
    obtain ⟨k, hpush⟩ := push_text parse nextCallId (cutInTwo n bytes before behind) (p := OutputParser.new format startInThinking)
      (hid (n + 1) (by omega)) rfl rfl (by simpa [cutInTwo] using hbefore) hx
    obtain ⟨k', hpush'⟩ := push_text parse nextCallId (cutInTwo n bytes before behind)
      (p := ⟨(processHold parse nextCallId (Grammar.new format startInThinking) x).1, [],
        (processHold parse nextCallId (Grammar.new format startInThinking) x).2.1, k⟩)
      (by rw [processHold_format]; exact hid (n + 2) (by omega)) rfl rfl (by simpa [cutInTwo] using hbehind) hy
    unfold output
    rw [pushAll_cons, pushAll_cons, hpush]
    dsimp only [OutputParser.new]
    rw [List.nil_append, hpush']
    dsimp only
    rw [show ∀ p : OutputParser, p.pushAll parse nextCallId (cutInTwo n bytes before behind) [] = (p, []) from fun _ => rfl,
      finish_text _ _ rfl, List.append_nil, List.append_assoc]
    rfl
  rw [← hone, ← htwo]
  exact hsame.symbols_eq

/-- **The tokens of a text** make no difference to its blocks when the text is steady, and only then if its bytes are characters. -/
theorem splitIndependent_iff (h : DetectedBare format) (fromStr : String → Except String Value) (startInThinking : Bool)
    (bytes : List UInt8) :
    let readers := { parse with parseJsonCalls := Calls.parseJsonCalls fromStr }
    let isSteady := steady (Grammar.markersOf format) (Place.start format startInThinking) (Utf8.lossy bytes)
    (isSteady = true → SplitIndependent readers nextCallId format startInThinking bytes) ∧
      ((Utf8.valid bytes).2 = [] → (SplitIndependent readers nextCallId format startInThinking bytes ↔ isSteady = true)) := by
  dsimp only
  have hindependent (hsteady : steady (Grammar.markersOf format) (Place.start format startInThinking) (Utf8.lossy bytes) = true) :
      SplitIndependent { parse with parseJsonCalls := Calls.parseJsonCalls fromStr } nextCallId format startInThinking bytes := by
    intro spell ids ids' hids hbytes hbytes'
    have hone := steady_output { parse with parseJsonCalls := Calls.parseJsonCalls fromStr } nextCallId spell h.tools h.table
      startInThinking ids (fun id hid => hids id (List.mem_append_left _ hid)) (hbytes.symm ▸ hsteady)
    have htwo := steady_output { parse with parseJsonCalls := Calls.parseJsonCalls fromStr } nextCallId spell h.tools h.table
      startInThinking ids' (fun id hid => hids id (List.mem_append_right _ hid)) (hbytes'.symm ▸ hsteady)
    rw [hbytes] at hone
    rw [hbytes'] at htwo
    exact hone.symm.trans htwo
  refine ⟨hindependent, fun hvalid => ⟨fun hsplit => ?_, hindependent⟩⟩
  by_contra hnot
  exact unsteady_output { parse with parseJsonCalls := Calls.parseJsonCalls fromStr } nextCallId
    (Calls.parseJsonCalls_ne_nil fromStr) h.tools h.table startInThinking hvalid hnot hsplit

end

/-! ## Blanks and a marker that cuts show -/

def bareFormat : ChatFormat := ⟨[], none, .llamaJson (some "<|python_tag|>"), [], false⟩

theorem bareFormat_detected : DetectedBare bareFormat :=
  ⟨rfl, fun _ => true, "tool_calls \"parameters\"", by decide +kernel, by decide +kernel⟩

def noJson (_ : String) : Except String Value := .error ""

theorem splitIndependent_plain : SplitIndependent { noCalls with parseJsonCalls := Calls.parseJsonCalls noJson } Nat.repr bareFormat false
    [0x68, 0x69] := by
  have hlossy : Utf8.lossy [0x68, 0x69] = ['h', 'i'] := by decide +kernel
  refine (splitIndependent_iff noCalls Nat.repr bareFormat_detected noJson false [0x68, 0x69]).1 ?_
  rw [hlossy, steady_none (by decide +kernel)]
  exact .inl (by decide)

/-- Two blanks before answer text, and a marker in a candidate. -/
theorem not_splitIndependent :
    ¬ SplitIndependent { noCalls with parseJsonCalls := Calls.parseJsonCalls noJson } Nat.repr bareFormat false
        "  hi".toUTF8.data.toList ∧
      ¬ SplitIndependent { noCalls with parseJsonCalls := Calls.parseJsonCalls noJson } Nat.repr bareFormat false
        "\x7b<|python_tag|>\x7d".toUTF8.data.toList := by
  have hne := Calls.parseJsonCalls_ne_nil noJson
  have hblanks : Utf8.lossy "  hi".toUTF8.data.toList = "  hi".toList := by decide +kernel
  have hmarked : Utf8.lossy "\x7b<|python_tag|>\x7d".toUTF8.data.toList = "\x7b<|python_tag|>\x7d".toList := by decide +kernel
  constructor
  · apply unsteady_output { noCalls with parseJsonCalls := Calls.parseJsonCalls noJson } Nat.repr hne rfl bareFormat_detected.table
    · decide +kernel
    · rw [hblanks, steady_none (by decide +kernel)]
      decide +kernel
  · apply unsteady_output { noCalls with parseJsonCalls := Calls.parseJsonCalls noJson } Nat.repr hne rfl bareFormat_detected.table
    · decide +kernel
    · have hsep : Separated Marker.text ((Place.start bareFormat false).markers (Grammar.markersOf bareFormat)) :=
        bareFormat_detected.table.content
      have hfound : earliest Marker.text ((Place.start bareFormat false).markers (Grammar.markersOf bareFormat))
          "\x7b<|python_tag|>\x7d".toList = some (1, marker "<|python_tag|>" .openPython) := by decide +kernel
      rw [hmarked, steady_some hsep hfound]
      decide +kernel

end Cuca.Local
