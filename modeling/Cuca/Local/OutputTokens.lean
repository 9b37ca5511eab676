import Cuca.Local.OutputText

/-!
# Tokens that cut an output

Tokens cut an output anywhere, in a character or in a marker. What the parser holds back, of bytes and of text, stands for what it has
not decided.

* `processHold_some`, `processHold_none` : text up to a marker, and text without one;
* `Divides` : a reading of text that goes on across any cut of it;
* `drainPending_sound`, `push_sound` : bytes and tokens, in pieces;
* `run_sound` : all tokens, and the end.
-/

namespace Cuca.Local
open Markers

section
variable (parse : CallParsers) (nextCallId : Nat → String)

/-! ## Text that is held back -/

/-- The grammar behind the marker, and what it emits up to there. -/
def upTo (g : Grammar) (text : List Char) (pos : Nat) (found : Marker) : Grammar × List Item :=
  let (g, before) := g.route parse nextCallId (text.take pos)
  let (g, applied) := g.apply parse nextCallId found.action
  (g, before ++ applied)

variable {g : Grammar} {text : List Char}

theorem rest_shorter (hsep : Separated Marker.text g.activeMarkers) {pos : Nat} {found : Marker}
    (hfound : earliest Marker.text g.activeMarkers text = some (pos, found)) :
    (text.drop (pos + found.text.length)).length < text.length := by
  obtain ⟨hmem, hat, -⟩ := earliest_some hfound
  have hlength := hat.length_le
  have hpos := List.length_pos_of_ne_nil (hsep.nonempty found hmem)
  rw [List.length_drop]
  omega

theorem processHold_some (hsep : Separated Marker.text g.activeMarkers) (hjson : ∀ capture, g.state ≠ .jsonCall capture) {pos : Nat}
    {found : Marker} (hfound : earliest Marker.text g.activeMarkers text = some (pos, found)) :
    processHold parse nextCallId g text =
      let rest := processHold parse nextCallId (upTo parse nextCallId g text pos found).1 (text.drop (pos + found.text.length))
      (rest.1, rest.2.1, (upTo parse nextCallId g text pos found).2 ++ rest.2.2) := by
  rw [processHold]
  split
  · rename_i capture hstate
    exact absurd hstate (hjson capture)
  · rw [hfound]
    dsimp only
    rw [if_pos (rest_shorter hsep hfound)]
    rfl

theorem processHold_none (hjson : ∀ capture, g.state ≠ .jsonCall capture)
    (hfound : earliest Marker.text g.activeMarkers text = none) :
    processHold parse nextCallId g text =
      let ready := text.length - partialSuffix Marker.text g.activeMarkers text
      ((g.route parse nextCallId (text.take ready)).1, text.drop ready, (g.route parse nextCallId (text.take ready)).2) := by
  rw [processHold]
  split
  · rename_i capture hstate
    exact absurd hstate (hjson capture)
  · rw [hfound]

theorem take_seam {α : Type*} (a b : List α) (n : Nat) : (a ++ b).take (n + a.length) = a ++ b.take n := by
  rw [List.take_append, List.take_of_length_le (by omega), Nat.add_sub_cancel]

theorem drop_seam {α : Type*} (a b : List α) (n k : Nat) : (a ++ b).drop (n + a.length + k) = b.drop (n + k) := by
  rw [List.drop_append, List.drop_eq_nil_of_le (by omega), List.nil_append]
  congr 1
  omega

theorem upTo_route {ready later : List Char} {pos : Nat} (found : Marker)
    (hgrammar : (g.route parse nextCallId (ready ++ later.take pos)).1 =
      ((g.route parse nextCallId ready).1.route parse nextCallId (later.take pos)).1)
    (hitems : Same (g.route parse nextCallId (ready ++ later.take pos)).2
      ((g.route parse nextCallId ready).2 ++ ((g.route parse nextCallId ready).1.route parse nextCallId (later.take pos)).2)) :
    (upTo parse nextCallId g (ready ++ later) (pos + ready.length) found).1 =
        (upTo parse nextCallId (g.route parse nextCallId ready).1 later pos found).1 ∧
      Same (upTo parse nextCallId g (ready ++ later) (pos + ready.length) found).2
        ((g.route parse nextCallId ready).2 ++ (upTo parse nextCallId (g.route parse nextCallId ready).1 later pos found).2) := by
  unfold upTo
  rw [take_seam]
  dsimp only
  rw [hgrammar, ← List.append_assoc]
  exact ⟨rfl, hitems.append .rfl⟩

/-! ## Bytes that are held back -/

/-- **A reading** goes on across any cut: what is held back stands for what is not decided. `Ready g hold text` is what the grammar needs
of the text that is still to come. -/
structure Divides (format : ChatFormat) (reading : Grammar → List Char → List Item)
    (Ready : Grammar → List Char → List Char → Prop) : Prop where
  format {g : Grammar} {hold text : List Char} : Ready g hold text → g.format = format
  feed {g : Grammar} {hold text more : List Char} : Ready g hold (text ++ more) →
    Ready (feedText parse nextCallId g hold text).1 (feedText parse nextCallId g hold text).2.1 more ∧
      Same (reading g (hold ++ (text ++ more))) ((feedText parse nextCallId g hold text).2.2 ++
        reading (feedText parse nextCallId g hold text).1 ((feedText parse nextCallId g hold text).2.1 ++ more))
  finish {g : Grammar} {hold : List Char} : Ready g hold [] → Same (reading g hold) (g.finish parse nextCallId hold).2

variable {format : ChatFormat} {reading : Grammar → List Char → List Item} {Ready : Grammar → List Char → List Char → Prop}

variable (reading) in
def value (g : Grammar) (hold : List Char) (bytes : List UInt8) : List Item := reading g (hold ++ Utf8.lossy bytes)

theorem drainPending_sound (h : Divides parse nextCallId format reading Ready) {g : Grammar} {hold : List Char}
    (pending more : List UInt8) (hready : Ready g hold (Utf8.lossy (pending ++ more))) :
    let drained := drainPending parse nextCallId g hold pending
    Ready drained.1 drained.2.1 (Utf8.lossy (drained.2.2.1 ++ more)) ∧
      Same (value reading g hold (pending ++ more)) (drained.2.2.2 ++ value reading drained.1 drained.2.1 (drained.2.2.1 ++ more)) := by
  induction hlength : pending.length using Nat.strongRecOn generalizing g hold pending with
  | ind n ih =>
    unfold value
    rw [Utf8.lossy_valid_append] at hready ⊢
    -- the valid characters
    obtain ⟨g₁, hold₁, items₁, hfed, hready₁, hsame₁⟩ : ∃ g₁ hold₁ items₁,
        (if (Utf8.valid pending).1.isEmpty then (g, hold, []) else feedText parse nextCallId g hold (Utf8.valid pending).1) =
          (g₁, hold₁, items₁) ∧ Ready g₁ hold₁ (Utf8.lossy ((Utf8.valid pending).2 ++ more)) ∧
          Same (reading g (hold ++ ((Utf8.valid pending).1 ++ Utf8.lossy ((Utf8.valid pending).2 ++ more))))
            (items₁ ++ reading g₁ (hold₁ ++ Utf8.lossy ((Utf8.valid pending).2 ++ more))) := by
      by_cases hempty : (Utf8.valid pending).1.isEmpty = true
      · rw [if_pos hempty]
        rw [List.isEmpty_iff.mp hempty] at hready ⊢
        exact ⟨g, hold, [], rfl, hready, .rfl⟩
      · rw [if_neg hempty]
        exact ⟨_, _, _, rfl, h.feed hready⟩
    rw [drainPending]
    dsimp only
    rw [hfed]
    dsimp only
    split
    · -- a bad sequence
      rename_i k hinvalid
      have hshorter : ((Utf8.valid pending).2.drop k).length < pending.length := by
        have hdrop := @Utf8.drop_length_lt (Utf8.valid pending).2 k (by rw [hinvalid]; rfl)
        exact Nat.lt_of_lt_of_le hdrop (Utf8.settled_valid pending).2.1
      have hlossy : Utf8.lossy ((Utf8.valid pending).2 ++ more) =
          [Utf8.replacement] ++ Utf8.lossy ((Utf8.valid pending).2.drop k ++ more) := Utf8.lossy_invalid_append hinvalid more
      rw [hlossy] at hready₁
      obtain ⟨hready₂, hsame₂⟩ := h.feed hready₁
      obtain ⟨hready₃, hsame₃⟩ := ih _ (hlength ▸ hshorter) _ hready₂ rfl
      rw [← hlossy] at hsame₂
      rw [if_pos hshorter]
      refine ⟨hready₃, ?_⟩
      rw [List.append_assoc, List.append_assoc]
      exact hsame₁.trans (Same.append .rfl (hsame₂.trans (Same.append .rfl hsame₃)))
    · exact ⟨hready₁, hsame₁⟩

/-! ## Tokens -/

variable (spell : Spellings)

/-- The bytes of a token: what it decodes to, or the text of a control token in a call. -/
def OutputParser.bytesOf (p : OutputParser) (id : Nat) : List UInt8 :=
  let inCall := match p.state with
    | .toolCall _ => true
    | _ => false
  if (spell.decode id).isEmpty && spell.isControl id && inCall then (spell.tokenText id).toUTF8.data.toList else spell.decode id

/-- The bytes of all tokens, where they stand. -/
def OutputParser.bytesOfAll (p : OutputParser) : List Nat → List UInt8
  | [] => []
  | id :: ids => p.bytesOf spell id ++ bytesOfAll (p.push parse nextCallId spell id).1 ids

theorem bytesOf_eq (p : OutputParser) {id : Nat} (h : spell.isControl id = false) : p.bytesOf spell id = spell.decode id := by
  unfold OutputParser.bytesOf
  rw [h, Bool.and_false]
  rfl

theorem bytesOfAll_eq (p : OutputParser) (ids : List Nat) (h : ∀ id ∈ ids, spell.isControl id = false) :
    p.bytesOfAll parse nextCallId spell ids = ids.flatMap spell.decode := by
  induction ids generalizing p with
  | nil => rfl
  | cons id ids ih =>
    rw [OutputParser.bytesOfAll, bytesOf_eq spell p (h id List.mem_cons_self), List.flatMap_cons]
    rw [ih _ fun id' hid' => h id' (List.mem_cons_of_mem _ hid')]

variable (reading) in
def OutputParser.rest (p : OutputParser) (bytes : List UInt8) : List Item := value reading p.toGrammar p.hold (p.pending ++ bytes)

variable (Ready) in
def OutputParser.Reads (p : OutputParser) (bytes : List UInt8) : Prop := Ready p.toGrammar p.hold (Utf8.lossy (p.pending ++ bytes))

theorem drain_sound (h : Divides parse nextCallId format reading Ready) {p : OutputParser} {more : List UInt8} (hready : p.Reads Ready more) :
    (p.drain parse nextCallId).1.Reads Ready more ∧
      Same (p.rest reading more) ((p.drain parse nextCallId).2 ++ (p.drain parse nextCallId).1.rest reading more) :=
  drainPending_sound parse nextCallId h p.pending more hready

theorem push_eq {p : OutputParser} {id : Nat} (hid : p.format.isMarker id = false) :
    ∃ n, p.push parse nextCallId spell id =
      let drained := { p with pending := p.pending ++ p.bytesOf spell id }.drain parse nextCallId
      ({ drained.1 with reasoningTokens := n }, drained.2) := by
  have hpending : ∀ inCall, (if (spell.decode id).isEmpty && spell.isControl id && inCall then
      p.pending ++ spell.decode id ++ (spell.tokenText id).toUTF8.data.toList else p.pending ++ spell.decode id) =
      p.pending ++ if (spell.decode id).isEmpty && spell.isControl id && inCall then
        (spell.tokenText id).toUTF8.data.toList else spell.decode id := by
    intro inCall
    split
    · rename_i h
      rw [Bool.and_eq_true, Bool.and_eq_true, List.isEmpty_iff] at h
      rw [h.1.1, List.append_nil]
    · rfl
  unfold OutputParser.push
  rw [hid]
  dsimp only
  rw [if_neg Bool.false_ne_true, hpending]
  exact ⟨_, rfl⟩

theorem push_sound (h : Divides parse nextCallId format reading Ready) {p : OutputParser} {id : Nat}
    (hid : format.isMarker id = false) {more : List UInt8} (hready : p.Reads Ready (p.bytesOf spell id ++ more)) :
    (p.push parse nextCallId spell id).1.Reads Ready more ∧ Same (p.rest reading (p.bytesOf spell id ++ more))
      ((p.push parse nextCallId spell id).2 ++ (p.push parse nextCallId spell id).1.rest reading more) := by
  have hformat : p.format = format := h.format hready
  obtain ⟨n, heq⟩ := push_eq parse nextCallId spell (hformat.symm ▸ hid)
  unfold OutputParser.Reads at hready
  rw [← List.append_assoc] at hready
  obtain ⟨hnext, hsame⟩ := drain_sound parse nextCallId h (p := { p with pending := p.pending ++ p.bytesOf spell id }) hready
  rw [heq]
  refine ⟨hnext, ?_⟩
  unfold OutputParser.rest at hsame ⊢
  rw [← List.append_assoc]
  exact hsame

theorem pushAll_sound (h : Divides parse nextCallId format reading Ready) {p : OutputParser} (ids : List Nat)
    (hids : ∀ id ∈ ids, format.isMarker id = false) (hready : p.Reads Ready (p.bytesOfAll parse nextCallId spell ids)) :
    (p.pushAll parse nextCallId spell ids).1.Reads Ready [] ∧ Same (p.rest reading (p.bytesOfAll parse nextCallId spell ids))
      ((p.pushAll parse nextCallId spell ids).2 ++ (p.pushAll parse nextCallId spell ids).1.rest reading []) := by
  induction ids generalizing p with
  | nil => exact ⟨hready, .rfl⟩
  | cons id ids ih =>
    rw [OutputParser.bytesOfAll] at hready ⊢
    obtain ⟨hnext, hsame⟩ := push_sound parse nextCallId spell h (hids id List.mem_cons_self) hready
    obtain ⟨hlast, hrest⟩ := ih (fun id' hid' => hids id' (List.mem_cons_of_mem _ hid')) hnext
    refine ⟨hlast, ?_⟩
    show Same _ ((p.push parse nextCallId spell id).2 ++ _ ++ _)
    rw [List.append_assoc]
    exact hsame.trans (Same.append .rfl hrest)

theorem finish_sound (h : Divides parse nextCallId format reading Ready) {p : OutputParser} (hready : p.Reads Ready []) :
    Same (p.rest reading []) (p.finish parse nextCallId).2 := by
  obtain ⟨hnext, hsame⟩ := drain_sound parse nextCallId h hready
  refine hsame.trans ?_
  unfold OutputParser.finish OutputParser.flushPending OutputParser.rest value
  unfold OutputParser.Reads at hnext
  generalize p.drain parse nextCallId = drained at hnext ⊢
  obtain ⟨p', items⟩ := drained
  dsimp only at hnext ⊢
  rw [List.append_nil] at hnext ⊢
  by_cases hempty : p'.pending.isEmpty = true
  · rw [if_pos hempty]
    rw [List.isEmpty_iff.mp hempty, Utf8.lossy_none rfl, if_pos List.isEmpty_nil] at hnext ⊢
    rw [List.append_nil]
    exact Same.append .rfl (h.finish hnext)
  · rw [if_neg hempty]
    rw [← List.append_nil (Utf8.lossy p'.pending)] at hnext
    obtain ⟨hlast, hfed⟩ := h.feed hnext
    rw [List.append_nil, List.append_nil] at hfed
    dsimp only
    rw [List.append_assoc]
    exact Same.append .rfl (hfed.trans (Same.append .rfl (h.finish hlast)))

/-- **A run** emits what the reading of all the text at once is. -/
theorem run_sound (h : Divides parse nextCallId format reading Ready) {p : OutputParser} (ids : List Nat)
    (hids : ∀ id ∈ ids, format.isMarker id = false) (hready : p.Reads Ready (p.bytesOfAll parse nextCallId spell ids)) :
    Same (p.rest reading (p.bytesOfAll parse nextCallId spell ids)) ((p.pushAll parse nextCallId spell ids).2 ++
      ((p.pushAll parse nextCallId spell ids).1.finish parse nextCallId).2) := by
  obtain ⟨hlast, hsame⟩ := pushAll_sound parse nextCallId spell h ids hids hready
  exact hsame.trans (Same.append .rfl (finish_sound parse nextCallId h hlast))

end

end Cuca.Local
