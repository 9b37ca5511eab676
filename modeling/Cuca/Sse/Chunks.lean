import Cuca.Lib.Delimited
import Cuca.Sse.Parser

/-!
# Chunk boundaries do not matter

The reference reads the whole stream at once: it splits it into lines at line feeds, groups the lines at blank lines,
and parses each group on its own with the running last id (`reference`). For a stream whose completed frames hold valid
UTF-8 (`FramesValid`), every way of cutting it into chunks gives the reference's events, last id and retained bytes.

* `parseFrame_unlines` : the code's scan of a raw frame is the fold over its lines;
* `feedLoop_spec` : the scan of one buffer, from any line it has already passed;
* `feedAll_eq` : the chunks one after the other, through `Delimited.complete_append`.
-/

namespace Cuca.Sse
open Delimited

/-! ## The reference -/

abbrev Line := List UInt8

def isNewline (b : UInt8) : Bool := b == newline

def completeLines (stream : List UInt8) : List Line := complete isNewline stream

def partialLine (stream : List UInt8) : Line := pending isNewline stream

def frames (stream : List UInt8) : List (List Line) := complete isBlank (completeLines stream)

def openFrame (stream : List UInt8) : List Line := pending isBlank (completeLines stream)

def retained (stream : List UInt8) : List UInt8 := unlines newline (openFrame stream) ++ partialLine stream

def foldLines (f : FrameFields) : List Line → Except CucaError FrameFields
  | [] => .ok f
  | line :: lines =>
    match parseLine f (stripCr line) with
    | .error e => .error e
    | .ok f => foldLines f lines

def parseGroup (lastEventId : Option String) (group : List Line) : Except CucaError (SseEvent × Option String) :=
  (foldLines FrameFields.empty group).map (FrameFields.finish lastEventId)

/-- The groups in order, with the running last id. -/
def parseGroups (lastEventId : Option String) :
    List (List Line) → Except CucaError (List SseEvent × Option String)
  | [] => .ok ([], lastEventId)
  | group :: groups =>
    match parseGroup lastEventId group with
    | .error e => .error e
    | .ok (ev, frameId) =>
      match parseGroups (frameId.or lastEventId) groups with
      | .error e => .error e
      | .ok (evs, last) => .ok (ev :: evs, last)

/-- The whole stream at once: the events, and the parser's final state. -/
def reference (stream : List UInt8) : Except CucaError (List SseEvent × SseStreamParser) :=
  match parseGroups none (frames stream) with
  | .error e => .error e
  | .ok (evs, last) => .ok (evs, ⟨retained stream, last⟩)

/-- The events of successive calls, up to the first error. -/
def concatEvents : List (Except CucaError (List SseEvent)) → Except CucaError (List SseEvent)
  | [] => .ok []
  | .error e :: _ => .error e
  | .ok evs :: rs =>
    match concatEvents rs with
    | .error e => .error e
    | .ok more => .ok (evs ++ more)

/-! ## Streams with valid values -/

/-- The value of an `event`, `data` or `id` line is UTF-8. -/
def validLine (line : Line) : Bool :=
  match splitField line with
  | none => true
  | some (field, value) =>
    !([ascii "event", ascii "data", ascii "id"].contains field) || (String.fromUTF8? value.toByteArray).isSome

def FramesValid (stream : List UInt8) : Prop :=
  ∀ group ∈ frames stream, ∀ line ∈ group, validLine (stripCr line) = true

instance (stream : List UInt8) : Decidable (FramesValid stream) :=
  inferInstanceAs (Decidable (∀ group ∈ frames stream, ∀ line ∈ group, validLine (stripCr line) = true))

theorem fromUtf8_of_isSome {value : List UInt8} (h : (String.fromUTF8? value.toByteArray).isSome = true) :
    ∃ s, fromUtf8 value = .ok s := by
  obtain ⟨s, hs⟩ := Option.isSome_iff_exists.mp h
  exact ⟨s, by rw [fromUtf8, hs]⟩

theorem parseLine_of_valid (f : FrameFields) {line : Line} (h : validLine line = true) :
    ∃ f', parseLine f line = .ok f' := by
  unfold validLine at h
  unfold parseLine
  cases hs : splitField line with
  | none => exact ⟨f, rfl⟩
  | some fv =>
    obtain ⟨field, value⟩ := fv
    rw [hs] at h
    simp only [Bool.or_eq_true, Bool.not_eq_true', List.contains_eq_mem, decide_eq_false_iff_not,
      List.mem_cons, List.not_mem_nil, or_false, not_or] at h
    rcases h with ⟨hevent, hdata, hid⟩ | h
    · simp only [hevent, hdata, hid, if_false]
      split
      · split <;> exact ⟨_, rfl⟩
      · exact ⟨f, rfl⟩
    · obtain ⟨s, hs⟩ := fromUtf8_of_isSome h
      simp only [hs]
      split_ifs <;> exact ⟨_, rfl⟩

theorem foldLines_of_valid {group : List Line} (h : ∀ line ∈ group, validLine (stripCr line) = true) :
    ∀ f, ∃ f', foldLines f group = .ok f' := by
  induction group with
  | nil => exact fun f => ⟨f, rfl⟩
  | cons line lines ih =>
    intro f
    obtain ⟨f₁, hf₁⟩ := parseLine_of_valid f (h line (by simp))
    obtain ⟨f₂, hf₂⟩ := ih (fun l hl => h l (by simp [hl])) f₁
    exact ⟨f₂, by rw [foldLines, hf₁]; exact hf₂⟩

theorem parseGroups_of_valid {groups : List (List Line)}
    (h : ∀ group ∈ groups, ∀ line ∈ group, validLine (stripCr line) = true) :
    ∀ last, ∃ evs last', parseGroups last groups = .ok (evs, last') := by
  induction groups with
  | nil => exact fun last => ⟨[], last, rfl⟩
  | cons group groups ih =>
    intro last
    obtain ⟨f, hf⟩ := foldLines_of_valid (h group (by simp)) FrameFields.empty
    obtain ⟨evs, last', hrest⟩ := ih (fun g hg => h g (by simp [hg])) (f.currentId.or last)
    exact ⟨(f.finish last).1 :: evs, last', by simp only [parseGroups, parseGroup, hf, Except.map,
      FrameFields.finish, hrest]⟩

theorem parseGroups_split {gs hs : List (List Line)} {last last' : Option String} {evs : List SseEvent}
    (h : parseGroups last (gs ++ hs) = .ok (evs, last')) :
    ∃ first mid rest, parseGroups last gs = .ok (first, mid) ∧ parseGroups mid hs = .ok (rest, last') ∧
      evs = first ++ rest := by
  induction gs generalizing last evs with
  | nil => exact ⟨[], last, evs, rfl, h, rfl⟩
  | cons g gs ih =>
    simp only [List.cons_append, parseGroups] at h ⊢
    cases hg : parseGroup last g with
    | error e => simp [hg] at h
    | ok r =>
      obtain ⟨ev, frameId⟩ := r
      simp only [hg] at h ⊢
      cases hgs : parseGroups (frameId.or last) (gs ++ hs) with
      | error e => simp [hgs] at h
      | ok r =>
        simp only [hgs, Except.ok.injEq, Prod.mk.injEq] at h
        obtain ⟨rfl, rfl⟩ := h
        obtain ⟨first, mid, rest, hfirst, hrest, heq⟩ := ih hgs
        exact ⟨ev :: first, mid, rest, by rw [hfirst], hrest, by rw [heq, List.cons_append]⟩

/-! ## The scans of the code -/

theorem memchr_of_free {xs : List UInt8} (h : ∀ x ∈ xs, isNewline x = false) : memchr newline xs = none := by
  simpa [memchr, isNewline] using h

theorem memchr_section {xs : List UInt8} (h : ∀ x ∈ xs, isNewline x = false) (ys : List UInt8) :
    memchr newline (xs ++ newline :: ys) = some xs.length := by
  induction xs with
  | nil => simp [memchr, List.findIdx?_cons]
  | cons x xs ih =>
    have hx : (x == newline) = false := h x (by simp)
    have hxs := ih fun y hy => h y (by simp [hy])
    simp only [memchr] at hxs ⊢
    rw [List.cons_append, List.findIdx?_cons, hx, hxs]
    simp

theorem eq_newline {sep : UInt8} (h : isNewline sep = true) : sep = newline := by
  simpa [isNewline] using h

theorem parseLoop_unlines (lines : List Line) (hfree : ∀ l ∈ lines, ∀ x ∈ l, isNewline x = false) :
    ∀ (before : List UInt8) (fuel : Nat) (f : FrameFields), lines.length ≤ fuel →
      parseLoop (before ++ unlines newline lines) fuel before.length f = foldLines f lines := by
  induction lines with
  | nil =>
    intro before fuel f _
    cases fuel with
    | zero => rfl
    | succ fuel => simp [parseLoop, memchr, foldLines]
  | cons line lines ih =>
    intro before fuel f hfuel
    cases fuel with
    | zero => simp at hfuel
    | succ fuel =>
      have hline := hfree line (by simp)
      rw [parseLoop, List.drop_left, unlines_cons, memchr_section hline]
      simp only [List.take_left, foldLines]
      cases parseLine f (stripCr line) with
      | error e => rfl
      | ok f' =>
        have hrest := ih (fun l hl => hfree l (by simp [hl])) (before ++ line ++ [newline]) fuel f'
          (by simpa using hfuel)
        simpa [List.append_assoc, Nat.add_assoc] using hrest

theorem length_le_unlines (lines : List Line) : lines.length ≤ (unlines newline lines).length := by
  induction lines with
  | nil => simp
  | cons line lines ih => rw [unlines_cons]; simp; omega

theorem parseFrame_unlines (last : Option String) {lines : List Line}
    (hfree : ∀ l ∈ lines, ∀ x ∈ l, isNewline x = false) :
    parseFrame last (unlines newline lines) = parseGroup last lines := by
  have h := parseLoop_unlines lines hfree [] (unlines newline lines).length FrameFields.empty
    (length_le_unlines lines)
  simp only [List.nil_append, List.length_nil] at h
  rw [parseFrame, parseGroup, h]

theorem feedLoop_spec (fuel : Nat) : ∀ (seen : List Line) (after : List UInt8) (last : Option String)
    (events evs : List SseEvent) (last' : Option String),
    (∀ l ∈ seen, isBlank l = false) → (∀ l ∈ seen, ∀ x ∈ l, isNewline x = false) → after.length ≤ fuel →
    parseGroups last (complete isBlank (seen ++ completeLines after)) = .ok (evs, last') →
    SseStreamParser.feedLoop fuel ⟨unlines newline seen ++ after, last⟩ (unlines newline seen).length events =
      (.ok (events ++ evs),
        ⟨unlines newline (pending isBlank (seen ++ completeLines after)) ++ partialLine after, last'⟩) := by
  induction fuel with
  | zero =>
    intro seen after last events evs last' hblank hfree hfuel hparse
    obtain rfl : after = [] := List.length_eq_zero_iff.mp (Nat.le_zero.mp hfuel)
    simp only [completeLines, complete_nil, List.append_nil, complete_of_forall isBlank hblank, parseGroups,
      Except.ok.injEq, Prod.mk.injEq] at hparse
    obtain ⟨rfl, rfl⟩ := hparse
    simp [SseStreamParser.feedLoop, completeLines, partialLine, pending_of_forall isBlank hblank]
  | succ fuel ih =>
    intro seen after last events evs last' hblank hfree hfuel hparse
    rcases opened_or_ended isNewline after with hopen | ⟨line, sep, rest, hline, hsep, rfl⟩
    · -- no line feed is left: the bytes stay in the buffer
      have hlines : completeLines after = [] := complete_of_forall isNewline hopen
      rw [hlines, List.append_nil, complete_of_forall isBlank hblank] at hparse
      simp only [parseGroups, Except.ok.injEq, Prod.mk.injEq] at hparse
      obtain ⟨rfl, rfl⟩ := hparse
      rw [SseStreamParser.feedLoop]
      simp only [List.drop_left, memchr_of_free hopen, hlines, List.append_nil,
        pending_of_forall isBlank hblank, partialLine, pending_of_forall isNewline hopen]
    · obtain rfl := eq_newline hsep
      have hlines : completeLines (line ++ newline :: rest) = line :: completeLines rest :=
        complete_cons_section isNewline hline hsep rest
      have hpending : partialLine (line ++ newline :: rest) = partialLine rest :=
        pending_cons_section isNewline hline hsep rest
      have hlen : rest.length ≤ fuel := by simp at hfuel; omega
      rw [SseStreamParser.feedLoop]
      simp only [List.drop_left, memchr_section hline, List.take_left]
      rw [hlines] at hparse ⊢
      rw [hpending]
      cases hb : isBlank line with
      | true =>
        -- the blank line ends the frame: it is parsed and the buffer starts after it
        rw [complete_cons_section isBlank hblank hb, parseGroups] at hparse
        rw [pending_cons_section isBlank hblank hb, if_pos rfl, parseFrame_unlines last hfree]
        cases hg : parseGroup last seen with
        | error e => simp [hg] at hparse
        | ok r =>
          obtain ⟨ev, frameId⟩ := r
          simp only [hg] at hparse ⊢
          cases hgs : parseGroups (frameId.or last) (complete isBlank (completeLines rest)) with
          | error e => simp [hgs] at hparse
          | ok r =>
            obtain ⟨more, last''⟩ := r
            simp only [hgs, Except.ok.injEq, Prod.mk.injEq] at hparse
            obtain ⟨rfl, rfl⟩ := hparse
            have hdrop : (unlines newline seen ++ (line ++ newline :: rest)).drop
                ((unlines newline seen).length + line.length + 1) = rest := by
              rw [show unlines newline seen ++ (line ++ newline :: rest)
                = (unlines newline seen ++ line ++ [newline]) ++ rest by simp]
              exact List.drop_left' (by simp [Nat.add_assoc])
            have h := ih [] rest (frameId.or last) (events ++ [ev]) more last'' (by simp) (by simp) hlen hgs
            simp only [unlines_nil, List.nil_append, List.length_nil] at h
            rw [hdrop, h]
            simp
      | false =>
        -- the line joins the frame and the scan goes on after it
        have h := ih (seen ++ [line]) rest last events evs last'
          (by simpa [or_imp, forall_and] using ⟨hblank, hb⟩)
          (by simpa [or_imp, forall_and] using ⟨hfree, hline⟩) hlen (by simpa using hparse)
        simpa [Nat.add_assoc] using h

/-! ## One chunk, and all of them -/

theorem feedChunk_eq {buffer chunk : List UInt8} {last last' : Option String} {evs : List SseEvent}
    (h : parseGroups last (frames (buffer ++ chunk)) = .ok (evs, last')) :
    (SseStreamParser.mk buffer last).feedChunk chunk = (.ok evs, ⟨retained (buffer ++ chunk), last'⟩) := by
  have hspec := feedLoop_spec (buffer ++ chunk).length [] (buffer ++ chunk) last [] evs last' (by simp) (by simp)
    (Nat.le_refl _) h
  simpa [SseStreamParser.feedChunk, retained, openFrame] using hspec

theorem openFrame_free (stream : List UInt8) : ∀ l ∈ openFrame stream, ∀ x ∈ l, isNewline x = false :=
  fun l hl => complete_free isNewline stream l (pending_subset isBlank _ l hl)

theorem completeLines_retained (stream more : List UInt8) :
    completeLines (retained stream ++ more) = openFrame stream ++ completeLines (partialLine stream ++ more) := by
  rw [retained, List.append_assoc]
  exact complete_unlines (by rfl) _ (openFrame_free stream) _

theorem partialLine_retained (stream more : List UInt8) :
    partialLine (retained stream ++ more) = partialLine (partialLine stream ++ more) := by
  rw [retained, List.append_assoc]
  exact pending_unlines (by rfl) _ (openFrame_free stream) _

theorem frames_append (stream more : List UInt8) :
    frames (stream ++ more) = frames stream ++ frames (retained stream ++ more) := by
  rw [frames, completeLines, complete_append isNewline stream more, complete_append isBlank, frames, frames,
    completeLines_retained]
  rfl

theorem retained_append (stream more : List UInt8) :
    retained (stream ++ more) = retained (retained stream ++ more) := by
  have hpending : partialLine (stream ++ more) = partialLine (retained stream ++ more) := by
    rw [partialLine_retained]
    exact pending_append isNewline stream more
  have hopen : openFrame (stream ++ more) = openFrame (retained stream ++ more) := by
    rw [openFrame, openFrame, completeLines_retained, completeLines, complete_append isNewline stream more,
      pending_append isBlank]
    rfl
  change unlines newline (openFrame (stream ++ more)) ++ partialLine (stream ++ more) = _
  rw [hopen, hpending]
  rfl

def Settled (buffer : List UInt8) : Prop := frames buffer = [] ∧ retained buffer = buffer

theorem settled_nil : Settled [] := ⟨rfl, rfl⟩

theorem settled_retained (stream : List UInt8) : Settled (retained stream) := by
  constructor
  · have h := frames_append stream []
    simpa using h
  · have h := retained_append stream []
    simpa using h.symm

theorem feedAll_eq (chunks : List (List UInt8)) : ∀ (buffer : List UInt8) (last last' : Option String)
    (evs : List SseEvent), Settled buffer →
    parseGroups last (frames (buffer ++ chunks.flatten)) = .ok (evs, last') →
    concatEvents ((SseStreamParser.mk buffer last).feedAll chunks).1 = .ok evs ∧
      ((SseStreamParser.mk buffer last).feedAll chunks).2 = ⟨retained (buffer ++ chunks.flatten), last'⟩ := by
  induction chunks with
  | nil =>
    intro buffer last last' evs hs h
    rw [List.flatten_nil, List.append_nil, hs.1] at h
    simp only [parseGroups, Except.ok.injEq, Prod.mk.injEq] at h
    obtain ⟨rfl, rfl⟩ := h
    simp [SseStreamParser.feedAll, concatEvents, hs.2]
  | cons chunk chunks ih =>
    intro buffer last last' evs hs h
    rw [List.flatten_cons, ← List.append_assoc, frames_append] at h
    obtain ⟨first, mid, rest, hfirst, hrest, rfl⟩ := parseGroups_split h
    obtain ⟨hevs, hstate⟩ := ih (retained (buffer ++ chunk)) mid last' rest (settled_retained _) hrest
    rw [SseStreamParser.feedAll, feedChunk_eq hfirst]
    simp only [concatEvents, hevs, hstate, true_and]
    rw [List.flatten_cons, ← List.append_assoc, retained_append (buffer ++ chunk) chunks.flatten]

def feedFresh (chunks : List (List UInt8)) : Except CucaError (List SseEvent) × SseStreamParser :=
  (concatEvents (SseStreamParser.new.feedAll chunks).1, (SseStreamParser.new.feedAll chunks).2)

theorem reference_of_valid {stream : List UInt8} (h : FramesValid stream) :
    ∃ evs last, parseGroups none (frames stream) = .ok (evs, last) ∧
      reference stream = .ok (evs, ⟨retained stream, last⟩) := by
  obtain ⟨evs, last, hparse⟩ := parseGroups_of_valid h none
  exact ⟨evs, last, hparse, by rw [reference, hparse]⟩

theorem feedFresh_eq {chunks : List (List UInt8)} {evs : List SseEvent} {last : Option String}
    (h : parseGroups none (frames chunks.flatten) = .ok (evs, last)) :
    feedFresh chunks = (.ok evs, ⟨retained chunks.flatten, last⟩) := by
  obtain ⟨hevs, hstate⟩ := feedAll_eq chunks [] none last evs settled_nil h
  exact Prod.ext hevs hstate

/-- **Chunk boundaries do not matter.** Any two ways of cutting a stream of valid frames give the events, the last
event id and the retained bytes of reading the whole stream at once. -/
theorem feed_chunks_eq_reference (stream : List UInt8) (hvalid : FramesValid stream)
    (chunks₁ chunks₂ : List (List UInt8)) (h₁ : chunks₁.flatten = stream) (h₂ : chunks₂.flatten = stream) :
    ∃ evs p, reference stream = .ok (evs, p) ∧ feedFresh chunks₁ = (.ok evs, p) ∧
      feedFresh chunks₂ = (.ok evs, p) := by
  obtain ⟨evs, last, hparse, href⟩ := reference_of_valid hvalid
  refine ⟨evs, _, href, ?_, ?_⟩
  · subst h₁
    exact feedFresh_eq hparse
  · subst h₂
    exact feedFresh_eq hparse

theorem feed_chunks_eq_reference_split :
    ∃ evs p, reference (ascii "id: 7\r\ndata: " ++ [0xC3, 0xA9] ++ ascii "\r\n\r\nda") = .ok (evs, p) ∧
      feedFresh [ascii "id: 7\r", ascii "\ndata: " ++ [0xC3], [], [0xA9] ++ ascii "\r\n\r\nda"] = (.ok evs, p) ∧
      feedFresh [ascii "id: 7\r\ndata: " ++ [0xC3, 0xA9] ++ ascii "\r\n\r\nda"] = (.ok evs, p) :=
  feed_chunks_eq_reference _ (by decide) _ _ (by decide) (by decide)

end Cuca.Sse
