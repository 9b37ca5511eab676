import Cuca.Sse.Batches

/-!
# After a refused frame

A frame whose `event`, `data` or `id` is not UTF-8 is refused by the call that completes it: the call answers an error, the frames it has
parsed before are dropped, and the refused one stays at the front of the buffer.

* `Stuck` : a parser whose buffer begins with a refused frame; `stuck_feedAll` : every later call answers the same error;
* `eventsBefore`, `delivered` : the events before the first refused frame, and those that the calls answer;
* `refused_sticks` : the calls deliver the former exactly where no frame completes before it in its chunk, and nothing after it ever.
-/

namespace Cuca.Sse
open Delimited

/-! ## Refused groups -/

def validGroup (group : List Line) : Bool := group.all fun line => validLine (stripCr line)

theorem parseLine_of_invalid (f : FrameFields) {line : Line} (h : validLine line = false) : ∃ e, parseLine f line = .error e := by
  unfold validLine at h
  unfold parseLine
  cases hs : splitField line with
  | none =>
    rw [hs] at h
    exact nomatch h
  | some fv =>
    obtain ⟨field, value⟩ := fv
    rw [hs] at h
    simp only [Bool.or_eq_false_iff, Bool.not_eq_false', List.contains_eq_mem, decide_eq_true_eq, List.mem_cons, List.not_mem_nil, or_false]
      at h
    obtain ⟨hfield, hvalue⟩ := h
    have herror : ∃ e, fromUtf8 value = .error e := by
      unfold fromUtf8
      cases hutf : String.fromUTF8? value.toByteArray with
      | none => exact ⟨_, rfl⟩
      | some s =>
        rw [hutf] at hvalue
        exact nomatch hvalue
    obtain ⟨e, he⟩ := herror
    dsimp only
    rw [he]
    obtain rfl | rfl | rfl := hfield
    · exact ⟨_, by rw [if_pos rfl]⟩
    · exact ⟨_, by rw [if_neg (by decide), if_pos rfl]⟩
    · exact ⟨_, by rw [if_neg (by decide), if_neg (by decide), if_pos rfl]⟩

theorem foldLines_of_invalid {group : List Line} (h : validGroup group = false) : ∀ f, ∃ e, foldLines f group = .error e := by
  induction group with
  | nil => exact nomatch h
  | cons line lines ih =>
    intro f
    unfold foldLines
    cases hline : validLine (stripCr line) with
    | false =>
      obtain ⟨e, he⟩ := parseLine_of_invalid f hline
      exact ⟨e, by rw [he]⟩
    | true =>
      obtain ⟨f', hf'⟩ := parseLine_of_valid f hline
      rw [hf']
      apply ih
      rw [validGroup, List.all_cons, hline, Bool.true_and] at h
      exact h

theorem parseGroup_of_invalid {group : List Line} (h : validGroup group = false) (last : Option String) :
    ∃ e, parseGroup last group = .error e := by
  obtain ⟨e, he⟩ := foldLines_of_invalid h FrameFields.empty
  exact ⟨e, by rw [parseGroup, he]; rfl⟩

theorem parseGroup_of_valid {group : List Line} (h : validGroup group = true) (last : Option String) :
    ∃ parsed, parseGroup last group = .ok parsed := by
  obtain ⟨f, hf⟩ := foldLines_of_valid (List.all_eq_true.mp h) FrameFields.empty
  exact ⟨_, by rw [parseGroup, hf]; rfl⟩

theorem parseGroups_of_invalid {groups : List (List Line)} (h : groups.all validGroup = false) : ∀ last, ∃ e, parseGroups last groups = .error e := by
  induction groups with
  | nil => exact nomatch h
  | cons group groups ih =>
    intro last
    cases hvalid : validGroup group with
    | false =>
      obtain ⟨e, he⟩ := parseGroup_of_invalid hvalid last
      exact ⟨e, by rw [parseGroups, he]⟩
    | true =>
      obtain ⟨parsed, hparsed⟩ := parseGroup_of_valid hvalid last
      rw [List.all_cons, hvalid, Bool.true_and] at h
      obtain ⟨e, he⟩ := ih h (parsed.2.or last)
      exact ⟨e, by simp only [parseGroups, hparsed, he]⟩

/-! ## The buffer after an error -/

/-- The buffer begins with a frame that is refused with `e`. -/
def Stuck (p : SseStreamParser) (e : CucaError) : Prop :=
  ∃ bad later, frames p.buffer = bad :: later ∧ parseGroup p.lastEventId bad = .error e

theorem stuck_append {p : SseStreamParser} {e : CucaError} (h : Stuck p e) (chunk : List UInt8) :
    Stuck { p with buffer := p.buffer ++ chunk } e := by
  obtain ⟨bad, later, hframes, hbad⟩ := h
  exact ⟨bad, later ++ frames (retained p.buffer ++ chunk), by rw [frames_append, hframes]; rfl, hbad⟩

/-- **A refused frame stays**: the next call answers its error again, and keeps the chunk behind it. -/
theorem stuck_feedChunk {p : SseStreamParser} {e : CucaError} (h : Stuck p e) (chunk : List UInt8) :
    p.feedChunk chunk = (.error e, { p with buffer := p.buffer ++ chunk }) := by
  obtain ⟨bad, later, hframes, hbad⟩ := stuck_append h chunk
  have hnone : parseGroups p.lastEventId [] = .ok ([], p.lastEventId) := rfl
  obtain ⟨rest, heq, -, hsame⟩ := feedChunk_refused hframes hnone hbad
  rw [hsame rfl] at heq
  exact heq

theorem stuck_feedAll (chunks : List (List UInt8)) : ∀ {p : SseStreamParser} {e : CucaError}, Stuck p e →
    (∀ result ∈ (p.feedAll chunks).1, result = .error e) ∧ Stuck (p.feedAll chunks).2 e := by
  induction chunks with
  | nil => exact fun h => ⟨fun result hmem => absurd hmem List.not_mem_nil, h⟩
  | cons chunk chunks ih =>
    intro p e h
    rw [SseStreamParser.feedAll, stuck_feedChunk h]
    obtain ⟨hresults, hstuck⟩ := ih (stuck_append h chunk)
    refine ⟨fun result hmem => ?_, hstuck⟩
    obtain rfl | hmem := List.mem_cons.mp hmem
    · rfl
    · exact hresults result hmem

/-! ## What is delivered -/

/-- The events of the frames before the first refused one. -/
def eventsBefore : Option String → List (List Line) → List SseEvent
  | _, [] => []
  | last, group :: groups =>
    match parseGroup last group with
    | .error _ => []
    | .ok (ev, frameId) => ev :: eventsBefore (frameId.or last) groups

/-- The events that the calls answer. -/
def delivered : List (Except CucaError (List SseEvent)) → List SseEvent
  | [] => []
  | .error _ :: results => delivered results
  | .ok evs :: results => evs ++ delivered results

/-- The first refused frame is the first that its chunk completes. -/
def refusedFirst : List (List (List Line)) → Bool
  | [] => true
  | batch :: batches => if batch.all validGroup then refusedFirst batches else batch.head?.all fun group => !validGroup group

theorem delivered_errors {results : List (Except CucaError (List SseEvent))} {e : CucaError} (h : ∀ result ∈ results, result = .error e) :
    delivered results = [] := by
  induction results with
  | nil => rfl
  | cons result results ih =>
    obtain ⟨rfl, hrest⟩ := List.forall_mem_cons.mp h
    exact ih hrest

theorem framesValid_iff (stream : List UInt8) : FramesValid stream ↔ (frames stream).all validGroup = true := by
  unfold FramesValid validGroup
  simp

theorem eventsBefore_append {groups : List (List Line)} (more : List (List Line)) : ∀ {last mid : Option String} {evs : List SseEvent},
    parseGroups last groups = .ok (evs, mid) → eventsBefore last (groups ++ more) = evs ++ eventsBefore mid more := by
  induction groups with
  | nil =>
    intro last mid evs h
    simp only [parseGroups, Except.ok.injEq, Prod.mk.injEq] at h
    obtain ⟨rfl, rfl⟩ := h
    rfl
  | cons group groups ih =>
    intro last mid evs h
    unfold parseGroups at h
    rw [List.cons_append, eventsBefore]
    cases hg : parseGroup last group with
    | error e => simp [hg] at h
    | ok parsed =>
      cases hgs : parseGroups (parsed.2.or last) groups with
      | error e => simp [hg, hgs] at h
      | ok r =>
        simp only [hg, hgs, Except.ok.injEq, Prod.mk.injEq] at h
        obtain ⟨rfl, rfl⟩ := h
        rw [List.cons_append]
        exact congrArg (parsed.1 :: ·) (ih hgs)

theorem eventsBefore_eq_nil {batch : List (List Line)} (h : batch.all validGroup = false) (more : List (List Line)) (last : Option String) :
    eventsBefore last (batch ++ more) = [] ↔ (batch.head?.all fun group => !validGroup group) = true := by
  cases batch with
  | nil => exact nomatch h
  | cons group batch =>
    rw [List.cons_append, eventsBefore, List.head?_cons, Option.all_some]
    cases hvalid : validGroup group with
    | true =>
      obtain ⟨parsed, hparsed⟩ := parseGroup_of_valid hvalid last
      simp [hparsed]
    | false =>
      obtain ⟨e, he⟩ := parseGroup_of_invalid hvalid last
      simp [he]

/-- **What the calls deliver**, from any bytes a parser retains. -/
theorem delivered_feedAll (chunks : List (List UInt8)) : ∀ {buffer : List UInt8} (last : Option String), Settled buffer →
    (delivered ((SseStreamParser.mk buffer last).feedAll chunks).1 = eventsBefore last (frames (buffer ++ chunks.flatten)) ↔
      refusedFirst (batches buffer chunks) = true) ∧
    ((frames (buffer ++ chunks.flatten)).all validGroup = false →
      ∃ e, .error e ∈ ((SseStreamParser.mk buffer last).feedAll chunks).1 ∧ Stuck ((SseStreamParser.mk buffer last).feedAll chunks).2 e) := by
  induction chunks with
  | nil =>
    intro buffer last hsettled
    rw [List.flatten_nil, List.append_nil, hsettled.1]
    exact ⟨iff_of_true rfl rfl, fun h => (nomatch h)⟩
  | cons chunk chunks ih =>
    intro buffer last hsettled
    rw [List.flatten_cons, ← List.append_assoc, frames_append, SseStreamParser.feedAll]
    simp only [batches, refusedFirst]
    cases hbatch : (frames (buffer ++ chunk)).all validGroup with
    | true =>
      have hgroups : ∀ group ∈ frames (buffer ++ chunk), ∀ line ∈ group, validLine (stripCr line) = true := (framesValid_iff _).mpr hbatch
      obtain ⟨evs, mid, hparse⟩ := parseGroups_of_valid hgroups last
      obtain ⟨hdelivered, hstuck⟩ := ih mid (settled_retained (buffer ++ chunk))
      rw [feedChunk_eq hparse, eventsBefore_append _ hparse, List.all_append, hbatch, Bool.true_and, if_pos rfl]
      refine ⟨?_, fun h => ?_⟩
      · rw [← hdelivered]
        exact List.append_right_inj evs
      · obtain ⟨e, hmem, h⟩ := hstuck h
        exact ⟨e, List.mem_cons_of_mem _ hmem, h⟩
    | false =>
      obtain ⟨e, he⟩ := parseGroups_of_invalid hbatch last
      obtain ⟨before, bad, later, evs, mid, hgroups, hparse, hbad⟩ := parseGroups_refused he
      obtain ⟨rest, heq, hrest, -⟩ := feedChunk_refused hgroups hparse hbad
      have hstuck : Stuck ⟨rest, mid⟩ e := ⟨bad, later, hrest, hbad⟩
      obtain ⟨herrors, hafter⟩ := stuck_feedAll chunks hstuck
      rw [heq]
      refine ⟨?_, fun _ => ⟨e, List.mem_cons_self, hafter⟩⟩
      rw [if_neg Bool.false_ne_true, ← eventsBefore_eq_nil hbatch (frames (retained (buffer ++ chunk) ++ chunks.flatten)) last, eq_comm]
      simp only [delivered, delivered_errors herrors]

/-! ## All chunks -/

def feedAllFresh (chunks : List (List UInt8)) : List (Except CucaError (List SseEvent)) × SseStreamParser := SseStreamParser.new.feedAll chunks

def Delivers (chunks : List (List UInt8)) : Prop := delivered (feedAllFresh chunks).1 = eventsBefore none (frames chunks.flatten)

def Recovers (chunks : List (List UInt8)) : Prop :=
  Delivers chunks ∧ ∃ more evs, .ok evs ∈ ((feedAllFresh chunks).2.feedAll more).1

theorem fresh_stuck {chunks : List (List UInt8)} (h : ¬FramesValid chunks.flatten) :
    ∃ e, .error e ∈ (feedAllFresh chunks).1 ∧ Stuck (feedAllFresh chunks).2 e := by
  rw [framesValid_iff, Bool.not_eq_true] at h
  exact (delivered_feedAll chunks none settled_nil).2 h

/-- **No parser recovers.** Whatever the chunks of a stream with a refused frame: the calls deliver what comes before it exactly where no
other frame completes before it in its chunk, and after its error every call answers that error. -/
theorem refused_sticks (chunks : List (List UInt8)) (h : ¬FramesValid chunks.flatten) :
    (Delivers chunks ↔ refusedFirst (batches [] chunks) = true) ∧
      (∃ e, .error e ∈ (feedAllFresh chunks).1 ∧ ∀ more, ∀ result ∈ ((feedAllFresh chunks).2.feedAll more).1, result = .error e) ∧
      ¬Recovers chunks := by
  obtain ⟨e, hmem, hstuck⟩ := fresh_stuck h
  have hafter : ∀ more, ∀ result ∈ ((feedAllFresh chunks).2.feedAll more).1, result = .error e := fun more => (stuck_feedAll more hstuck).1
  refine ⟨(delivered_feedAll chunks none settled_nil).1, ⟨e, hmem, hafter⟩, ?_⟩
  rintro ⟨-, more, evs, hok⟩
  exact nomatch hafter more _ hok

def goodThenBad : List UInt8 := ascii "data: a\n\ndata: " ++ [0xFF] ++ ascii "\n\n"

/-- Byte by byte the first frame is delivered; in one chunk it is lost; and either way the parser is stuck. -/
theorem good_then_bad_sticks :
    (Delivers (goodThenBad.map fun b => [b]) ∧ ¬Delivers [goodThenBad]) ∧
      ¬Recovers (goodThenBad.map fun b => [b]) ∧ ¬Recovers [goodThenBad] := by
  have hbytes := refused_sticks (goodThenBad.map fun b => [b]) (by decide)
  have hwhole := refused_sticks [goodThenBad] (by decide)
  exact ⟨⟨hbytes.1.mpr (by decide), fun h => absurd (hwhole.1.mp h) (by decide)⟩, hbytes.2.2, hwhole.2.2⟩

theorem not_every_parser_recovers : ¬∀ chunks : List (List UInt8), ¬FramesValid chunks.flatten → Recovers chunks := by
  intro hall
  obtain ⟨hdelivers, -⟩ := hall [goodThenBad] (by decide)
  exact absurd hdelivers (by unfold Delivers; decide)

end Cuca.Sse
