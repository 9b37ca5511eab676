import Cuca.Sse.Refusals
import Mathlib.Data.List.Induction

/-!
# What a frame says

The fields of one frame, as a function of its lines alone.

* `FrameLine` : a line with its end, LF or CRLF;
* `Reads` : the event that the lines say; `foldLines_reads` : what the scan makes of them;
* `joined_iff` : the scan joins the data values exactly where the first of several is not empty;
* `parseFrame_reads_iff` : the frames whose event is the one their lines say.
-/

namespace Cuca.Sse
open Delimited

/-! ## Lines -/

/-- The value of a line of the field `name`. -/
def valueOf (name : String) (line : Line) : Option (List UInt8) :=
  (splitField line).bind fun parts => if parts.1 = ascii name then some parts.2 else none

/-- A line and its end. -/
structure FrameLine where
  bytes : Line
  /-- It ends with CR LF. -/
  crlf : Bool
  free : ∀ b ∈ bytes, isNewline b = false
  plain : crlf = false → bytes.getLast? ≠ some carriageReturn

def FrameLine.raw (line : FrameLine) : Line := line.bytes ++ if line.crlf then [carriageReturn] else []

def frameBytes (lines : List FrameLine) : List UInt8 := unlines newline (lines.map FrameLine.raw)

theorem stripCr_raw (line : FrameLine) : stripCr line.raw = line.bytes := by
  unfold stripCr FrameLine.raw
  cases hcrlf : line.crlf with
  | true => simp
  | false =>
    rw [if_neg Bool.false_ne_true, List.append_nil, if_neg (line.plain hcrlf)]

theorem raw_free (line : FrameLine) : ∀ b ∈ line.raw, isNewline b = false := by
  intro b hb
  unfold FrameLine.raw at hb
  obtain hbytes | hend := List.mem_append.mp hb
  · exact line.free b hbytes
  · split at hend
    · obtain rfl := List.mem_singleton.mp hend
      rfl
    · exact absurd hend List.not_mem_nil

/-! ## Fields -/

/-- The values of the field `name`, as text. -/
def texts (name : String) (lines : List Line) : List String :=
  lines.filterMap fun line => (valueOf name line).bind fun value => String.fromUTF8? value.toByteArray

def keptId (id : String) : Bool := !(id.isEmpty || id.toList.contains '\x00')

/-- What the lines of a frame say. -/
structure Reads (lastEventId : Option String) (lines : List Line) (ev : SseEvent) : Prop where
  event : ev.event = (texts "event" lines).getLast?.getD "message"
  data : ev.data = "\n".intercalate (texts "data" lines)
  id : ev.id = ((texts "id" lines).filter keptId).getLast?.or lastEventId
  retry : ev.retry = (lines.filterMap (valueOf "retry")).getLast?.bind fun value =>
    (String.fromUTF8? value.toByteArray).bind fun text => parseU64 (trim text)

def appendData (data text : String) : String := (if data.isEmpty then data else data ++ "\n") ++ text

theorem texts_cons (name : String) (line : Line) (lines : List Line) :
    texts name (line :: lines) = ((valueOf name line).bind fun value => String.fromUTF8? value.toByteArray).toList ++ texts name lines := by
  unfold texts
  rw [List.filterMap_cons]
  cases (valueOf name line).bind fun value => String.fromUTF8? value.toByteArray with
  | none => rfl
  | some text => rfl

theorem texts_singleton {name : String} {line : Line} {field value : List UInt8} (hs : splitField line = some (field, value)) :
    texts name [line] = if field = ascii name then (String.fromUTF8? value.toByteArray).toList else [] := by
  rw [texts_cons, valueOf, hs, Option.bind_some]
  dsimp only
  split
  · exact List.append_nil _
  · rfl

theorem fromUtf8_ok {value : List UInt8} {s : String} (h : fromUtf8 value = .ok s) : String.fromUTF8? value.toByteArray = some s := by
  unfold fromUtf8 at h
  split at h
  · rename_i s' hs
    rw [hs, Except.ok.inj h]
  · cases h

theorem fromUtf8_error {value : List UInt8} {e : Utf8Error} (h : fromUtf8 value = .error e) : String.fromUTF8? value.toByteArray = none := by
  unfold fromUtf8 at h
  split at h
  · cases h
  · assumption

/-- The accumulators after lines with these texts. -/
def FrameFields.after (f : FrameFields) (lines : List Line) : FrameFields where
  eventName := (texts "event" lines).getLast?.or f.eventName
  data := (texts "data" lines).foldl appendData f.data
  currentId := ((texts "id" lines).filter keptId).getLast?.or f.currentId
  retry := (texts "retry" lines).getLast?.elim f.retry fun text => parseU64 (trim text)

/-- **One line of a frame**: what each accumulator becomes. -/
theorem parseLine_reads {f f' : FrameFields} {line : Line} (h : parseLine f line = .ok f') : f' = f.after [line] := by
  unfold parseLine at h
  unfold FrameFields.after
  cases hs : splitField line with
  | none =>
    rw [hs] at h
    obtain rfl := Except.ok.inj h
    have hnone : ∀ name, texts name [line] = [] := by
      intro name
      rw [texts_cons, valueOf, hs]
      rfl
    simp [hnone]
  | some parts =>
    obtain ⟨field, value⟩ := parts
    rw [hs] at h
    dsimp only at h
    rw [texts_singleton hs, texts_singleton hs, texts_singleton hs, texts_singleton hs]
    by_cases hevent : field = ascii "event"
    · subst hevent
      rw [if_pos rfl] at h
      rw [if_pos rfl, if_neg (by decide), if_neg (by decide), if_neg (by decide)]
      split at h
      · exact nomatch h
      · rename_i s hutf
        rw [fromUtf8_ok hutf, ← Except.ok.inj h]
        rfl
    by_cases hdata : field = ascii "data"
    · subst hdata
      rw [if_neg (by decide), if_pos rfl] at h
      rw [if_neg (by decide), if_pos rfl, if_neg (by decide), if_neg (by decide)]
      split at h
      · exact nomatch h
      · rename_i s hutf
        rw [fromUtf8_ok hutf, ← Except.ok.inj h]
        rfl
    by_cases hid : field = ascii "id"
    · subst hid
      rw [if_neg (by decide), if_neg (by decide), if_pos rfl] at h
      rw [if_neg (by decide), if_neg (by decide), if_pos rfl, if_neg (by decide)]
      split at h
      · exact nomatch h
      · rename_i s hutf
        rw [fromUtf8_ok hutf, ← Except.ok.inj h]
        cases hkept : s.isEmpty || s.toList.contains '\x00' with
        | true =>
          have hfilter : [s].filter keptId = [] := by rw [List.filter_singleton, keptId, hkept]; rfl
          rw [Option.toList_some, hfilter]
          rfl
        | false =>
          have hfilter : [s].filter keptId = [s] := by rw [List.filter_singleton, keptId, hkept]; rfl
          rw [Option.toList_some, hfilter]
          rfl
    by_cases hretry : field = ascii "retry"
    · subst hretry
      rw [if_neg (by decide), if_neg (by decide), if_neg (by decide), if_pos rfl] at h
      rw [if_neg (by decide), if_neg (by decide), if_neg (by decide), if_pos rfl]
      split at h
      · rename_i e hutf
        rw [fromUtf8_error hutf, ← Except.ok.inj h]
        rfl
      · rename_i s hutf
        rw [fromUtf8_ok hutf, ← Except.ok.inj h]
        rfl
    rw [if_neg hevent, if_neg hdata, if_neg hid, if_neg hretry] at h ⊢
    exact (Except.ok.inj h).symm

theorem texts_append (name : String) (lines more : List Line) : texts name (lines ++ more) = texts name lines ++ texts name more :=
  List.filterMap_append

theorem after_append (f : FrameFields) (lines more : List Line) : f.after (lines ++ more) = (f.after lines).after more := by
  have hlast : ∀ {α : Type} (xs ys : List α) (z : Option α), (xs ++ ys).getLast?.or z = ys.getLast?.or (xs.getLast?.or z) := by
    intro α xs ys z
    rw [List.getLast?_append, Option.or_assoc]
  unfold FrameFields.after
  rw [texts_append, texts_append, texts_append, texts_append, List.filter_append, hlast, hlast, List.foldl_append, List.getLast?_append]
  cases (texts "retry" more).getLast? <;> rfl

/-- **The lines of a frame**: what the accumulators come to. -/
theorem foldLines_reads {lines : List Line} : ∀ {f f' : FrameFields}, foldLines f lines = .ok f' → f' = f.after (lines.map stripCr) := by
  induction lines with
  | nil =>
    intro f f' h
    obtain rfl := Except.ok.inj h
    rfl
  | cons line lines ih =>
    intro f f' h
    unfold foldLines at h
    cases hline : parseLine f (stripCr line) with
    | error e =>
      rw [hline] at h
      cases h
    | ok f₁ =>
      rw [hline] at h
      rw [ih h, parseLine_reads hline, ← after_append]
      rfl

/-! ## Joined values -/

theorem foldl_appendData_of_ne {vs : List String} : ∀ {data : String}, data ≠ "" → vs.foldl appendData data = "\n".intercalate (data :: vs) := by
  induction vs with
  | nil => exact fun _ => String.intercalate_singleton.symm
  | cons v vs ih =>
    intro data hdata
    have happend : appendData data v = data ++ "\n" ++ v := by
      rw [appendData, if_neg (by simpa using hdata)]
    rw [List.foldl_cons, happend, ih (by simp), String.intercalate_cons_append, String.intercalate_cons_cons]

theorem foldl_appendData_length (vs : List String) : (vs.foldl appendData "").length ≤ ("\n".intercalate vs).length := by
  induction vs with
  | nil => exact Nat.le_refl _
  | cons v vs ih =>
    by_cases hv : v = ""
    · subst hv
      cases vs with
      | nil => exact Nat.le_refl _
      | cons w vs =>
        rw [String.intercalate_cons_cons, String.length_append]
        exact Nat.le_trans ih (Nat.le_add_left _ _)
    · have happend : appendData "" v = v := by simp [appendData]
      have hjoined : ((v :: vs).foldl appendData "").length = ("\n".intercalate (v :: vs)).length := by
        rw [List.foldl_cons, happend, foldl_appendData_of_ne hv]
      exact Nat.le_of_eq hjoined

/-- **The scan joins the data values** with one LF between two, unless the first of several is empty. -/
theorem joined_iff (vs : List String) : vs.foldl appendData "" = "\n".intercalate vs ↔ vs.length ≤ 1 ∨ vs.head? ≠ some "" := by
  match vs with
  | [] => simp
  | [v] => simp [appendData]
  | v :: w :: vs =>
    have happend : appendData "" v = v := by simp [appendData]
    by_cases hv : v = ""
    · subst hv
      refine iff_of_false (fun heq => ?_) (by simp)
      have hlength := congrArg String.length heq
      have hle := foldl_appendData_length (w :: vs)
      rw [List.foldl_cons, happend, String.intercalate_cons_cons, String.length_append] at hlength
      have hone : ("" ++ "\n" : String).length = 1 := by decide
      omega
    · refine iff_of_true ?_ (.inr (by simpa using hv))
      rw [List.foldl_cons, happend, foldl_appendData_of_ne hv]

/-! ## Frames -/

def DataJoins (lines : List Line) : Prop := (texts "data" lines).length ≤ 1 ∨ (texts "data" lines).head? ≠ some ""

/-- The last `retry` value is text, or no text before it parses. -/
def RetryStands (lines : List Line) : Prop :=
  (∀ value, (lines.filterMap (valueOf "retry")).getLast? = some value → (String.fromUTF8? value.toByteArray).isSome = true) ∨
    (texts "retry" lines).getLast?.bind (fun text => parseU64 (trim text)) = none

theorem last_text_iff {A B C : Type} (read : A → Option B) (parse : B → Option C) (values : List A) :
    (values.filterMap read).getLast?.bind parse = (values.getLast?.bind fun value => (read value).bind parse) ↔
      (∀ value, values.getLast? = some value → (read value).isSome = true) ∨ (values.filterMap read).getLast?.bind parse = none := by
  induction values using List.reverseRecOn with
  | nil => simp
  | append_singleton values value _ =>
    rw [List.filterMap_append, List.getLast?_concat, Option.bind_some]
    cases hread : read value with
    | none => simp [hread]
    | some text => simp [hread]

theorem texts_eq (name : String) (lines : List Line) :
    texts name lines = (lines.filterMap (valueOf name)).filterMap fun value => String.fromUTF8? value.toByteArray := by
  unfold texts
  rw [List.filterMap_filterMap]

/-- **The event of a frame is what its lines say** exactly where the first of several data values is not empty and no `retry` value that is
not text follows one that parses. The `event`, `data` and `id` values of a frame with an event are all text. -/
theorem parseFrame_reads_iff (lastEventId : Option String) (lines : List FrameLine) {ev : SseEvent} {frameId : Option String}
    (h : parseFrame lastEventId (frameBytes lines) = .ok (ev, frameId)) :
    (∀ line ∈ lines, validLine line.bytes = true) ∧
      (Reads lastEventId (lines.map FrameLine.bytes) ev ↔
        DataJoins (lines.map FrameLine.bytes) ∧ RetryStands (lines.map FrameLine.bytes)) := by
  have hfree : ∀ line ∈ lines.map FrameLine.raw, ∀ b ∈ line, isNewline b = false := by
    intro line hmem
    obtain ⟨frameLine, -, rfl⟩ := List.mem_map.mp hmem
    exact raw_free frameLine
  rw [frameBytes, parseFrame_unlines lastEventId hfree, parseGroup] at h
  cases hfold : foldLines FrameFields.empty (lines.map FrameLine.raw) with
  | error e =>
    rw [hfold] at h
    cases h
  | ok f =>
    rw [hfold] at h
    obtain ⟨rfl, -⟩ := Prod.mk.inj (Except.ok.inj h)
    have hstrip : (lines.map FrameLine.raw).map stripCr = lines.map FrameLine.bytes := by
      rw [List.map_map]
      exact List.map_congr_left fun line _ => stripCr_raw line
    have hvalid : validGroup (lines.map FrameLine.raw) = true := by
      by_contra hinvalid
      obtain ⟨e, he⟩ := foldLines_of_invalid (Bool.not_eq_true _ ▸ hinvalid) FrameFields.empty
      cases hfold.symm.trans he
    refine ⟨fun line hmem => ?_, ?_⟩
    · have hline := List.all_eq_true.mp hvalid line.raw (List.mem_map_of_mem hmem)
      rwa [stripCr_raw] at hline
    rw [foldLines_reads hfold, hstrip]
    generalize lines.map FrameLine.bytes = contents
    have hjoin := joined_iff (texts "data" contents)
    have hretry := last_text_iff (fun value => String.fromUTF8? value.toByteArray) (fun text => parseU64 (trim text))
      (contents.filterMap (valueOf "retry"))
    rw [← texts_eq] at hretry
    have hlast : ((FrameFields.empty.after contents).finish lastEventId).1.retry =
        (texts "retry" contents).getLast?.bind fun text => parseU64 (trim text) := by
      change (texts "retry" contents).getLast?.elim none _ = _
      cases (texts "retry" contents).getLast? <;> rfl
    constructor
    · intro hreads
      exact ⟨hjoin.mp hreads.data, hretry.mp (hlast.symm.trans hreads.retry)⟩
    · rintro ⟨hjoins, hstands⟩
      refine ⟨?_, hjoin.mpr hjoins, ?_, hlast.trans (hretry.mpr hstands)⟩
      · change ((texts "event" contents).getLast?.or none).getD "message" = _
        rw [Option.or_none]
      · change (((texts "id" contents).filter keptId).getLast?.or none).or lastEventId = _
        rw [Option.or_none]

def lfLine (bytes : Line) (free : ∀ b ∈ bytes, isNewline b = false) (plain : bytes.getLast? ≠ some carriageReturn) : FrameLine :=
  ⟨bytes, false, free, fun _ => plain⟩

/-- An empty data value and one with text. -/
def emptyThenText : List FrameLine :=
  [lfLine (ascii "data:") (by set_option maxRecDepth 2000 in decide) (by decide),
    lfLine (ascii "data: x") (by set_option maxRecDepth 2000 in decide) (by decide)]

/-- A `retry` value that parses and one that is not text. -/
def numberThenBytes : List FrameLine :=
  [lfLine (ascii "retry: 5") (by set_option maxRecDepth 2000 in decide) (by decide),
    lfLine (ascii "retry: " ++ [0xFF]) (by set_option maxRecDepth 2000 in decide) (by decide)]

/-- The LF of the empty first value is lost, and the first `retry` outlives the second. -/
theorem fields_misread :
    ¬Reads none (emptyThenText.map FrameLine.bytes) ⟨"message", "x", none, none⟩ ∧
      ¬Reads none (numberThenBytes.map FrameLine.bytes) ⟨"message", "", none, some 5⟩ := by
  have htext : parseFrame none (frameBytes emptyThenText) = .ok (⟨"message", "x", none, none⟩, none) := by decide
  have hbytes : parseFrame none (frameBytes numberThenBytes) = .ok (⟨"message", "", none, some 5⟩, none) := by decide
  constructor
  · intro h
    have hjoins := (((parseFrame_reads_iff none emptyThenText htext).2).mp h).1
    exact absurd hjoins (by unfold DataJoins; decide)
  · intro h
    obtain hstands | hstands := (((parseFrame_reads_iff none numberThenBytes hbytes).2).mp h).2
    · exact absurd (hstands [0xFF] (by decide)) (by decide)
    · exact absurd hstands (by decide)

theorem not_every_frame_reads : ¬∀ (lastEventId : Option String) (lines : List FrameLine) (ev : SseEvent) (frameId : Option String),
    parseFrame lastEventId (frameBytes lines) = .ok (ev, frameId) → Reads lastEventId (lines.map FrameLine.bytes) ev := by
  intro hall
  have htext : parseFrame none (frameBytes emptyThenText) = .ok (⟨"message", "x", none, none⟩, none) := by decide
  have hdata := (hall none emptyThenText _ _ htext).data
  exact absurd hdata (by decide)

end Cuca.Sse
