import Cuca.Provider.Stream
import Cuca.Sse.Batches

/-!
# Where the transport cuts a stream

A chunk that completes a refused frame yields none of the blocks of the frames before it, and the frames a chunk
completes after the end marker are still translated. So a stream's items depend on its cuts, unless the frames are such
that neither shows.

* `Adapter.Lawful` : what the proof needs of a translator;
* `oneByOne` : the items of a stream that arrives frame by frame;
* `CutsAgree`, `Seamless` : all cuts yield the same items, and the frames of which this is so;
* `cutsAgree_iff_seamless` : exactly those.
-/

namespace Cuca.Provider
open Sse

/-- The laws of a translator. `forget` drops the usage. -/
structure Adapter.Lawful (a : Adapter) where
  forget : a.Translator → a.Translator
  forget_forget : ∀ t, forget (forget t) = forget t
  forget_taken : ∀ t, forget (a.takeUsage t).2 = forget t
  translate_forget : ∀ t event, (a.translate (forget t) event).1 = (a.translate t event).1 ∧
    forget (a.translate (forget t) event).2 = forget (a.translate t event).2
  done_forget : ∀ t, a.done (forget t) = a.done t
  drain_forget : ∀ t, (a.drain (forget t)).1 = (a.drain t).1
  /-- A block held is yielded, and the end marker stays. -/
  grows : ∀ t event blocks next, a.translate t event = (.ok blocks, next) →
    (∃ more, blocks ++ (a.drain next).1 = (a.drain t).1 ++ more) ∧ (a.done t = true → a.done next = true)
  /-- The parser's errors are its own. -/
  refuses : ∀ t event e next, a.translate t event = (.error e, next) → ∀ message, e ≠ .sseParse message

/-! ## Frame by frame -/

/-- One event; one without data is skipped. -/
def translateEvent (a : Adapter) (t : a.Translator) (event : SseEvent) :
    Except CucaError (List MessageContentBlock) × a.Translator :=
  if event.data.isEmpty then (.ok [], t) else a.translate t event

/-- The items of a stream that arrives frame by frame. -/
def oneByOne (a : Adapter) (last : Option String) (t : a.Translator) : List (List Line) → List Item
  | [] => (a.drain t).1.map .ok
  | group :: groups =>
    match parseGroup last group with
    | .error e => [.error e]
    | .ok (event, frameId) =>
      match translateEvent a t event with
      | (.error e, _) => [.error e]
      | (.ok blocks, next) =>
        blocks.map .ok ++
          if a.done next then (a.drain next).1.map .ok else oneByOne a (frameId.or last) next groups

/-- After the end marker every frame is accepted, and yields only what was held. -/
def Silent (a : Adapter) (last : Option String) (t : a.Translator) : List (List Line) → Prop
  | [] => True
  | group :: groups =>
    match parseGroup last group with
    | .error _ => False
    | .ok (event, frameId) =>
      match translateEvent a t event with
      | (.error _, _) => False
      | (.ok blocks, next) => blocks ++ (a.drain next).1 = (a.drain t).1 ∧ Silent a (frameId.or last) next groups

/-- No block comes before a refused frame, the parser refuses no frame after one that the translator refuses, and the
frames after the end marker are silent. -/
def Seamless (a : Adapter) (last : Option String) (t : a.Translator) (yielded : Bool) : List (List Line) → Prop
  | [] => True
  | group :: groups =>
    match parseGroup last group with
    | .error _ => yielded = false
    | .ok (event, frameId) =>
      match translateEvent a t event with
      | (.error _, _) => yielded = false ∧ (parseGroups (frameId.or last) groups).isOk
      | (.ok blocks, next) =>
        if a.done next then Silent a (frameId.or last) next groups
        else Seamless a (frameId.or last) next (yielded || !blocks.isEmpty) groups

/-- Every two ways of cutting the stream into chunks yield the same items. -/
def CutsAgree (a : Adapter) (stream : List UInt8) : Prop :=
  ∀ inner₁ inner₂ : Answers, Delivered inner₁ → Delivered inner₂ →
    (chunksOf inner₁).flatten = stream → (chunksOf inner₂).flatten = stream →
    ∀ items, Drains (BlockStream.new a inner₁) items ↔ Drains (BlockStream.new a inner₂) items

/-! ## Batches of frames -/

/-- The frames of one chunk: all are parsed before the first is translated. -/
def readBatch (a : Adapter) (last : Option String) (t : a.Translator) (batch : List (List Line)) :
    Except CucaError (List MessageContentBlock × Option String × a.Translator) :=
  match parseGroups last batch with
  | .error e => .error e
  | .ok (events, last) =>
    match translateEvents a t events with
    | (.error e, _) => .error e
    | (.ok blocks, t) => .ok (blocks, last, t)

/-- The items of a stream whose chunks complete the batches. -/
def byBatches (a : Adapter) (last : Option String) (t : a.Translator) : List (List (List Line)) → List Item
  | [] => (a.drain t).1.map .ok
  | batch :: batches =>
    match readBatch a last t batch with
    | .error e => [.error e]
    | .ok (blocks, last, next) =>
      blocks.map .ok ++
        if a.done (a.takeUsage next).2 then (a.drain (a.takeUsage next).2).1.map .ok
        else byBatches a last (a.takeUsage next).2 batches

variable {a : Adapter}

theorem transcript_eq_byBatches (chunks : List (List UInt8)) : ∀ (buffer : List UInt8) (last : Option String)
    (t : a.Translator), transcript a ⟨buffer, last⟩ t chunks = byBatches a last t (batches buffer chunks) := by
  induction chunks with
  | nil => exact fun _ _ _ => rfl
  | cons chunk chunks ih =>
    intro buffer last t
    unfold transcript translateSse batches byBatches readBatch
    cases hparse : parseGroups last (frames (buffer ++ chunk)) with
    | error e =>
      have hfeed := feedChunk_error hparse
      rcases hchunk : (SseStreamParser.mk buffer last).feedChunk chunk with ⟨e' | events, parser⟩ <;> rw [hchunk] at hfeed
      · cases hfeed
        rfl
      · cases hfeed
    | ok parsed =>
      obtain ⟨events, last'⟩ := parsed
      rw [feedChunk_eq hparse]
      rcases hevents : translateEvents a t events with ⟨e | blocks, next⟩ <;> simp only [hevents]
      rw [ih]

theorem translateEvents_cons (t : a.Translator) (event : SseEvent) (events : List SseEvent) :
    translateEvents a t (event :: events) =
      match translateEvent a t event with
      | (.error e, next) => (.error e, next)
      | (.ok blocks, next) =>
        match translateEvents a next events with
        | (.error e, last) => (.error e, last)
        | (.ok more, last) => (.ok (blocks ++ more), last) := by
  unfold translateEvent
  rw [translateEvents]
  split_ifs with hempty
  · simp only
    rcases translateEvents a t events with ⟨e | more, next⟩
    · rfl
    · rfl
  · rfl

theorem readBatch_cons (last : Option String) (t : a.Translator) (group : List Line) (groups : List (List Line)) :
    readBatch a last t (group :: groups) =
      match parseGroup last group with
      | .error e => .error e
      | .ok (event, frameId) =>
        match parseGroups (frameId.or last) groups with
        | .error e => .error e
        | .ok _ =>
          match translateEvent a t event with
          | (.error e, _) => .error e
          | (.ok blocks, next) =>
            (readBatch a (frameId.or last) next groups).map fun (more, rest) => (blocks ++ more, rest) := by
  unfold readBatch
  rw [parseGroups]
  cases parseGroup last group with
  | error e => rfl
  | ok parsed =>
    obtain ⟨event, frameId⟩ := parsed
    simp only
    cases parseGroups (frameId.or last) groups with
    | error e => rfl
    | ok parsed =>
      obtain ⟨events, last'⟩ := parsed
      simp only [translateEvents_cons]
      rcases translateEvent a t event with ⟨e | blocks, next⟩
      · rfl
      · simp only
        rcases translateEvents a next events with ⟨e | more, after⟩
        · rfl
        · rfl

/-! ## Usage plays no part -/

namespace Adapter.Lawful
variable (law : a.Lawful)

theorem translateEvent_forget (t : a.Translator) (event : SseEvent) :
    (translateEvent a (law.forget t) event).1 = (translateEvent a t event).1 ∧
      law.forget (translateEvent a (law.forget t) event).2 = law.forget (translateEvent a t event).2 := by
  unfold translateEvent
  split_ifs
  · exact ⟨rfl, law.forget_forget t⟩
  · exact law.translate_forget t event

def Same (t u : a.Translator) : Prop := law.forget t = law.forget u

variable {law}

theorem Same.translateEvent {t u : a.Translator} (h : law.Same t u) (event : SseEvent) :
    (translateEvent a t event).1 = (translateEvent a u event).1 ∧
      law.Same (translateEvent a t event).2 (translateEvent a u event).2 := by
  have ht := law.translateEvent_forget t event
  have hu := law.translateEvent_forget u event
  have hsame : law.forget t = law.forget u := h
  rw [hsame] at ht
  exact ⟨ht.1.symm.trans hu.1, ht.2.symm.trans hu.2⟩

theorem Same.done {t u : a.Translator} (h : law.Same t u) : a.done t = a.done u := by
  rw [← law.done_forget t, ← law.done_forget u, show law.forget t = law.forget u from h]

theorem Same.drain {t u : a.Translator} (h : law.Same t u) : (a.drain t).1 = (a.drain u).1 := by
  rw [← law.drain_forget t, ← law.drain_forget u, show law.forget t = law.forget u from h]

theorem oneByOne_same (groups : List (List Line)) : ∀ (last : Option String) (t u : a.Translator), law.Same t u →
    oneByOne a last t groups = oneByOne a last u groups := by
  induction groups with
  | nil =>
    intro last t u h
    unfold oneByOne
    rw [h.drain]
  | cons group groups ih =>
    intro last t u h
    unfold oneByOne
    cases hparse : parseGroup last group with
    | error e => rfl
    | ok parsed =>
      obtain ⟨event, frameId⟩ := parsed
      have hevent := h.translateEvent event
      simp only
      match ht : translateEvent a t event, hu : translateEvent a u event with
      | (.error e, next), (.error e', next') =>
        rw [ht, hu] at hevent
        cases hevent.1
        simp only [ht, hu]
      | (.ok blocks, next), (.ok blocks', next') =>
        rw [ht, hu] at hevent
        cases hevent.1
        have hnext : law.Same next next' := hevent.2
        simp only [ht, hu]
        rw [hnext.done, hnext.drain, ih _ next next' hnext]
      | (.error e, next), (.ok blocks, next') =>
        rw [ht, hu] at hevent
        cases hevent.1
      | (.ok blocks, next), (.error e, next') =>
        rw [ht, hu] at hevent
        cases hevent.1

theorem silent_same (groups : List (List Line)) : ∀ (last : Option String) (t u : a.Translator), law.Same t u →
    Silent a last t groups → Silent a last u groups := by
  induction groups with
  | nil => exact fun _ _ _ _ _ => trivial
  | cons group groups ih =>
    intro last t u h hsilent
    unfold Silent at hsilent ⊢
    cases hparse : parseGroup last group with
    | error e => rw [hparse] at hsilent; exact hsilent.elim
    | ok parsed =>
      obtain ⟨event, frameId⟩ := parsed
      rw [hparse] at hsilent
      simp only at hsilent ⊢
      have hevent := h.translateEvent event
      match ht : translateEvent a t event, hu : translateEvent a u event with
      | (.error e, next), _ => rw [ht] at hsilent; exact hsilent.elim
      | (.ok blocks, next), (.ok blocks', next') =>
        rw [ht, hu] at hevent
        rw [ht] at hsilent
        cases hevent.1
        have hnext : law.Same next next' := hevent.2
        refine ⟨?_, ih _ next next' hnext hsilent.2⟩
        rw [← hnext.drain, ← h.drain]
        exact hsilent.1
      | (.ok blocks, next), (.error e, next') =>
        rw [ht, hu] at hevent
        cases hevent.1

theorem seamless_same (groups : List (List Line)) : ∀ (last : Option String) (t u : a.Translator) (yielded : Bool),
    law.Same t u → Seamless a last t yielded groups → Seamless a last u yielded groups := by
  induction groups with
  | nil => exact fun _ _ _ _ _ _ => trivial
  | cons group groups ih =>
    intro last t u yielded h hseamless
    unfold Seamless at hseamless ⊢
    cases hparse : parseGroup last group with
    | error e => rw [hparse] at hseamless; exact hseamless
    | ok parsed =>
      obtain ⟨event, frameId⟩ := parsed
      rw [hparse] at hseamless
      simp only at hseamless ⊢
      have hevent := h.translateEvent event
      match ht : translateEvent a t event, hu : translateEvent a u event with
      | (.error e, next), (.error e', next') => rw [ht] at hseamless; exact hseamless
      | (.ok blocks, next), (.ok blocks', next') =>
        rw [ht, hu] at hevent
        rw [ht] at hseamless
        cases hevent.1
        have hnext : law.Same next next' := hevent.2
        simp only at hseamless ⊢
        rw [← hnext.done]
        split_ifs at hseamless ⊢
        · exact silent_same _ _ next next' hnext hseamless
        · exact ih _ next next' _ hnext hseamless
      | (.error e, next), (.ok blocks, next') =>
        rw [ht, hu] at hevent
        cases hevent.1
      | (.ok blocks, next), (.error e, next') =>
        rw [ht, hu] at hevent
        cases hevent.1

theorem same_taken (t : a.Translator) : law.Same (a.takeUsage t).2 t := law.forget_taken t

theorem translateEvent_grows (law : a.Lawful) {t next : a.Translator} {event : SseEvent} {blocks : List MessageContentBlock}
    (h : Provider.translateEvent a t event = (.ok blocks, next)) :
    (∃ more, blocks ++ (a.drain next).1 = (a.drain t).1 ++ more) ∧ (a.done t = true → a.done next = true) := by
  unfold Provider.translateEvent at h
  split_ifs at h
  · cases h
    exact ⟨⟨[], (List.append_nil _).symm⟩, id⟩
  · exact law.grows t event blocks next h

theorem translateEvent_refuses (law : a.Lawful) {t next : a.Translator} {event : SseEvent} {e : CucaError}
    (h : Provider.translateEvent a t event = (.error e, next)) (message : String) : e ≠ .sseParse message := by
  unfold Provider.translateEvent at h
  split_ifs at h
  · cases h
  · exact law.refuses t event e next h message

end Adapter.Lawful

/-! ## Seamless streams -/

theorem readBatch_cons_ok {last frameId : Option String} {t next : a.Translator} {group : List Line}
    {event : SseEvent} {blocks : List MessageContentBlock} (hparse : parseGroup last group = .ok (event, frameId))
    (hevent : translateEvent a t event = (.ok blocks, next)) (groups : List (List Line)) :
    readBatch a last t (group :: groups) =
      (readBatch a (frameId.or last) next groups).map fun (more, rest) => (blocks ++ more, rest) := by
  rw [readBatch_cons]
  simp only [hparse, hevent]
  cases hrest : parseGroups (frameId.or last) groups with
  | error e => simp [readBatch, hrest, Except.map]
  | ok parsed => rfl

theorem oneByOne_read {last frameId : Option String} {t next : a.Translator} {group : List Line}
    {event : SseEvent} {blocks : List MessageContentBlock} (hparse : parseGroup last group = .ok (event, frameId))
    (hevent : translateEvent a t event = (.ok blocks, next)) (groups : List (List Line)) :
    oneByOne a last t (group :: groups) = blocks.map .ok ++
      if a.done next then (a.drain next).1.map .ok else oneByOne a (frameId.or last) next groups := by
  rw [oneByOne]
  simp only [hparse, hevent]

theorem parseGroups_prefix (first second : List (List Line)) : ∀ last : Option String,
    (parseGroups last (first ++ second)).isOk = true → ∃ parsed, parseGroups last first = .ok parsed := by
  induction first with
  | nil => exact fun last _ => ⟨_, rfl⟩
  | cons group first ih =>
    intro last h
    rw [List.cons_append, parseGroups] at h
    rw [parseGroups]
    cases hparse : parseGroup last group with
    | error e => simp [hparse, Except.isOk, Except.toBool] at h
    | ok parsed =>
      obtain ⟨event, frameId⟩ := parsed
      simp only [hparse] at h
      cases hrest : parseGroups (frameId.or last) (first ++ second) with
      | error e => simp [hrest, Except.isOk, Except.toBool] at h
      | ok more =>
        obtain ⟨parsed, hfirst⟩ := ih (frameId.or last) (by rw [hrest]; rfl)
        simp only [hfirst]
        exact ⟨_, rfl⟩

theorem readBatch_silent (law : a.Lawful) (batch rest : List (List Line)) : ∀ (last : Option String) (t : a.Translator),
    Silent a last t (batch ++ rest) → a.done t = true →
    ∃ blocks last' next, readBatch a last t batch = .ok (blocks, last', next) ∧ a.done next = true ∧
      blocks ++ (a.drain next).1 = (a.drain t).1 := by
  induction batch with
  | nil => exact fun last t _ hdone => ⟨[], last, t, rfl, hdone, rfl⟩
  | cons group batch ih =>
    intro last t h hdone
    rw [List.cons_append, Silent] at h
    cases hparse : parseGroup last group with
    | error e => rw [hparse] at h; exact h.elim
    | ok parsed =>
      obtain ⟨event, frameId⟩ := parsed
      simp only [hparse] at h
      match hevent : translateEvent a t event with
      | (.error e, next) => rw [hevent] at h; exact h.elim
      | (.ok blocks, next) =>
        rw [hevent] at h
        obtain ⟨more, last', after, hmore, hafter, hheld⟩ :=
          ih _ next h.2 ((law.translateEvent_grows hevent).2 hdone)
        refine ⟨blocks ++ more, last', after, ?_, hafter, ?_⟩
        · rw [readBatch_cons_ok hparse hevent, hmore]
          rfl
        · rw [List.append_assoc, hheld]
          exact h.1

theorem readBatch_seamless (law : a.Lawful) (batch rest : List (List Line)) : ∀ (last : Option String)
    (t : a.Translator) (yielded : Bool), Seamless a last t yielded (batch ++ rest) → a.done t = false →
    match readBatch a last t batch with
    | .error e => yielded = false ∧ oneByOne a last t (batch ++ rest) = [.error e]
    | .ok (blocks, last', next) =>
      if a.done next then oneByOne a last t (batch ++ rest) = (blocks ++ (a.drain next).1).map .ok
      else oneByOne a last t (batch ++ rest) = blocks.map .ok ++ oneByOne a last' next rest ∧
        Seamless a last' next (yielded || !blocks.isEmpty) rest := by
  induction batch with
  | nil =>
    intro last t yielded h hdone
    show ite (a.done t = true) _ _
    rw [hdone, if_neg (by decide), List.isEmpty_nil, Bool.not_true, Bool.or_false]
    exact ⟨rfl, h⟩
  | cons group batch ih =>
    intro last t yielded h hdone
    rw [List.cons_append, Seamless] at h
    cases hparse : parseGroup last group with
    | error e =>
      simp only [hparse] at h
      rw [readBatch_cons, List.cons_append, oneByOne]
      simp only [hparse]
      exact ⟨h, trivial⟩
    | ok parsed =>
      obtain ⟨event, frameId⟩ := parsed
      simp only [hparse] at h
      match hevent : translateEvent a t event with
      | (.error e, next) =>
        rw [hevent] at h
        obtain ⟨parsed, hbatch⟩ := parseGroups_prefix batch rest _ h.2
        rw [readBatch_cons, List.cons_append, oneByOne]
        simp only [hparse, hbatch, hevent]
        exact ⟨h.1, trivial⟩
      | (.ok blocks, next) =>
        rw [hevent] at h
        simp only at h
        rw [readBatch_cons_ok hparse hevent, List.cons_append, oneByOne_read hparse hevent]
        by_cases hmarker : a.done next = true
        · -- the end marker is in this chunk
          rw [if_pos hmarker] at h ⊢
          obtain ⟨more, last', after, hmore, hafter, hheld⟩ := readBatch_silent law batch rest _ next h hmarker
          rw [hmore]
          show ite (a.done after = true) _ _
          rw [if_pos hafter, List.append_assoc, hheld, List.map_append]
        · rw [if_neg hmarker] at h ⊢
          have hrest := ih _ next _ h (by simpa using hmarker)
          match hbatch : readBatch a (frameId.or last) next batch with
          | .error e =>
            rw [hbatch] at hrest
            obtain ⟨hnone, hitems⟩ := hrest
            rw [Bool.or_eq_false_iff, Bool.not_eq_false', List.isEmpty_iff] at hnone
            show yielded = false ∧ _
            rw [hitems, hnone.2]
            exact ⟨hnone.1, rfl⟩
          | .ok (more, last', after) =>
            rw [hbatch] at hrest
            show ite (a.done after = true) _ _
            simp only at hrest
            split_ifs at hrest ⊢
            · simp only [hrest, List.map_append, List.append_assoc]
            · refine ⟨?_, ?_⟩
              · rw [hrest.1, List.map_append, List.append_assoc]
              · have hyielded : (yielded || !(blocks ++ more).isEmpty) =
                    (yielded || !blocks.isEmpty || !more.isEmpty) := by
                  cases blocks <;> simp
                rw [hyielded]
                exact hrest.2

theorem byBatches_seamless (law : a.Lawful) (batches : List (List (List Line))) : ∀ (last : Option String)
    (t : a.Translator) (yielded : Bool), Seamless a last t yielded batches.flatten → a.done t = false →
    byBatches a last t batches = oneByOne a last t batches.flatten := by
  induction batches with
  | nil => exact fun _ _ _ _ _ => rfl
  | cons batch batches ih =>
    intro last t yielded h hdone
    rw [List.flatten_cons] at h ⊢
    have hbatch := readBatch_seamless law batch batches.flatten last t yielded h hdone
    unfold byBatches
    match hread : readBatch a last t batch with
    | .error e =>
      rw [hread] at hbatch
      exact hbatch.2.symm
    | .ok (blocks, last', next) =>
      rw [hread] at hbatch
      simp only at hbatch ⊢
      have htaken : law.Same (a.takeUsage next).2 next := Adapter.Lawful.same_taken next
      rw [htaken.done, htaken.drain]
      split_ifs at hbatch ⊢ with hmarker
      · rw [hbatch, List.map_append]
      · rw [hbatch.1, ih last' _ _ (Adapter.Lawful.seamless_same _ _ next _ _ htaken.symm hbatch.2)
          (by rw [htaken.done]; simpa using hmarker), Adapter.Lawful.oneByOne_same _ _ _ next htaken]

/-! ## Cuts that show -/

theorem byBatches_single (law : a.Lawful) (batches : List (List (List Line))) : ∀ (last : Option String)
    (t : a.Translator), (∀ batch ∈ batches, batch.length ≤ 1) → a.done t = false →
    byBatches a last t batches = oneByOne a last t batches.flatten := by
  induction batches with
  | nil => exact fun _ _ _ _ => rfl
  | cons batch batches ih =>
    intro last t h hdone
    have hrest : ∀ other ∈ batches, other.length ≤ 1 := fun other hmem => h other (List.mem_cons_of_mem _ hmem)
    have htaken (next : a.Translator) : law.Same (a.takeUsage next).2 next := Adapter.Lawful.same_taken next
    match batch, h batch List.mem_cons_self with
    | [], _ =>
      show [] ++ ite (a.done (a.takeUsage t).2 = true) _ _ = oneByOne a last t batches.flatten
      rw [(htaken t).done, if_neg (by simpa using hdone), List.nil_append,
        ih last _ hrest (by rw [(htaken t).done]; exact hdone), Adapter.Lawful.oneByOne_same _ _ _ t (htaken t)]
    | [group], _ =>
      rw [List.flatten_cons, List.singleton_append]
      unfold byBatches
      cases hparse : parseGroup last group with
      | error e =>
        rw [readBatch_cons, oneByOne]
        simp only [hparse]
      | ok parsed =>
        obtain ⟨event, frameId⟩ := parsed
        match hevent : translateEvent a t event with
        | (.error e, next) =>
          rw [readBatch_cons, oneByOne]
          simp only [hparse, hevent, parseGroups]
        | (.ok blocks, next) =>
          rw [readBatch_cons_ok hparse hevent, oneByOne_read hparse hevent]
          show (blocks ++ []).map _ ++ ite (a.done (a.takeUsage next).2 = true) _ _ = _
          rw [List.append_nil, (htaken next).done, (htaken next).drain]
          split_ifs with hmarker
          · rfl
          · rw [ih _ _ hrest (by rw [(htaken next).done]; simpa using hmarker),
              Adapter.Lawful.oneByOne_same _ _ _ next (htaken next)]

theorem silent_of_readBatch (law : a.Lawful) (groups : List (List Line)) : ∀ (last : Option String) (t : a.Translator)
    (blocks : List MessageContentBlock) (last' : Option String) (next : a.Translator),
    readBatch a last t groups = .ok (blocks, last', next) →
    ∃ more, blocks ++ (a.drain next).1 = (a.drain t).1 ++ more ∧ (more = [] → Silent a last t groups) := by
  induction groups with
  | nil =>
    intro last t blocks last' next h
    cases h
    exact ⟨[], (List.append_nil _).symm, fun _ => trivial⟩
  | cons group groups ih =>
    intro last t blocks last' next h
    cases hparse : parseGroup last group with
    | error e =>
      rw [readBatch_cons] at h
      simp [hparse] at h
    | ok parsed =>
      obtain ⟨event, frameId⟩ := parsed
      match hevent : translateEvent a t event with
      | (.error e, after) =>
        rw [readBatch_cons] at h
        simp only [hparse, hevent] at h
        split at h <;> cases h
      | (.ok first, after) =>
        rw [readBatch_cons_ok hparse hevent] at h
        match hrest : readBatch a (frameId.or last) after groups with
        | .error e =>
          rw [hrest] at h
          cases h
        | .ok (second, last'', final) =>
          rw [hrest] at h
          cases h
          obtain ⟨more, hmore⟩ := (law.translateEvent_grows hevent).1
          obtain ⟨later, hlater, hsilent⟩ := ih _ after second _ _ hrest
          refine ⟨more ++ later, ?_, fun hnone => ?_⟩
          · rw [List.append_assoc, hlater, ← List.append_assoc, hmore, List.append_assoc]
          · obtain ⟨rfl, rfl⟩ := List.append_eq_nil_iff.mp hnone
            rw [Silent]
            simp only [hparse, hevent]
            exact ⟨by rw [hmore, List.append_nil], hsilent rfl⟩

theorem error_not_yielded {blocks before : List MessageContentBlock} {e : CucaError} :
    blocks.map Except.ok ≠ before.map Except.ok ++ [Except.error e] := by
  intro h
  have hmem : (Except.error e : Item) ∈ blocks.map Except.ok := by
    rw [h]
    exact List.mem_append_right _ (List.mem_singleton_self _)
  obtain ⟨block, -, hblock⟩ := List.mem_map.mp hmem
  cases hblock

theorem nil_of_error_eq {before : List MessageContentBlock} {e e' : CucaError}
    (h : [Except.error e] = before.map Except.ok ++ [(Except.error e' : Item)]) : before = [] ∧ e = e' := by
  cases before with
  | nil =>
    cases h
    exact ⟨rfl, rfl⟩
  | cons block before => cases h

theorem seamless_of_whole (law : a.Lawful) (groups : List (List Line)) : ∀ (last : Option String) (t : a.Translator)
    (before : List MessageContentBlock), a.done t = false →
    (match readBatch a last t groups with
      | .error e => [Except.error e]
      | .ok (blocks, _, next) => (before ++ blocks ++ (a.drain next).1).map Except.ok) =
        before.map Except.ok ++ oneByOne a last t groups →
    Seamless a last t (!before.isEmpty) groups := by
  induction groups with
  | nil => exact fun _ _ _ _ _ => trivial
  | cons group groups ih =>
    intro last t before hdone h
    rw [Seamless]
    cases hparse : parseGroup last group with
    | error e =>
      rw [readBatch_cons, oneByOne] at h
      simp only [hparse] at h ⊢
      rw [(nil_of_error_eq h).1]
      rfl
    | ok parsed =>
      obtain ⟨event, frameId⟩ := parsed
      match hevent : translateEvent a t event with
      | (.error e, next) =>
        rw [readBatch_cons, oneByOne] at h
        simp only [hparse, hevent] at h ⊢
        cases hrest : parseGroups (frameId.or last) groups with
        | error e' =>
          -- the parser's error would come first, and is none of the translator's
          rw [hrest] at h
          obtain ⟨message, rfl⟩ := parseGroups_error groups hrest
          exact absurd (nil_of_error_eq h).2.symm (law.translateEvent_refuses hevent message)
        | ok parsed =>
          rw [hrest] at h
          rw [(nil_of_error_eq h).1]
          exact ⟨rfl, rfl⟩
      | (.ok blocks, next) =>
        rw [readBatch_cons_ok hparse hevent, oneByOne_read hparse hevent] at h
        simp only [hparse, hevent]
        by_cases hmarker : a.done next = true
        · rw [if_pos hmarker] at h ⊢
          match hrest : readBatch a (frameId.or last) next groups with
          | .error e =>
            rw [hrest, ← List.append_assoc, ← List.map_append, ← List.map_append] at h
            have hyields : ([] : List MessageContentBlock).map Except.ok ++ [(Except.error e : Item)] =
                (before ++ blocks ++ (a.drain next).1).map Except.ok := h
            exact absurd hyields.symm error_not_yielded
          | .ok (more, last', after) =>
            rw [hrest] at h
            obtain ⟨later, hlater, hsilent⟩ := silent_of_readBatch law groups _ next more _ _ hrest
            refine hsilent ?_
            have hall : (before ++ (blocks ++ more) ++ (a.drain after).1).map (Except.ok : _ → Item) =
                (before ++ blocks ++ (a.drain next).1).map Except.ok := by
              have hitems : (before ++ (blocks ++ more) ++ (a.drain after).1).map (Except.ok : _ → Item) =
                  before.map Except.ok ++ (blocks.map Except.ok ++ (a.drain next).1.map Except.ok) := h
              rw [hitems]
              simp
            have hblocks := List.map_injective_iff.mpr (fun _ _ h => Except.ok.inj h) hall
            rw [List.append_assoc, List.append_assoc, hlater, List.append_assoc, List.append_cancel_left_eq,
              List.append_cancel_left_eq, List.append_right_eq_self] at hblocks
            exact hblocks
        · rw [if_neg hmarker] at h ⊢
          have hbefore : (!before.isEmpty || !blocks.isEmpty) = !(before ++ blocks).isEmpty := by
            cases before <;> simp
          rw [hbefore]
          refine ih _ next (before ++ blocks) (by simpa using hmarker) ?_
          rw [List.map_append, List.append_assoc, ← h]
          cases readBatch a (frameId.or last) next groups with
          | error e => rfl
          | ok read =>
            obtain ⟨more, last', after⟩ := read
            simp only [Except.map, List.append_assoc]

/-! ## The two agree -/

def readyChunks (chunks : List (List UInt8)) : Answers := chunks.map fun chunk => .ready (.ok chunk)

theorem readyChunks_delivered (chunks : List (List UInt8)) : Delivered (readyChunks chunks) := by
  intro message hmem
  obtain ⟨chunk, -, hchunk⟩ := List.mem_map.mp hmem
  cases hchunk

theorem chunksOf_readyChunks (chunks : List (List UInt8)) : chunksOf (readyChunks chunks) = chunks := by
  unfold chunksOf readyChunks
  rw [List.filterMap_map]
  exact List.filterMap_some

theorem drains_iff_byBatches {inner : Answers} (h : Delivered inner) (items : List Item) :
    Drains (BlockStream.new a inner) items ↔ items = byBatches a none a.new (batches [] (chunksOf inner)) := by
  rw [drains_iff_transcript h]
  exact Eq.congr_right (transcript_eq_byBatches _ _ _ _)

/-- **Cuts do not show** exactly in the seamless streams. -/
theorem cutsAgree_iff_seamless (law : a.Lawful) (hnew : a.done a.new = false) (stream : List UInt8) :
    CutsAgree a stream ↔ Seamless a none a.new false (frames stream) := by
  have hflatten (chunks : List (List UInt8)) : (batches [] chunks).flatten = frames chunks.flatten :=
    batches_flatten chunks [] settled_nil
  constructor
  · intro h
    -- the whole stream in one chunk, and byte by byte
    have hagree := h (readyChunks [stream]) (readyChunks (stream.map fun b => [b])) (readyChunks_delivered _)
      (readyChunks_delivered _) (by rw [chunksOf_readyChunks]; simp) (by rw [chunksOf_readyChunks]; simp [← List.flatMap_def])
    have hitems := (hagree _).mp ((drains_iff_byBatches (readyChunks_delivered _) _).mpr rfl)
    rw [drains_iff_byBatches (readyChunks_delivered _), chunksOf_readyChunks, chunksOf_readyChunks,
      byBatches_single law _ none a.new (batches_bytes stream [] settled_nil) hnew, hflatten] at hitems
    have hstream : (stream.map fun b => [b]).flatten = stream := by simp [← List.flatMap_def]
    rw [hstream] at hitems
    refine seamless_of_whole law (frames stream) none a.new [] hnew ?_
    rw [List.map_nil, List.nil_append, ← hitems]
    show _ = byBatches a none a.new [frames stream]
    unfold byBatches
    match readBatch a none a.new (frames stream) with
    | .error e => rfl
    | .ok (blocks, last, next) =>
      have htaken : law.Same (a.takeUsage next).2 next := Adapter.Lawful.same_taken next
      simp only [byBatches, List.nil_append, List.map_append, ite_self, htaken.drain]
  · intro h inner₁ inner₂ hdelivered₁ hdelivered₂ h₁ h₂ items
    rw [drains_iff_byBatches hdelivered₁, drains_iff_byBatches hdelivered₂,
      byBatches_seamless law _ none a.new false (by rw [hflatten, h₁]; exact h) hnew,
      byBatches_seamless law _ none a.new false (by rw [hflatten, h₂]; exact h) hnew, hflatten, hflatten, h₁, h₂]

end Cuca.Provider
