import Cuca.Sse.Chunks

/-!
# The block stream of a provider

Every provider's stream feeds the chunks of a byte stream through the SSE parser and its translator and yields one block
a poll. The streams differ in the translator, in when it is done, in the blocks it still holds at the end, and in the
usage it hands over after a chunk: an `Adapter`.

* `translateSse` : one chunk;
* `pollNext` : one poll;
* `Drains` : what a consumer gets by polling to the end;
* `transcript` : the same, chunk by chunk, and `drains_iff_transcript`.
-/

namespace Cuca.Provider
open Sse

structure Adapter where
  Translator : Type
  Usage : Type
  new : Translator
  /-- One event, its data not empty. -/
  translate : Translator → SseEvent → Except CucaError (List MessageContentBlock) × Translator
  /-- Whether the frame stream is over. -/
  done : Translator → Bool
  /-- The blocks still held. -/
  drain : Translator → List MessageContentBlock × Translator
  takeUsage : Translator → Option Usage × Translator

/-- The events of a chunk in order, up to the first error. Events without data are skipped. -/
def translateEvents (a : Adapter) (t : a.Translator) :
    List SseEvent → Except CucaError (List MessageContentBlock) × a.Translator
  | [] => (.ok [], t)
  | event :: events =>
    if event.data.isEmpty then translateEvents a t events
    else
      match a.translate t event with
      | (.error e, t) => (.error e, t)
      | (.ok blocks, t) =>
        match translateEvents a t events with
        | (.error e, t) => (.error e, t)
        | (.ok more, t) => (.ok (blocks ++ more), t)

/-- Feeds one transport chunk through the parser and the translator. -/
def translateSse (a : Adapter) (parser : SseStreamParser) (t : a.Translator) (chunk : List UInt8) :
    Except CucaError (List MessageContentBlock) × SseStreamParser × a.Translator :=
  match parser.feedChunk chunk with
  | (.error e, parser) => (.error e, parser, t)
  | (.ok events, parser) => ((translateEvents a t events).1, parser, (translateEvents a t events).2)

inductive Poll (α : Type) where
  | pending
  | ready (value : α)
deriving Repr

/-- What a byte stream answers to successive polls; after the answers it has ended. -/
abbrev Answers := List (Poll (Except String (List UInt8)))

structure BlockStream (a : Adapter) where
  inner : Answers
  parser : SseStreamParser
  translator : a.Translator
  /-- Blocks awaiting emission within the current chunk. -/
  buffer : List MessageContentBlock
  /-- Whether the end marker was seen or the byte stream ended. -/
  ended : Bool
  /-- The usage published as response metadata. -/
  metadata : Option a.Usage

abbrev Item := Except CucaError MessageContentBlock

namespace BlockStream
variable {a : Adapter}

def new (a : Adapter) (inner : Answers) : BlockStream a := ⟨inner, SseStreamParser.new, a.new, [], false, none⟩

def close (s : BlockStream a) : BlockStream a :=
  { s with ended := true, buffer := s.buffer ++ (a.drain s.translator).1, translator := (a.drain s.translator).2 }

/-- Takes in the blocks of a chunk. -/
def absorb (s : BlockStream a) (blocks : List MessageContentBlock) : BlockStream a :=
  let taken : BlockStream a := { s with
    buffer := s.buffer ++ blocks,
    translator := (a.takeUsage s.translator).2,
    metadata := (a.takeUsage s.translator).1.or s.metadata }
  if a.done taken.translator then taken.close else taken

theorem absorb_done {s : BlockStream a} (blocks : List MessageContentBlock)
    (h : a.done (a.takeUsage s.translator).2 = true) :
    s.absorb blocks = ({ s with
      buffer := s.buffer ++ blocks,
      translator := (a.takeUsage s.translator).2,
      metadata := (a.takeUsage s.translator).1.or s.metadata } : BlockStream a).close := if_pos h

theorem absorb_open {s : BlockStream a} (blocks : List MessageContentBlock)
    (h : a.done (a.takeUsage s.translator).2 = false) :
    s.absorb blocks = { s with
      buffer := s.buffer ++ blocks,
      translator := (a.takeUsage s.translator).2,
      metadata := (a.takeUsage s.translator).1.or s.metadata } := if_neg (by rw [h]; decide)

theorem absorb_inner (s : BlockStream a) (blocks : List MessageContentBlock) : (s.absorb blocks).inner = s.inner := by
  cases h : a.done (a.takeUsage s.translator).2 with
  | true => rw [absorb_done blocks h]; rfl
  | false => rw [absorb_open blocks h]

/-- A poll of a stream whose byte stream is not asked. -/
def pollBuffer (s : BlockStream a) : Poll (Option Item) × BlockStream a :=
  match s.buffer with
  | block :: buffer => (.ready (some (.ok block)), { s with buffer := buffer })
  | [] => (.ready none, s)

/-- The rounds of a poll, by the answers left of the byte stream. -/
def pollLoop : Answers → BlockStream a → Poll (Option Item) × BlockStream a
  | [], s => if s.buffer = [] ∧ s.ended = false then s.close.pollBuffer else s.pollBuffer
  | answer :: inner, s =>
    if s.buffer = [] ∧ s.ended = false then
      match answer with
      | .pending => (.pending, { s with inner := inner })
      | .ready (.error message) => (.ready (some (.error (.transport message))), { s with inner := inner, ended := true })
      | .ready (.ok chunk) =>
        match translateSse a s.parser s.translator chunk with
        | (.ok blocks, parser, translator) =>
          pollLoop inner ({ s with inner := inner, parser := parser, translator := translator }.absorb blocks)
        | (.error e, parser, translator) =>
          (.ready (some (.error e)),
            { s with inner := inner, parser := parser, translator := translator, ended := true })
    else s.pollBuffer

def pollNext (s : BlockStream a) : Poll (Option Item) × BlockStream a := pollLoop s.inner s

end BlockStream

/-- Polling `s` to its end yields the items. -/
inductive Drains {a : Adapter} : BlockStream a → List Item → Prop
  | finished {s next : BlockStream a} : s.pollNext = (.ready none, next) → Drains s []
  | item {s next : BlockStream a} {item : Item} {items : List Item} :
      s.pollNext = (.ready (some item), next) → Drains next items → Drains s (item :: items)
  | waits {s next : BlockStream a} {items : List Item} :
      s.pollNext = (.pending, next) → Drains next items → Drains s items

namespace Drains
variable {a : Adapter} {s next : BlockStream a} {items : List Item}

theorem iff_finished (h : s.pollNext = (.ready none, next)) : Drains s items ↔ items = [] := by
  constructor
  · intro hd
    cases hd with
    | finished _ => rfl
    | item hpoll _ => rw [h] at hpoll; cases hpoll
    | waits hpoll _ => rw [h] at hpoll; cases hpoll
  · rintro rfl
    exact .finished h

theorem iff_item {item : Item} (h : s.pollNext = (.ready (some item), next)) :
    Drains s items ↔ ∃ rest, items = item :: rest ∧ Drains next rest := by
  constructor
  · intro hd
    cases hd with
    | finished hpoll => rw [h] at hpoll; cases hpoll
    | item hpoll hrest =>
      rw [h] at hpoll
      cases hpoll
      exact ⟨_, rfl, hrest⟩
    | waits hpoll _ => rw [h] at hpoll; cases hpoll
  · rintro ⟨rest, rfl, hrest⟩
    exact .item h hrest

theorem iff_waits (h : s.pollNext = (.pending, next)) : Drains s items ↔ Drains next items := by
  constructor
  · intro hd
    cases hd with
    | finished hpoll => rw [h] at hpoll; cases hpoll
    | item hpoll _ => rw [h] at hpoll; cases hpoll
    | waits hpoll hrest =>
      rw [h] at hpoll
      cases hpoll
      exact hrest
  · exact .waits h

theorem congr (h : s.pollNext = next.pollNext) : Drains s items ↔ Drains next items := by
  constructor <;> intro hd
  · cases hd with
    | finished hpoll => exact .finished (h.symm.trans hpoll)
    | item hpoll hrest => exact .item (h.symm.trans hpoll) hrest
    | waits hpoll hrest => exact .waits (h.symm.trans hpoll) hrest
  · cases hd with
    | finished hpoll => exact .finished (h.trans hpoll)
    | item hpoll hrest => exact .item (h.trans hpoll) hrest
    | waits hpoll hrest => exact .waits (h.trans hpoll) hrest

end Drains

/-! ## Chunk by chunk -/

def chunksOf (inner : Answers) : List (List UInt8) :=
  inner.filterMap fun | .ready (.ok chunk) => some chunk | _ => none

def Delivered (inner : Answers) : Prop := ∀ message, Poll.ready (Except.error message) ∉ inner

/-- The items of a chunked byte stream. -/
def transcript (a : Adapter) (parser : SseStreamParser) (t : a.Translator) : List (List UInt8) → List Item
  | [] => (a.drain t).1.map .ok
  | chunk :: chunks =>
    match translateSse a parser t chunk with
    | (.error e, _, _) => [.error e]
    | (.ok blocks, parser, t) =>
      blocks.map .ok ++
        if a.done (a.takeUsage t).2 then (a.drain (a.takeUsage t).2).1.map .ok
        else transcript a parser (a.takeUsage t).2 chunks

section Transcript
variable {a : Adapter}

theorem pollNext_buffer {s : BlockStream a} {block : MessageContentBlock} {buffer : List MessageContentBlock}
    (h : s.buffer = block :: buffer) : s.pollNext = (.ready (some (.ok block)), { s with buffer := buffer }) := by
  obtain ⟨inner, parser, translator, blocks, ended, metadata⟩ := s
  obtain rfl : blocks = block :: buffer := h
  cases inner <;> simp [BlockStream.pollNext, BlockStream.pollLoop, BlockStream.pollBuffer]

theorem drains_buffer (buffer : List MessageContentBlock) : ∀ (s : BlockStream a) (items : List Item),
    s.buffer = buffer → (Drains s items ↔ ∃ rest, items = buffer.map .ok ++ rest ∧ Drains { s with buffer := [] } rest) := by
  induction buffer with
  | nil =>
    intro s items h
    obtain ⟨inner, parser, translator, buffer, ended, metadata⟩ := s
    obtain rfl : buffer = [] := h
    constructor
    · intro hd
      exact ⟨items, rfl, hd⟩
    · rintro ⟨rest, rfl, hd⟩
      exact hd
  | cons block buffer ih =>
    intro s items h
    rw [Drains.iff_item (pollNext_buffer h)]
    constructor
    · rintro ⟨rest, rfl, hd⟩
      obtain ⟨last, rfl, hlast⟩ := (ih { s with buffer := buffer } rest rfl).mp hd
      exact ⟨last, rfl, hlast⟩
    · rintro ⟨rest, rfl, hd⟩
      exact ⟨_, rfl, (ih { s with buffer := buffer } _ rfl).mpr ⟨rest, rfl, hd⟩⟩

theorem drains_ended {s : BlockStream a} (hended : s.ended = true) (items : List Item) :
    Drains s items ↔ items = s.buffer.map .ok := by
  have hempty : ({ s with buffer := [] } : BlockStream a).pollNext = (.ready none, { s with buffer := [] }) := by
    unfold BlockStream.pollNext
    cases hinner : s.inner <;> simp [BlockStream.pollLoop, BlockStream.pollBuffer, hended]
  rw [drains_buffer s.buffer s items rfl]
  constructor
  · rintro ⟨rest, rfl, hd⟩
    rw [(Drains.iff_finished hempty).mp hd, List.append_nil]
  · rintro rfl
    exact ⟨[], (List.append_nil _).symm, (Drains.iff_finished hempty).mpr rfl⟩

theorem drains_open (inner : Answers) : ∀ (s : BlockStream a) (items : List Item), Delivered inner → s.inner = inner →
    s.ended = false →
    (Drains s items ↔ items = s.buffer.map .ok ++ transcript a s.parser s.translator (chunksOf inner)) := by
  induction inner with
  | nil =>
    intro s items _ hinner hended
    have hclose : Drains ({ s with buffer := [] } : BlockStream a) = Drains { s with buffer := [] }.close := by
      funext rest
      refine propext (Drains.congr ?_)
      show BlockStream.pollLoop s.inner _ = BlockStream.pollLoop s.inner _
      rw [hinner]
      simp [BlockStream.pollLoop, hended, BlockStream.close]
    rw [drains_buffer s.buffer s items rfl, hclose]
    constructor
    · rintro ⟨rest, rfl, hd⟩
      rw [(drains_ended rfl rest).mp hd]
      rfl
    · rintro rfl
      exact ⟨_, rfl, (drains_ended rfl _).mpr rfl⟩
  | cons answer inner ih =>
    intro s items hdelivered hinner hended
    have hrest : Delivered inner := fun message hmem => hdelivered message (List.mem_cons_of_mem _ hmem)
    rw [drains_buffer s.buffer s items rfl]
    have hempty : ∀ rest, Drains ({ s with buffer := [] } : BlockStream a) rest ↔
        rest = transcript a s.parser s.translator (chunksOf (answer :: inner)) := by
      intro rest
      match answer with
      | .pending =>
        have hpoll : ({ s with buffer := [] } : BlockStream a).pollNext =
            (.pending, { s with buffer := [], inner := inner }) := by
          unfold BlockStream.pollNext
          rw [hinner]
          simp [BlockStream.pollLoop, hended]
        rw [Drains.iff_waits hpoll, ih { s with buffer := [], inner := inner } rest hrest rfl hended]
        rfl
      | .ready (.error message) => exact absurd List.mem_cons_self (hdelivered message)
      | .ready (.ok chunk) =>
        show _ ↔ rest = transcript a s.parser s.translator (chunk :: chunksOf inner)
        unfold transcript
        match hchunk : translateSse a s.parser s.translator chunk with
        | (.error e, parser, translator) =>
          have hpoll : ({ s with buffer := [] } : BlockStream a).pollNext = (.ready (some (.error e)),
              { s with buffer := [], inner := inner, parser := parser, translator := translator, ended := true }) := by
            unfold BlockStream.pollNext
            rw [hinner]
            simp [BlockStream.pollLoop, hended, hchunk]
          rw [Drains.iff_item hpoll]
          constructor
          · rintro ⟨last, rfl, hd⟩
            rw [(drains_ended rfl last).mp hd]
            rfl
          · rintro rfl
            exact ⟨[], rfl, (drains_ended rfl []).mpr rfl⟩
        | (.ok blocks, parser, translator) =>
          have hpoll : ({ s with buffer := [] } : BlockStream a).pollNext = BlockStream.pollNext
              (({ s with buffer := [], inner := inner, parser := parser, translator := translator } :
                BlockStream a).absorb blocks) := by
            unfold BlockStream.pollNext
            rw [hinner]
            simp only [BlockStream.pollLoop, hended, hchunk, and_self, if_true]
            rw [BlockStream.absorb_inner]
          rw [Drains.congr hpoll]
          show _ ↔ rest = blocks.map Except.ok ++
            if a.done (a.takeUsage translator).2 then (a.drain (a.takeUsage translator).2).1.map Except.ok
            else transcript a parser (a.takeUsage translator).2 (chunksOf inner)
          by_cases hdone : a.done (a.takeUsage translator).2 = true
          · have habsorbed := BlockStream.absorb_done (s := { s with
              buffer := [], inner := inner, parser := parser, translator := translator }) blocks hdone
            rw [habsorbed, if_pos hdone, drains_ended rfl]
            simp [BlockStream.close]
          · have habsorbed := BlockStream.absorb_open (s := { s with
              buffer := [], inner := inner, parser := parser, translator := translator }) blocks (by simpa using hdone)
            rw [habsorbed, if_neg hdone]
            refine ih _ rest hrest ?_ hended
            rfl
    constructor
    · rintro ⟨rest, rfl, hd⟩
      rw [(hempty rest).mp hd]
    · rintro rfl
      exact ⟨_, rfl, (hempty _).mpr rfl⟩

/-- **What a consumer gets**: the transcript of the chunks, whenever the byte stream is ready. -/
theorem drains_iff_transcript {inner : Answers} (h : Delivered inner) (items : List Item) :
    Drains (BlockStream.new a inner) items ↔ items = transcript a SseStreamParser.new a.new (chunksOf inner) := by
  rw [drains_open inner (BlockStream.new a inner) items h rfl rfl]
  rfl

end Transcript
end Cuca.Provider
