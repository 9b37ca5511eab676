import Cuca.Types
import Cuca.Lib.Arena

/-!
# The vector store

The newest turns with their embeddings, in a flat arena of slots. A slot of a turn that is evicted is used again.

* `Floats`, `normalizeInPlace` : the arithmetic that an embedding is normalised with;
* `VectorStoreConfig.validate`, `textProjection`, `entryBytes`;
* `storeTurns` : a batch is staged whole or refused, then committed turn by turn.
-/

namespace Cuca.Services.VectorStore
open Arena

inductive VectorStoreError where
  | config (message : String)
  | embedding (message : String)
  | entryTooLarge (bytes maxEntryBytes : Nat)
  | embedder (e : PluginError)
  deriving DecidableEq, Repr

def VectorStoreError.display : VectorStoreError → String
  | config message => s!"vector store configuration error: {message}"
  | embedding message => s!"vector store embedding error: {message}"
  | entryTooLarge bytes maxEntryBytes => s!"vector store turn of {bytes} bytes exceeds max_entry_bytes {maxEntryBytes}"
  | embedder e => "vector store embedder failed: " ++ e.display

def validationSchema : String := "vector-store"

def VectorStoreError.toPluginError : VectorStoreError → PluginError
  | embedder e => e
  | embedding message => .validation validationSchema message
  | entryTooLarge bytes maxEntryBytes => .validation validationSchema (entryTooLarge bytes maxEntryBytes).display
  | config message => .internal (config message).display

structure VectorStoreConfig where
  maxEntries : Nat
  dimensions : Nat
  maxEntryBytes : Nat
  deriving Repr

/-- `usize::MAX`. -/
def usizeMax : Nat := 2 ^ 64 - 1

/-- Each bound is non-zero, and the arena fits. -/
def VectorStoreConfig.validate (config : VectorStoreConfig) : Except VectorStoreError Unit :=
  let floats := config.maxEntries * config.dimensions
  if config.maxEntries = 0 then .error (.config "max_entries must be non-zero")
  else if config.dimensions = 0 then .error (.config "dimensions must be non-zero")
  else if config.maxEntryBytes = 0 then .error (.config "max_entry_bytes must be non-zero")
  else if floats > usizeMax then
    let entries := config.maxEntries
    let width := config.dimensions
    .error (.config s!"max_entries {entries} × dimensions {width} overflows usize")
  else if floats * 4 > usizeMax then .error (.config s!"an arena of {floats} floats overflows usize in bytes")
  else .ok ()

/-! ## Embeddings -/

/-- What is done with the components of a vector. -/
structure Floats (F : Type) where
  zero : F
  isFinite : F → Bool
  isZero : F → Bool
  dot : List F → List F → F
  /-- `1.0 / square.sqrt()` -/
  inverseSqrt : F → F
  mul : F → F → F
  display : F → String

/-- A normalisation in place: it keeps the width, and says whether the norm was not zero. -/
structure Normalizer (F : Type) where
  run : List F → Except VectorStoreError (List F × Bool)
  inPlace : ∀ {vector normalized nonzero}, run vector = .ok (normalized, nonzero) → normalized.length = vector.length

section
variable {F : Type} (floats : Floats F)

/-- The first component that is not finite is refused. -/
def checkFinite : Nat → List F → Except VectorStoreError Unit
  | _, [] => .ok ()
  | index, x :: vector =>
    if floats.isFinite x then checkFinite (index + 1) vector
    else
      let text := floats.display x
      .error (.embedding s!"embedding component {index} must be finite, got {text}")

/-- Scales to unit length; a vector of zero norm becomes zeros. -/
def normalizeInPlace (vector : List F) : Except VectorStoreError (List F × Bool) :=
  match checkFinite floats 0 vector with
  | .error e => .error e
  | .ok () =>
    let square := floats.dot vector vector
    if !floats.isFinite square then
      let text := floats.display square
      .error (.embedding s!"embedding squared norm must be finite, got {text}")
    else if floats.isZero square then .ok (List.replicate vector.length floats.zero, false)
    else
      let inverse := floats.inverseSqrt square
      .ok (vector.map fun x => floats.mul x inverse, true)

theorem length_normalizeInPlace {vector normalized : List F} {nonzero : Bool}
    (h : normalizeInPlace floats vector = .ok (normalized, nonzero)) : normalized.length = vector.length := by
  rw [normalizeInPlace] at h
  split at h
  · exact nomatch h
  · dsimp only at h
    split_ifs at h
    · obtain ⟨rfl, _⟩ := Prod.mk.inj (Except.ok.inj h)
      exact List.length_replicate
    · obtain ⟨rfl, _⟩ := Prod.mk.inj (Except.ok.inj h)
      exact List.length_map _

def normalizer : Normalizer F := ⟨normalizeInPlace floats, length_normalizeInPlace floats⟩

end

/-! ## Turns -/

/-- The projected text of a block, where it has one. -/
def projectedPart : MessageContentBlock → Option String
  | .text text => some text
  | .toolCall _ name _ => some name
  | .toolResult _ output => some output
  | .thinking _ _ => none
  | .imageBase64 _ _ => none

def textProjection (message : UnifiedMessage) : String := " ".intercalate (message.content.filterMap projectedPart)

def lenOf (s : Option String) : Nat := (s.map String.utf8ByteSize).getD 0

/-- `jsonLength` is how many bytes `serde_json` writes for the arguments of a call. -/
def blockBytes (jsonLength : Value → Nat) : MessageContentBlock → Nat
  | .text text => text.utf8ByteSize
  | .imageBase64 mediaType data => mediaType.utf8ByteSize + data.utf8ByteSize
  | .thinking reasoning signature => reasoning.utf8ByteSize + lenOf signature
  | .toolCall id name arguments => id.utf8ByteSize + name.utf8ByteSize + jsonLength arguments
  | .toolResult toolCallId output => toolCallId.utf8ByteSize + output.utf8ByteSize

def entryBytes (jsonLength : Value → Nat) (message : UnifiedMessage) : Nat :=
  lenOf message.name + lenOf message.toolCallId + (message.content.map (blockBytes jsonLength)).sum

/-! ## The store -/

/-- A turn and the slot of its vector. -/
structure StoredTurn where
  message : UnifiedMessage
  slot : Nat
  zeroNorm : Bool
  sequence : Nat
  sessionHint : String

/-- Everything behind the lock; the entries oldest first. -/
structure StoreState (F : Type) where
  entries : List StoredTurn
  arena : List F
  nextSequence : Nat
  evicted : Nat
  zeroNorm : Nat

def StoreState.new (F : Type) : StoreState F := ⟨[], [], 0, 0, 0⟩

/-- `InMemoryVectorStore`, its state apart. -/
structure InMemoryVectorStore (F : Type) where
  config : VectorStoreConfig
  normalizer : Normalizer F
  jsonLength : Value → Nat

/-- A call of `store_turns`; the embedder by the number of its call, since it may answer one text differently later. -/
structure Batch (F : Type) where
  sessionHint : String
  turns : List UnifiedMessage
  embed : Nat → String → Except PluginError (List F)

namespace InMemoryVectorStore
variable {F : Type} (p : InMemoryVectorStore F)

def checkWidth (width : Nat) : Except VectorStoreError Unit :=
  if width ≠ p.config.dimensions then
    let dimensions := p.config.dimensions
    .error (.embedding s!"embedding must have {dimensions} dimensions, got {width}")
  else .ok ()

/-- No turn may be too large, not even one that is not kept. -/
def checkSizes : List UnifiedMessage → Except PluginError Unit
  | [] => .ok ()
  | turn :: turns =>
    let bytes := entryBytes p.jsonLength turn
    if bytes > p.config.maxEntryBytes then .error (VectorStoreError.entryTooLarge bytes p.config.maxEntryBytes).toPluginError
    else checkSizes turns

/-- The vector of a turn, normalised, and whether its norm is zero. -/
def embedTurn (embed : Nat → String → Except PluginError (List F)) (call : Nat) (turn : UnifiedMessage) :
    Except PluginError (List F × Bool) :=
  match embed call (textProjection turn) with
  | .error e => .error e
  | .ok vector =>
    match p.checkWidth vector.length with
    | .error e => .error e.toPluginError
    | .ok () =>
      match p.normalizer.run vector with
      | .error e => .error e.toPluginError
      | .ok (normalized, nonzero) => .ok (normalized, !nonzero)

/-- Embeds the turns that are kept, into one buffer. -/
def stage (embed : Nat → String → Except PluginError (List F)) :
    Nat → List UnifiedMessage → Except PluginError (List F × List (UnifiedMessage × Bool))
  | _, [] => .ok ([], [])
  | call, turn :: turns =>
    match p.embedTurn embed call turn with
    | .error e => .error e
    | .ok (vector, zeroNorm) =>
      match stage embed (call + 1) turns with
      | .error e => .error e
      | .ok (staged, pending) => .ok (vector ++ staged, (turn, zeroNorm) :: pending)

/-- Commits one turn: the slot of the victim is used again, or else a slot is added. -/
def commitTurn (hint : String) (vector : List F) (turn : UnifiedMessage) (zeroNorm : Bool) (s : StoreState F) : StoreState F :=
  let full := s.entries.length ≥ p.config.maxEntries
  let victim := if full then s.entries.head? else none
  let entries := if full then s.entries.tail else s.entries
  let (slot, arena, evicted, zeroNorms) := match victim with
    | some victim => (victim.slot, writeRow p.config.dimensions s.arena victim.slot vector, s.evicted + 1,
        if victim.zeroNorm then s.zeroNorm - 1 else s.zeroNorm)
    | none => (s.arena.length / p.config.dimensions, s.arena ++ vector, s.evicted, s.zeroNorm)
  { entries := entries ++ [⟨turn, slot, zeroNorm, s.nextSequence, hint⟩]
    arena := arena
    nextSequence := s.nextSequence + 1
    evicted := evicted
    zeroNorm := if zeroNorm then zeroNorms + 1 else zeroNorms }

def commit (hint : String) (staged : List F) : Nat → List (UnifiedMessage × Bool) → StoreState F → StoreState F
  | _, [], s => s
  | index, (turn, zeroNorm) :: pending, s =>
    commit hint staged (index + 1) pending (p.commitTurn hint (row p.config.dimensions staged index) turn zeroNorm s)

/-- Stores a batch, all or nothing. Of more turns than the store has room for, only the newest are embedded. -/
def storeTurns (b : Batch F) (s : StoreState F) : StoreState F × Except PluginError Unit :=
  if b.turns.isEmpty then (s, .ok ())
  else
    match p.checkSizes b.turns with
    | .error e => (s, .error e)
    | .ok () =>
      let skipped := b.turns.length - p.config.maxEntries
      match p.stage b.embed 0 (b.turns.drop skipped) with
      | .error e => (s, .error e)
      | .ok (staged, pending) => (p.commit b.sessionHint staged 0 pending { s with evicted := s.evicted + skipped }, .ok ())

end InMemoryVectorStore

end Cuca.Services.VectorStore
