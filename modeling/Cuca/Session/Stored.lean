import Cuca.Canonical
import Cuca.Lib.Pointwise
import Cuca.Session.Record

/-!
# Stored records

The mirrors of records, events and blocks that `postcard` encodes, with a conversion in each direction. The arguments of a
tool call, a JSON value in the mirror, are a string of canonical JSON text for `postcard`, so the mirrors have the type of
the arguments as a parameter.

* `StoredRecord.ofRecord`, `StoredRecord.toRecord` : the conversions;
* `StoredRecord.serialize`, `StoredRecord.deserialize` : the arguments as text;
* `SessionRecord.Related` : records that differ in their arguments, and there as a relation says;
* `reads_iff` : a record that is stored and read comes back with each of its arguments stored and read.
-/

namespace Cuca.Session

/-! ## The mirrors -/

inductive StoredBlock (A : Type) where
  | text (text : String)
  | imageBase64 (mediaType : String) (data : String)
  | thinking (reasoning : String) (signature : Option String)
  | toolCall (id : String) (name : String) (arguments : A)
  | toolResult (toolCallId : String) (output : String)

inductive StoredEvent (A : Type) where
  | systemPrompt (text : String)
  | message (role : MessageRole) (content : List (StoredBlock A))
  | reasoning (reasoning : String) (signature : Option String)
  | output (text : String)
  | toolCall (id : String) (name : String) (arguments : A)
  | toolResult (toolCallId : String) (output : String) (stdout stderr : Option String) (exitCode : Option Int)
  | modelSwap (fromModel toModel : String) (reason : String)
  | latency (durationMs : Nat)
  | tokenUsage (promptTokens completionTokens : Nat)
  | fork (fromPoint : String) (toSession : String)

structure StoredRecord (A : Type) where
  sessionId : String
  sequence : Nat
  timestampMs : Nat
  event : StoredEvent A

def StoredBlock.ofBlock : MessageContentBlock → StoredBlock Value
  | .text t => .text t
  | .imageBase64 mediaType data => .imageBase64 mediaType data
  | .thinking reasoning signature => .thinking reasoning signature
  | .toolCall id name arguments => .toolCall id name arguments
  | .toolResult toolCallId output => .toolResult toolCallId output

def StoredBlock.toBlock : StoredBlock Value → MessageContentBlock
  | .text t => .text t
  | .imageBase64 mediaType data => .imageBase64 mediaType data
  | .thinking reasoning signature => .thinking reasoning signature
  | .toolCall id name arguments => .toolCall id name arguments
  | .toolResult toolCallId output => .toolResult toolCallId output

def StoredEvent.ofEvent : SessionEvent → StoredEvent Value
  | .systemPrompt text => .systemPrompt text
  | .message role content => .message role (content.map StoredBlock.ofBlock)
  | .reasoning r signature => .reasoning r signature
  | .output text => .output text
  | .toolCall id name arguments => .toolCall id name arguments
  | .toolResult toolCallId out stdout stderr exitCode => .toolResult toolCallId out stdout stderr exitCode
  | .modelSwap fromModel toModel reason => .modelSwap fromModel toModel reason
  | .latency durationMs => .latency durationMs
  | .tokenUsage promptTokens completionTokens => .tokenUsage promptTokens completionTokens
  | .fork fromPoint toSession => .fork fromPoint toSession

def StoredEvent.toEvent : StoredEvent Value → SessionEvent
  | .systemPrompt text => .systemPrompt text
  | .message role content => .message role (content.map StoredBlock.toBlock)
  | .reasoning r signature => .reasoning r signature
  | .output text => .output text
  | .toolCall id name arguments => .toolCall id name arguments
  | .toolResult toolCallId out stdout stderr exitCode => .toolResult toolCallId out stdout stderr exitCode
  | .modelSwap fromModel toModel reason => .modelSwap fromModel toModel reason
  | .latency durationMs => .latency durationMs
  | .tokenUsage promptTokens completionTokens => .tokenUsage promptTokens completionTokens
  | .fork fromPoint toSession => .fork fromPoint toSession

def StoredRecord.ofRecord (record : SessionRecord) : StoredRecord Value :=
  ⟨record.sessionId, record.sequence, record.timestampMs, .ofEvent record.event⟩

def StoredRecord.toRecord (record : StoredRecord Value) : SessionRecord :=
  ⟨record.sessionId, record.sequence, record.timestampMs, record.event.toEvent⟩

/-! ## The arguments as text -/

section
variable {A B : Type} (f : A → B) (g : A → Option B)

def StoredBlock.map : StoredBlock A → StoredBlock B
  | .text t => .text t
  | .imageBase64 mediaType data => .imageBase64 mediaType data
  | .thinking reasoning signature => .thinking reasoning signature
  | .toolCall id name arguments => .toolCall id name (f arguments)
  | .toolResult toolCallId output => .toolResult toolCallId output

def StoredEvent.map : StoredEvent A → StoredEvent B
  | .systemPrompt text => .systemPrompt text
  | .message role content => .message role (content.map (·.map f))
  | .reasoning r signature => .reasoning r signature
  | .output text => .output text
  | .toolCall id name arguments => .toolCall id name (f arguments)
  | .toolResult toolCallId out stdout stderr exitCode => .toolResult toolCallId out stdout stderr exitCode
  | .modelSwap fromModel toModel reason => .modelSwap fromModel toModel reason
  | .latency durationMs => .latency durationMs
  | .tokenUsage promptTokens completionTokens => .tokenUsage promptTokens completionTokens
  | .fork fromPoint toSession => .fork fromPoint toSession

def StoredRecord.map (record : StoredRecord A) : StoredRecord B := { record with event := record.event.map f }

def StoredBlock.traverse : StoredBlock A → Option (StoredBlock B)
  | .text t => some (.text t)
  | .imageBase64 mediaType data => some (.imageBase64 mediaType data)
  | .thinking reasoning signature => some (.thinking reasoning signature)
  | .toolCall id name arguments => (g arguments).map (.toolCall id name)
  | .toolResult toolCallId output => some (.toolResult toolCallId output)

def StoredEvent.traverse : StoredEvent A → Option (StoredEvent B)
  | .systemPrompt text => some (.systemPrompt text)
  | .message role content => (content.mapM (StoredBlock.traverse g)).map (.message role)
  | .reasoning r signature => some (.reasoning r signature)
  | .output text => some (.output text)
  | .toolCall id name arguments => (g arguments).map (.toolCall id name)
  | .toolResult toolCallId out stdout stderr exitCode => some (.toolResult toolCallId out stdout stderr exitCode)
  | .modelSwap fromModel toModel reason => some (.modelSwap fromModel toModel reason)
  | .latency durationMs => some (.latency durationMs)
  | .tokenUsage promptTokens completionTokens => some (.tokenUsage promptTokens completionTokens)
  | .fork fromPoint toSession => some (.fork fromPoint toSession)

def StoredRecord.traverse (record : StoredRecord A) : Option (StoredRecord B) :=
  (record.event.traverse g).map fun event => { record with event := event }

end

def StoredRecord.serialize (numberText : Number → List Char) : StoredRecord Value → StoredRecord String :=
  map (Canonical.canonicalValue numberText)

/-- Parse the text back, as `serde_json::from_str` does. -/
def StoredRecord.deserialize (fromStr : String → Option Value) : StoredRecord String → Option (StoredRecord Value) :=
  traverse fromStr

/-! ## Records alike but for their arguments -/

section
variable (R : Value → Value → Prop)

def BlockRelated : MessageContentBlock → MessageContentBlock → Prop
  | .toolCall id name arguments, .toolCall id' name' arguments' => id = id' ∧ name = name' ∧ R arguments arguments'
  | .toolCall .., _ => False
  | block, block' => block = block'

def EventRelated : SessionEvent → SessionEvent → Prop
  | .message role content, .message role' content' => role = role' ∧ List.Forall₂ (BlockRelated R) content content'
  | .toolCall id name arguments, .toolCall id' name' arguments' => id = id' ∧ name = name' ∧ R arguments arguments'
  | .message .., _ => False
  | .toolCall .., _ => False
  | event, event' => event = event'

structure SessionRecord.Related (r r' : SessionRecord) : Prop where
  sessionId : r.sessionId = r'.sessionId
  sequence : r.sequence = r'.sequence
  timestampMs : r.timestampMs = r'.timestampMs
  event : EventRelated R r.event r'.event

end

def blockArguments : MessageContentBlock → List Value
  | .toolCall _ _ arguments => [arguments]
  | _ => []

def eventArguments : SessionEvent → List Value
  | .message _ content => content.flatMap blockArguments
  | .toolCall _ _ arguments => [arguments]
  | _ => []

def SessionRecord.arguments (r : SessionRecord) : List Value := eventArguments r.event

/-! ## What is read of what was stored -/

section
variable (numberText : Number → List Char) (fromStr : String → Option Value)

def Reads (v w : Value) : Prop := fromStr (Canonical.canonicalValue numberText v) = some w

def readRecord (r : SessionRecord) : Option SessionRecord :=
  (((StoredRecord.ofRecord r).serialize numberText).deserialize fromStr).map StoredRecord.toRecord

variable {numberText fromStr}

theorem block_reads_iff {b b' : MessageContentBlock} :
    ((((StoredBlock.ofBlock b).map (Canonical.canonicalValue numberText)).traverse fromStr).map StoredBlock.toBlock = some b') ↔
      BlockRelated (Reads numberText fromStr) b b' := by
  cases b with
  | toolCall id name arguments =>
    rw [StoredBlock.ofBlock, StoredBlock.map, StoredBlock.traverse, Option.map_map, Option.map_eq_some_iff]
    constructor
    · rintro ⟨w, hw, rfl⟩
      exact ⟨rfl, rfl, hw⟩
    · intro h
      cases b' with
      | toolCall id' name' w =>
        obtain ⟨rfl, rfl, hw⟩ := h
        exact ⟨w, hw, rfl⟩
      | _ => exact h.elim
  | _ =>
    simp only [StoredBlock.ofBlock, StoredBlock.map, StoredBlock.traverse, Option.map_some, StoredBlock.toBlock,
      Option.some.injEq]
    rfl

theorem event_reads_iff {e e' : SessionEvent} :
    ((((StoredEvent.ofEvent e).map (Canonical.canonicalValue numberText)).traverse fromStr).map StoredEvent.toEvent = some e') ↔
      EventRelated (Reads numberText fromStr) e e' := by
  cases e with
  | message role content =>
    have hblocks (content' : List MessageContentBlock) :
        (∃ blocks, ((content.map StoredBlock.ofBlock).map (StoredBlock.map (Canonical.canonicalValue numberText))).mapM
            (StoredBlock.traverse fromStr) = some blocks ∧ blocks.map StoredBlock.toBlock = content') ↔
          List.Forall₂ (BlockRelated (Reads numberText fromStr)) content content' := by
      rw [List.map_map, Pointwise.mapM_map_eq_some]
      exact ⟨fun h => h.imp fun _ _ => block_reads_iff.mp, fun h => h.imp fun _ _ => block_reads_iff.mpr⟩
    rw [StoredEvent.ofEvent, StoredEvent.map, StoredEvent.traverse, Option.map_map, Option.map_eq_some_iff]
    constructor
    · rintro ⟨blocks, hread, rfl⟩
      exact ⟨rfl, (hblocks _).mp ⟨blocks, hread, rfl⟩⟩
    · intro h
      cases e' with
      | message role' content' =>
        obtain ⟨rfl, hcontent⟩ := h
        obtain ⟨blocks, hread, rfl⟩ := (hblocks _).mpr hcontent
        exact ⟨blocks, hread, rfl⟩
      | _ => exact h.elim
  | toolCall id name arguments =>
    rw [StoredEvent.ofEvent, StoredEvent.map, StoredEvent.traverse, Option.map_map, Option.map_eq_some_iff]
    constructor
    · rintro ⟨w, hw, rfl⟩
      exact ⟨rfl, rfl, hw⟩
    · intro h
      cases e' with
      | toolCall id' name' w =>
        obtain ⟨rfl, rfl, hw⟩ := h
        exact ⟨w, hw, rfl⟩
      | _ => exact h.elim
  | _ =>
    simp only [StoredEvent.ofEvent, StoredEvent.map, StoredEvent.traverse, Option.map_some, StoredEvent.toEvent,
      Option.some.injEq]
    rfl

/-- **A record stored and read**: nothing but its arguments depends on the text of JSON. -/
theorem reads_iff {r r' : SessionRecord} :
    readRecord numberText fromStr r = some r' ↔ r.Related (Reads numberText fromStr) r' := by
  have hevent : readRecord numberText fromStr r = some r' ↔
      ∃ e, ((((StoredEvent.ofEvent r.event).map (Canonical.canonicalValue numberText)).traverse fromStr).map
        StoredEvent.toEvent = some e) ∧ (⟨r.sessionId, r.sequence, r.timestampMs, e⟩ : SessionRecord) = r' := by
    unfold readRecord StoredRecord.deserialize StoredRecord.serialize StoredRecord.traverse StoredRecord.map
      StoredRecord.ofRecord
    rw [Option.map_map, Option.map_eq_some_iff]
    simp only [Option.map_eq_some_iff]
    constructor
    · rintro ⟨stored, hread, rfl⟩
      exact ⟨_, ⟨stored, hread, rfl⟩, rfl⟩
    · rintro ⟨_, ⟨stored, hread, rfl⟩, rfl⟩
      exact ⟨stored, hread, rfl⟩
  rw [hevent]
  simp only [event_reads_iff]
  constructor
  · rintro ⟨e, he, rfl⟩
    exact ⟨rfl, rfl, rfl, he⟩
  · rintro ⟨hsession, hsequence, htimestamp, he⟩
    refine ⟨r'.event, he, ?_⟩
    rw [hsession, hsequence, htimestamp]

end

/-! ## Related records -/

section
variable {R S : Value → Value → Prop}

theorem BlockRelated.and {b b' : MessageContentBlock} (hR : BlockRelated R b b') (hS : BlockRelated S b b') :
    BlockRelated (fun v w => R v w ∧ S v w) b b' := by
  cases b with
  | toolCall =>
    cases b' with
    | toolCall => exact ⟨hR.1, hR.2.1, hR.2.2, hS.2.2⟩
    | _ => exact hR.elim
  | _ => exact hR

theorem BlockRelated.imp {b b' : MessageContentBlock} (himp : ∀ v w, R v w → S v w) (h : BlockRelated R b b') :
    BlockRelated S b b' := by
  cases b with
  | toolCall =>
    cases b' with
    | toolCall => exact ⟨h.1, h.2.1, himp _ _ h.2.2⟩
    | _ => exact h.elim
  | _ => exact h

theorem EventRelated.and {e e' : SessionEvent} (hR : EventRelated R e e') (hS : EventRelated S e e') :
    EventRelated (fun v w => R v w ∧ S v w) e e' := by
  cases e with
  | message =>
    cases e' with
    | message => exact ⟨hR.1, (Pointwise.and hR.2 hS.2).imp fun _ _ h => h.1.and h.2⟩
    | _ => exact hR.elim
  | toolCall =>
    cases e' with
    | toolCall => exact ⟨hR.1, hR.2.1, hR.2.2, hS.2.2⟩
    | _ => exact hR.elim
  | _ => exact hR

theorem EventRelated.imp {e e' : SessionEvent} (himp : ∀ v w, R v w → S v w) (h : EventRelated R e e') :
    EventRelated S e e' := by
  cases e with
  | message =>
    cases e' with
    | message => exact ⟨h.1, h.2.imp fun _ _ hb => hb.imp himp⟩
    | _ => exact h.elim
  | toolCall =>
    cases e' with
    | toolCall => exact ⟨h.1, h.2.1, himp _ _ h.2.2⟩
    | _ => exact h.elim
  | _ => exact h

theorem SessionRecord.Related.and {r r' : SessionRecord} (hR : r.Related R r') (hS : r.Related S r') :
    r.Related (fun v w => R v w ∧ S v w) r' := ⟨hR.sessionId, hR.sequence, hR.timestampMs, hR.event.and hS.event⟩

theorem SessionRecord.Related.imp {r r' : SessionRecord} (himp : ∀ v w, R v w → S v w) (h : r.Related R r') :
    r.Related S r' := ⟨h.sessionId, h.sequence, h.timestampMs, h.event.imp himp⟩

theorem exists_blockRelated {b : MessageContentBlock} :
    (∃ b', BlockRelated R b b') ↔ ∀ v ∈ blockArguments b, ∃ w, R v w := by
  cases b with
  | toolCall id name v =>
    rw [blockArguments, List.forall_mem_singleton]
    constructor
    · rintro ⟨b', hb'⟩
      cases b' with
      | toolCall _ _ w => exact ⟨w, hb'.2.2⟩
      | _ => exact hb'.elim
    · rintro ⟨w, hw⟩
      exact ⟨.toolCall id name w, rfl, rfl, hw⟩
  | _ => exact iff_of_true ⟨_, rfl⟩ fun _ hv => absurd hv List.not_mem_nil

/-- **Arguments**: a record has a related one just when each of its arguments has a related value. -/
theorem exists_related {r : SessionRecord} : (∃ r', r.Related R r') ↔ ∀ v ∈ r.arguments, ∃ w, R v w := by
  have hevent : (∃ r', r.Related R r') ↔ ∃ e, EventRelated R r.event e :=
    ⟨fun ⟨r', h⟩ => ⟨r'.event, h.event⟩, fun ⟨e, h⟩ => ⟨{ r with event := e }, rfl, rfl, rfl, h⟩⟩
  rw [hevent, SessionRecord.arguments]
  rcases r.event with _ | ⟨role, content⟩ | _ | _ | ⟨id, name, v⟩ | _ | _ | _ | _ | _
  case message =>
    rw [eventArguments]
    simp only [List.mem_flatMap, forall_exists_index, and_imp]
    have hcontent : (∃ content', List.Forall₂ (BlockRelated R) content content') ↔
        ∀ b ∈ content, ∀ v ∈ blockArguments b, ∃ w, R v w := by
      simp only [Pointwise.exists_forall₂, exists_blockRelated]
    constructor
    · rintro ⟨e, he⟩ v b hb hv
      cases e with
      | message _ content' => exact hcontent.mp ⟨content', he.2⟩ b hb v hv
      | _ => exact he.elim
    · intro h
      obtain ⟨content', hcontent'⟩ := hcontent.mpr fun b hb v hv => h v b hb hv
      exact ⟨.message role content', rfl, hcontent'⟩
  case toolCall =>
    rw [eventArguments, List.forall_mem_singleton]
    constructor
    · rintro ⟨e, he⟩
      cases e with
      | toolCall _ _ w => exact ⟨w, he.2.2⟩
      | _ => exact he.elim
    · rintro ⟨w, hw⟩
      exact ⟨.toolCall id name w, rfl, rfl, hw⟩
  all_goals exact iff_of_true ⟨_, rfl⟩ fun _ hv => absurd hv List.not_mem_nil

end

end Cuca.Session
