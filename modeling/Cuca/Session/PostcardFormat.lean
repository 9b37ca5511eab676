import Cuca.JsonReader
import Cuca.Lib.Cobs
import Cuca.Services.PromptDigest
import Cuca.Session.Frames

/-!
# The frames that are written

The `postcard` bytes of a stored record, stuffed by COBS and closed by a zero.

* `recordBytes`, `delimits_record` : the bytes of a record, which can be read from the front;
* `format` : the format of session files;
* `readFrames_ok_iff` : the records, each read on its own, or an error;
* `round_trip_iff` : the same records, up to the order of the keys of objects, just where `serde_json` reads the arguments
  of their tool calls as they were.
-/

namespace Cuca.Session
open Postcard PrefixCode

/-! ## Bytes -/

def blockBytes : StoredBlock String → Bytes
  | .text t => varint 0 ++ str t
  | .imageBase64 mediaType data => varint 1 ++ (str mediaType ++ str data)
  | .thinking reasoning signature => varint 2 ++ (str reasoning ++ option str signature)
  | .toolCall id name arguments => varint 3 ++ (str id ++ (str name ++ str arguments))
  | .toolResult toolCallId output => varint 4 ++ (str toolCallId ++ str output)

def roleIndex : MessageRole → Nat
  | .system => 0
  | .user => 1
  | .assistant => 2
  | .tool => 3

/-- Signed numbers, small ones first. -/
def zigzag : Int → Nat
  | .ofNat n => 2 * n
  | .negSucc n => 2 * n + 1

def eventBytes : StoredEvent String → Bytes
  | .systemPrompt text => varint 0 ++ str text
  | .message role content => varint 1 ++ (varint (roleIndex role) ++ seq blockBytes content)
  | .reasoning r signature => varint 2 ++ (str r ++ option str signature)
  | .output text => varint 3 ++ str text
  | .toolCall id name arguments => varint 4 ++ (str id ++ (str name ++ str arguments))
  | .toolResult toolCallId out stdout stderr exitCode =>
    varint 5 ++ (str toolCallId ++ (str out ++ (option str stdout ++ (option str stderr ++
      option (fun code => varint (zigzag code)) exitCode))))
  | .modelSwap fromModel toModel reason => varint 6 ++ (str fromModel ++ (str toModel ++ str reason))
  | .latency durationMs => varint 7 ++ varint durationMs
  | .tokenUsage promptTokens completionTokens => varint 8 ++ (varint promptTokens ++ varint completionTokens)
  | .fork fromPoint toSession => varint 9 ++ (str fromPoint ++ str toSession)

def recordBytes (record : StoredRecord String) : Bytes :=
  str record.sessionId ++ (varint record.sequence ++ (varint record.timestampMs ++ eventBytes record.event))

/-! ## Reading the bytes from the front -/

section
variable {α : Type} {encode : α → Bytes}

theorem append_inj_iff (h : Delimits Eq encode) {a b : α} {x y : Bytes} :
    encode a ++ x = encode b ++ y ↔ a = b ∧ x = y := by
  refine ⟨h a b x y, ?_⟩
  rintro ⟨rfl, rfl⟩
  rfl

theorem delimits_optional (h : Delimits Eq encode) : Delimits Eq (option encode) := by
  refine (delimits_option h).imp fun a b hab => ?_
  rcases hab with hab | _
  · rw [hab]
  · rfl

theorem delimits_list (h : Delimits Eq encode) : Delimits Eq (seq encode) :=
  (delimits_seq h).imp fun _ _ hab => List.forall₂_eq_eq_eq ▸ hab

end

theorem roleIndex_injective : Function.Injective roleIndex := by
  intro a b h
  cases a <;> cases b <;> first | rfl | exact nomatch h

theorem zigzag_injective : Function.Injective zigzag := by
  intro a b h
  rcases a with m | m <;> rcases b with n | n <;> simp only [zigzag] at h <;> first | omega | (congr 1; omega)

theorem delimits_block : Delimits Eq blockBytes := by
  have hstr {a b : String} {x y : Bytes} := append_inj_iff delimits_str (a := a) (b := b) (x := x) (y := y)
  have hoption {a b : Option String} {x y : Bytes} :=
    append_inj_iff (delimits_optional delimits_str) (a := a) (b := b) (x := x) (y := y)
  have hvarint {a b : Nat} {x y : Bytes} := append_inj_iff delimits_varint (a := a) (b := b) (x := x) (y := y)
  intro a b x y h
  rcases a with _ | _ | _ | _ | _ <;> rcases b with _ | _ | _ | _ | _ <;>
    simp [blockBytes, hstr, hoption, hvarint] at h ⊢ <;> simp [h]

theorem delimits_event : Delimits Eq eventBytes := by
  have hstr {a b : String} {x y : Bytes} := append_inj_iff delimits_str (a := a) (b := b) (x := x) (y := y)
  have hoption {a b : Option String} {x y : Bytes} :=
    append_inj_iff (delimits_optional delimits_str) (a := a) (b := b) (x := x) (y := y)
  have hvarint {a b : Nat} {x y : Bytes} := append_inj_iff delimits_varint (a := a) (b := b) (x := x) (y := y)
  have hblocks {a b : List (StoredBlock String)} {x y : Bytes} :=
    append_inj_iff (delimits_list delimits_block) (a := a) (b := b) (x := x) (y := y)
  have hcode {a b : Option Int} {x y : Bytes} := append_inj_iff
    (delimits_optional ((delimits_varint.comap zigzag).imp fun _ _ h => zigzag_injective h)) (a := a) (b := b) (x := x) (y := y)
  have hrole {a b : MessageRole} : roleIndex a = roleIndex b ↔ a = b := roleIndex_injective.eq_iff
  intro a b x y h
  rcases a with _ | _ | _ | _ | _ | _ | _ | _ | _ | _ <;> rcases b with _ | _ | _ | _ | _ | _ | _ | _ | _ | _ <;>
    simp [eventBytes, hstr, hoption, hvarint, hblocks, hcode, hrole] at h ⊢ <;> simp [h]

theorem delimits_record : Delimits Eq recordBytes := by
  refine ((delimits_str.comap StoredRecord.sessionId).append ((delimits_varint.comap StoredRecord.sequence).append
    ((delimits_varint.comap StoredRecord.timestampMs).append (delimits_event.comap StoredRecord.event)))).imp ?_
  rintro ⟨id, sequence, timestamp, event⟩ ⟨id', sequence', timestamp', event'⟩ ⟨hid, hsequence, htimestamp, hevent⟩
  simp only at hid hsequence htimestamp hevent
  rw [hid, hsequence, htimestamp, hevent]

/-! ## Frames -/

def frameBytes (record : StoredRecord String) : Bytes := Cobs.encode (recordBytes record) ++ [0]

/-- The record at the front of the bytes, which may go on behind it. -/
noncomputable def fromBytes (payload : Bytes) : Option (StoredRecord String) :=
  open Classical in
  if h : ∃ record rest, recordBytes record ++ rest = payload then some h.choose else none

/-- Decodes up to the first zero, or to the end. -/
noncomputable def takeFromBytesCobs (bytes : Bytes) : Except String (StoredRecord String × Bytes) :=
  if bytes.isEmpty then .error "Hit the end of buffer, expected more data"
  else
    match Cobs.decode (bytes.takeWhile (· != 0)) with
    | none => .error "The original data was not well encoded"
    | some payload =>
      match fromBytes payload with
      | none => .error "Hit the end of buffer, expected more data"
      | some record => .ok (record, (bytes.dropWhile (· != 0)).drop 1)

theorem fromBytes_record (record : StoredRecord String) : fromBytes (recordBytes record) = some record := by
  have hex : ∃ record' rest, recordBytes record' ++ rest = recordBytes record := ⟨record, [], List.append_nil _⟩
  obtain ⟨rest, hrest⟩ := hex.choose_spec
  have hsame := (delimits_record _ record rest [] (hrest.trans (List.append_nil _).symm)).1
  rw [fromBytes, dif_pos hex, hsame]

theorem takeFromBytesCobs_frame (record : StoredRecord String) (rest : Bytes) :
    takeFromBytesCobs (frameBytes record ++ rest) = .ok (record, rest) := by
  have hbody : ∀ b ∈ Cobs.encode (recordBytes record), (b != 0) = true := fun b hb =>
    bne_iff_ne.mpr fun heq => Cobs.zero_not_mem_encode (recordBytes record) (heq ▸ hb)
  have hnonempty : ¬ (frameBytes record ++ rest).isEmpty = true := by simp [frameBytes]
  have htake : (frameBytes record ++ rest).takeWhile (· != 0) = Cobs.encode (recordBytes record) := by
    rw [frameBytes, List.append_assoc, List.takeWhile_append_of_pos hbody]
    simp
  have hdrop : ((frameBytes record ++ rest).dropWhile (· != 0)).drop 1 = rest := by
    rw [frameBytes, List.append_assoc, List.dropWhile_append_of_pos hbody]
    simp
  rw [takeFromBytesCobs, if_neg hnonempty, htake, Cobs.decode_encode]
  dsimp only
  rw [fromBytes_record, hdrop]

theorem takeFromBytesCobs_consumes {bytes : Bytes} {record : StoredRecord String} {rest : Bytes}
    (h : takeFromBytesCobs bytes = .ok (record, rest)) : rest.length < bytes.length := by
  unfold takeFromBytesCobs at h
  split at h
  · exact nomatch h
  · rename_i hnonempty
    have hpos : 0 < bytes.length := List.length_pos_iff.mpr fun hnil => hnonempty (List.isEmpty_iff.mpr hnil)
    split at h
    · exact nomatch h
    · split at h
      · exact nomatch h
      · obtain ⟨-, rfl⟩ := Prod.mk.inj (Except.ok.inj h)
        rw [List.length_drop]
        have hle := (List.dropWhile_suffix (l := bytes) (· != 0)).length_le
        omega

/-- **The format of session files**, with plain texts for numbers. -/
noncomputable def format : Format where
  numberText := PromptDigest.plainText
  fromStr := Canonical.ofText PromptDigest.plainText
  frame := frameBytes
  take := takeFromBytesCobs
  customError := "Serde Deserialization Error"
  take_frame := takeFromBytesCobs_frame
  take_consumes := takeFromBytesCobs_consumes

/-! ## Session files read back

What a file gives back of the records that were appended to it.
-/

open Canonical

namespace Format
variable {f : Format}

/-- **The records of a file**, each read on its own. -/
theorem readFrames_ok_iff (path : String) (records before result : List SessionRecord) :
    f.readFrames path before (records.flatMap f.encode) = .ok result ↔
      ∃ read, List.Forall₂ (fun r r' => readRecord f.numberText f.fromStr r = some r') records read ∧
        result = before ++ read := by
  induction records generalizing before with
  | nil =>
    rw [List.flatMap_nil, readFrames_nil]
    constructor
    · exact fun h => ⟨[], .nil, by rw [List.append_nil, Except.ok.inj h]⟩
    · rintro ⟨read, hread, rfl⟩
      rw [List.forall₂_nil_left_iff.mp hread, List.append_nil]
  | cons r records ih =>
    rw [List.flatMap_cons, readFrames_encode]
    rcases hr : readRecord f.numberText f.fromStr r with _ | r'
    · refine iff_of_false (by simp) ?_
      rintro ⟨read, hread, -⟩
      obtain ⟨_, _, hfirst, _, _⟩ := List.forall₂_cons_left_iff.mp hread
      cases hr.symm.trans hfirst
    · dsimp only
      rw [ih]
      constructor
      · rintro ⟨read, hread, rfl⟩
        exact ⟨r' :: read, .cons hr hread, by rw [List.append_assoc, List.singleton_append]⟩
      · rintro ⟨read, hread, rfl⟩
        obtain ⟨r'', read, hfirst, hrest, rfl⟩ := List.forall₂_cons_left_iff.mp hread
        obtain rfl := Option.some.inj (hr.symm.trans hfirst)
        exact ⟨read, hrest, by rw [List.append_assoc, List.singleton_append]⟩

theorem exists_read_iff (path : String) (records : List SessionRecord) :
    (∃ read, f.decodeFrames path (header ++ records.flatMap f.encode) = .ok read ∧
        List.Forall₂ (SessionRecord.Related Value.Reordered) records read) ↔
      ∀ r ∈ records, ∀ v ∈ r.arguments, ∃ w, Reads f.numberText f.fromStr v w ∧ v.Reordered w := by
  have hrecord (r : SessionRecord) : (∃ r', readRecord f.numberText f.fromStr r = some r' ∧ r.Related Value.Reordered r') ↔
      ∀ v ∈ r.arguments, ∃ w, Reads f.numberText f.fromStr v w ∧ v.Reordered w := by
    rw [← exists_related]
    constructor
    · rintro ⟨r', hread, hsame⟩
      exact ⟨r', (reads_iff.mp hread).and hsame⟩
    · rintro ⟨r', h⟩
      exact ⟨r', reads_iff.mpr (h.imp fun _ _ hvw => hvw.1), h.imp fun _ _ hvw => hvw.2⟩
  simp only [← hrecord]
  rw [← Pointwise.exists_forall₂, decodeFrames_header]
  constructor
  · rintro ⟨read, hok, hsame⟩
    obtain ⟨_, hread, rfl⟩ := (readFrames_ok_iff path records [] read).mp hok
    exact ⟨_, Pointwise.and hread hsame⟩
  · rintro ⟨read, h⟩
    refine ⟨read, (readFrames_ok_iff path records [] read).mpr ⟨read, h.imp fun _ _ hr => hr.1, rfl⟩, ?_⟩
    exact h.imp fun _ _ hr => hr.2

theorem decodeFrames_deep {back : Number → Number} (hjson : ReadsJson f.numberText f.fromStr back) (path : String)
    {records : List SessionRecord} {r : SessionRecord} (hr : r ∈ records) {v : Value} (hv : v ∈ r.arguments)
    (hkeys : v.DistinctKeys) (hdeep : recursionLimit ≤ v.depth) :
    ∃ index e, f.decodeFrames path (header ++ records.flatMap f.encode) = .error (badFrame path index e) := by
  rw [decodeFrames_header]
  rcases readFrames_cases (f := f) path [] (records.flatMap f.encode) with ⟨more, hok, _⟩ | ⟨index, e, _, herror⟩
  · obtain ⟨read, hread, _⟩ := (readFrames_ok_iff path records [] _).mp hok
    obtain ⟨r', hr'⟩ := Pointwise.exists_forall₂.mp ⟨read, hread⟩ r hr
    obtain ⟨w, hw⟩ := exists_related.mp ⟨r', reads_iff.mp hr'⟩ v hv
    exact nomatch (hjson.deep v hkeys hdeep).symm.trans hw
  · exact ⟨index, e, herror⟩

/-- **Files read back** as they were written, up to the order of keys, just where every argument in them is within the
depth that is read and its numbers are read back; and an argument beyond that depth makes the file unreadable. -/
theorem round_trip_iff (f : Format) {back : Number → Number} (hjson : ReadsJson f.numberText f.fromStr back)
    (path : String) (records : List SessionRecord) (hkeys : ∀ r ∈ records, ∀ v ∈ r.arguments, v.DistinctKeys) :
    ((∃ read, f.decodeFrames path (header ++ records.flatMap f.encode) = .ok read ∧
        List.Forall₂ (SessionRecord.Related Value.Reordered) records read) ↔
      ∀ r ∈ records, ∀ v ∈ r.arguments, v.depth < recursionLimit ∧ (v.mapNumbers back).Reordered v) ∧
    ((∃ r ∈ records, ∃ v ∈ r.arguments, recursionLimit ≤ v.depth) →
      ∃ index e, f.decodeFrames path (header ++ records.flatMap f.encode) = .error (badFrame path index e)) := by
  constructor
  · rw [exists_read_iff]
    refine forall_congr' fun r => forall_congr' fun hr => forall_congr' fun v => forall_congr' fun hv => ?_
    exact reads_back_iff hjson (hkeys r hr v hv)
  · rintro ⟨r, hr, v, hv, hdeep⟩
    exact decodeFrames_deep hjson path hr hv (hkeys r hr v hv) hdeep

end Format

def calling (arguments : Value) : SessionRecord := ⟨"s", 0, 1, .toolCall "c" "search" arguments⟩

theorem round_trip_iff_calling :
    ((∃ read, format.decodeFrames "s.cslog" (header ++ [calling (.object [("b", .bool true), ("a", .null)])].flatMap
        format.encode) = .ok read ∧
      List.Forall₂ (SessionRecord.Related Value.Reordered) [calling (.object [("b", .bool true), ("a", .null)])] read) ↔
      ∀ r ∈ [calling (.object [("b", .bool true), ("a", .null)])], ∀ v ∈ r.arguments,
        v.depth < recursionLimit ∧ (v.mapNumbers id).Reordered v) := by
  refine (Format.round_trip_iff format (readsJson_ofText PromptDigest.numberTexts_plainText) "s.cslog" _ ?_).1
  intro r hr v hv
  rw [List.mem_singleton.mp hr] at hv
  rw [List.mem_singleton.mp hv]
  exact ⟨by decide, trivial, trivial, trivial⟩

/-- Arrays in arrays. -/
def nested : Nat → Value
  | 0 => .null
  | n + 1 => .array [nested n]

theorem depth_nested (n : Nat) : (nested n).depth = n := by
  induction n with
  | zero => rfl
  | succ n ih => rw [nested, Value.depth, Value.depthElements, Value.depthElements, ih, Nat.max_zero]

theorem distinctKeys_nested (n : Nat) : (nested n).DistinctKeys := by
  induction n with
  | zero => trivial
  | succ n ih => exact ⟨ih, trivial⟩

/-- A file with arguments of 128 levels is written, and not read. -/
theorem nested_unread :
    ¬ ∃ read, format.decodeFrames "s.cslog" (header ++ [calling (nested 128)].flatMap format.encode) = .ok read ∧
      List.Forall₂ (SessionRecord.Related Value.Reordered) [calling (nested 128)] read := by
  rintro ⟨read, hok, -⟩
  obtain ⟨index, e, herror⟩ := Format.decodeFrames_deep (f := format)
    (readsJson_ofText PromptDigest.numberTexts_plainText) "s.cslog" (List.mem_singleton_self (calling (nested 128)))
    (List.mem_singleton_self (nested 128)) (distinctKeys_nested 128) (Nat.le_of_eq (depth_nested 128).symm)
  exact nomatch herror.symm.trans hok

end Cuca.Session
