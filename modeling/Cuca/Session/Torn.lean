import Cuca.Lib.Transition
import Cuca.Session.File
import Cuca.Session.PostcardFormat

/-!
# Torn writes

A write that stops within a frame leaves bytes behind the frames of the file, and later appends write behind them. Replay
does not pass over such bytes: what it can make of them is in its answer, and what it cannot is an error.

* `append_effect` : what an append leaves in the files;
* `replay_tail` : a file with anything behind its frames;
* `torn_reported` : a write torn at any byte, and all that is appended later.
-/

namespace Cuca.Session.FileBackend
open Postcard Transition

variable (b : FileBackend)

theorem append_effect (disk : Disk) (io : AppendIo) (record : SessionRecord) :
    (b.append disk io record).2 = disk ∨ ∃ added, added <+: b.scratch ((disk.logs record.sessionId).getD []) record ∧
      (b.append disk io record).2 = setLog disk record.sessionId ((disk.logs record.sessionId).getD [] ++ added) := by
  unfold append
  split
  case h_1 => exact .inl rfl
  case h_2 =>
    rcases io with _ | e | e | ⟨written, e⟩
    · exact .inr ⟨_, List.prefix_refl _, rfl⟩
    · exact .inl rfl
    · exact .inr ⟨[], List.nil_prefix, by rw [List.append_nil]⟩
    · exact .inr ⟨_, List.take_prefix _ _, rfl⟩

@[simp] theorem setLog_logs (disk : Disk) (id other : String) (content : Bytes) :
    (setLog disk id content).logs other = if other = id then some content else disk.logs other := by
  exact Function.update_apply ..

theorem append_keeps (disk : Disk) (a : AppendIo × SessionRecord) {id : String} {content tail : Bytes}
    (h : disk.logs id = some (content ++ tail)) : ∃ tail', (b.append disk a.1 a.2).2.logs id = some (content ++ tail') := by
  rcases b.append_effect disk a.1 a.2 with hsame | ⟨added, _, hadded⟩
  · exact ⟨tail, by rw [hsame, h]⟩
  · rw [hadded, setLog_logs]
    split
    case isTrue heq => exact ⟨tail ++ added, by rw [← heq, h, Option.getD_some, List.append_assoc]⟩
    case isFalse => exact ⟨tail, h⟩

variable {b}

theorem replay_log {disk : Disk} {id : String} {bytes : Bytes} (hsafe : isSafe id = true) (h : disk.logs id = some bytes)
    (hnonempty : bytes ≠ []) : b.replay disk none id = b.format.decodeFrames (b.path id) bytes := by
  have hempty : bytes.isEmpty = false := by rwa [List.isEmpty_eq_false_iff]
  rw [replay, checkSafeId, if_pos hsafe]
  dsimp only
  rw [h]
  dsimp only
  rw [hempty, if_neg Bool.false_ne_true]

def ReadAs (f : Format) (records read : List SessionRecord) : Prop :=
  List.Forall₂ (fun r r' => readRecord f.numberText f.fromStr r = some r') records read

/-- **Anything behind the frames**: it adds records, or it is an error. -/
theorem replay_tail {disk : Disk} {id : String} {records read : List SessionRecord} {tail : Bytes}
    (hsafe : isSafe id = true) (hread : ReadAs b.format records read)
    (h : disk.logs id = some (header ++ records.flatMap b.format.encode ++ tail)) :
    (tail = [] → b.replay disk none id = .ok read) ∧
      (tail ≠ [] → (∃ more, more ≠ [] ∧ b.replay disk none id = .ok (read ++ more)) ∨
        ∃ index e, records.length ≤ index ∧ b.replay disk none id = .error (badFrame (b.path id) index e)) := by
  have hreplay : b.replay disk none id = b.format.readFrames (b.path id) read tail := by
    rw [List.append_assoc] at h
    rw [replay_log hsafe h (Format.header_append_ne_nil _), Format.decodeFrames_header,
      Format.readFrames_append (b.path id) hread, List.nil_append]
  rw [hreplay]
  constructor
  · rintro rfl
    exact Format.readFrames_nil ..
  · intro hnonempty
    rcases Format.readFrames_cases (f := b.format) (b.path id) read tail with ⟨more, hok, hmore⟩ | ⟨index, e, hindex, herror⟩
    · exact .inl ⟨more, hmore hnonempty, hok⟩
    · exact .inr ⟨index, e, hread.length_eq ▸ hindex, herror⟩

variable (b)

def appended (disk : Disk) (a : AppendIo × SessionRecord) : Disk := (b.append disk a.1 a.2).2

/-- **Torn writes**: the records that were in the file stay at its front, where a reader that stops in time finds them. With
nothing behind them replay returns them. With anything behind them, of the torn write or of appends after it, replay does
not return them alone: it makes further records of that, or it answers with an error that names a frame behind theirs. -/
theorem torn_reported (disk : Disk) (id : String) (hsafe : isSafe id = true) {records read : List SessionRecord}
    (hread : ReadAs b.format records read) (h : disk.logs id = some (header ++ records.flatMap b.format.encode))
    (record : SessionRecord) (hsession : record.sessionId = id) (written : Nat)
    (htorn : written < (b.format.encode record).length) (e : String) (later : List (AppendIo × SessionRecord)) :
    b.format.decodeFrames (b.path id) (header ++ records.flatMap b.format.encode) = .ok read ∧
    ∃ tail, (run b.appended (b.append disk (.writeFails written e) record).2 later).logs id =
        some (header ++ records.flatMap b.format.encode ++ tail) ∧
      (0 < written → tail ≠ []) ∧
      (tail = [] → b.replay (run b.appended (b.append disk (.writeFails written e) record).2 later) none id = .ok read) ∧
      (tail ≠ [] →
        (∃ more, more ≠ [] ∧
          b.replay (run b.appended (b.append disk (.writeFails written e) record).2 later) none id = .ok (read ++ more)) ∨
        ∃ index e', records.length ≤ index ∧
          b.replay (run b.appended (b.append disk (.writeFails written e) record).2 later) none id =
            .error (badFrame (b.path id) index e')) := by
  have hwhole : b.format.decodeFrames (b.path id) (header ++ records.flatMap b.format.encode) = .ok read := by
    have hframes := Format.readFrames_append (b.path id) hread [] []
    rw [List.append_nil, List.nil_append, Format.readFrames_nil] at hframes
    rw [Format.decodeFrames_header, hframes]
  refine ⟨hwhole, ?_⟩
  -- the file is not new, so the frame is all that is written
  have hscratch : b.scratch (header ++ records.flatMap b.format.encode) record = b.format.encode record := by
    rw [scratch, if_neg, List.nil_append]
    rw [List.isEmpty_iff]
    exact Format.header_append_ne_nil _
  have hfirst : (b.append disk (.writeFails written e) record).2.logs id =
      some (header ++ records.flatMap b.format.encode ++ (b.format.encode record).take written) := by
    rw [append, checkSafeId, hsession, if_pos hsafe]
    dsimp only
    rw [h, Option.getD_some, hscratch, setLog_logs, if_pos rfl]
  obtain ⟨tail, htail⟩ := run_invariant b.appended
    (I := fun d => ∃ tail, d.logs id =
      some (header ++ records.flatMap b.format.encode ++ (b.format.encode record).take written ++ tail))
    (fun d a ⟨_, hd⟩ => b.append_keeps d a hd) ⟨[], by rw [hfirst, List.append_nil]⟩ later
  rw [List.append_assoc] at htail
  refine ⟨_, htail, fun hpos hnil => ?_, replay_tail hsafe hread htail⟩
  have hnone := (List.append_eq_nil_iff.mp hnil).1
  have hlength := congrArg List.length hnone
  rw [List.length_take_of_le (Nat.le_of_lt htorn)] at hlength
  exact absurd hlength (Nat.ne_of_gt hpos)

/-! ## A torn file -/

noncomputable def files : FileBackend := ⟨"sessions", Session.format⟩

def output (sequence : Nat) : SessionRecord := ⟨"s", sequence, 1, .output "said"⟩

noncomputable def oneRecord : Disk :=
  ⟨fun id => if id = "s" then some (header ++ [output 0].flatMap files.format.encode) else none, fun _ => false⟩

theorem readAs_output (sequence : Nat) : ReadAs files.format [output sequence] [output sequence] := .cons rfl .nil

theorem encode_output : files.format.encode (output 1) = [11, 1, 115, 1, 1, 3, 4, 115, 97, 105, 100, 0] := by
  have hbytes : recordBytes ((StoredRecord.ofRecord (output 1)).serialize files.format.numberText) =
      [1, 115, 1, 1, 3, 4, 115, 97, 105, 100] := by
    show str "s" ++ (varint 1 ++ (varint 1 ++ (varint 3 ++ str "said"))) = _
    have hs : str "s" = [1, 115] := by rw [str, varint_small (by decide)]; rfl
    have hsaid : str "said" = [4, 115, 97, 105, 100] := by rw [str, varint_small (by decide)]; rfl
    rw [hs, hsaid, varint_small (by decide), varint_small (by decide)]
    rfl
  show frameBytes _ = _
  rw [frameBytes, hbytes]
  decide

theorem torn_reported_output : files.format.decodeFrames (files.path "s")
    (header ++ [output 0].flatMap files.format.encode) = .ok [output 0] :=
  (files.torn_reported oneRecord "s" (by rfl) (readAs_output 0) (by rfl) (output 1) (by rfl) 1
    (by rw [encode_output]; decide) "no space" []).1

/-- With one byte of a second frame behind it, the first record is not returned. -/
theorem torn_unread : ¬ ∃ more,
    files.replay (files.append oneRecord (.writeFails 1 "no space") (output 1)).2 none "s" = .ok (output 0 :: more) := by
  rintro ⟨more, hok⟩
  have hlog : (files.append oneRecord (.writeFails 1 "no space") (output 1)).2.logs "s" =
      some (header ++ ([output 0].flatMap files.format.encode ++ [11])) := by
    have hfile : oneRecord.logs "s" = some (header ++ [output 0].flatMap files.format.encode) := by rfl
    have hscratch : files.scratch (header ++ [output 0].flatMap files.format.encode) (output 1) =
        files.format.encode (output 1) := by rfl
    show (setLog oneRecord "s" (((oneRecord.logs "s").getD []) ++
      (files.scratch ((oneRecord.logs "s").getD []) (output 1)).take 1)).logs "s" = _
    rw [setLog_logs, if_pos rfl, hfile, Option.getD_some, hscratch, encode_output, List.append_assoc]
    rfl
  rw [replay_log (by rfl) hlog (Format.header_append_ne_nil _), Format.decodeFrames_header,
    Format.readFrames_append _ (readAs_output 0), Format.readFrames] at hok
  have htake : files.format.take [11] = .error "The original data was not well encoded" := by rfl
  rw [if_neg (by decide)] at hok
  split at hok
  case h_1 => exact nomatch hok
  case h_2 herror => exact nomatch htake.symm.trans herror

end Cuca.Session.FileBackend
