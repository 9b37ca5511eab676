import Cuca.Postcard
import Cuca.Session.Stored

/-!
# The frames of a session file

A file opens with a header; behind it stands one frame for each record that was appended.

* `Format` : what is used of `postcard`, of its COBS flavor and of `serde_json`;
* `decodeFrames` : the records of a file;
* `decodeFrames_header`, `readFrames_append` : a file is read frame by frame, and the first bad frame spoils it.
-/

namespace Cuca.Session
open Postcard

/-- What is used of the encoders: a frame for each record, which is read from the front of any bytes, and the text of the
JSON values in it. -/
structure Format where
  numberText : Number → List Char
  fromStr : String → Option Value
  frame : StoredRecord String → Bytes
  /-- `postcard::take_from_bytes_cobs`; an error by its text. -/
  take : Bytes → Except String (StoredRecord String × Bytes)
  /-- The text of the error that stands for one of `serde_json`. -/
  customError : String
  take_frame : ∀ record rest, take (frame record ++ rest) = .ok (record, rest)
  take_consumes : ∀ {bytes record rest}, take bytes = .ok (record, rest) → rest.length < bytes.length

/-- The text `CUCASLOG`. -/
def fileMagic : Bytes := [67, 85, 67, 65, 83, 76, 79, 71]

def formatVersion : UInt8 := 1

def headerLen : Nat := fileMagic.length + 1

def header : Bytes := fileMagic ++ [formatVersion]

def invalid (message : String) : PluginError := .validation "cslog" message

def badFrame (path : String) (index : Nat) (e : String) : PluginError :=
  invalid s!"invalid record frame {index} in `{path}`: {e}"

namespace Format
variable (f : Format)

def encode (record : SessionRecord) : Bytes := f.frame ((StoredRecord.ofRecord record).serialize f.numberText)

/-- The loop of `decode_frames`, with what it has read. -/
def readFrames (path : String) (records : List SessionRecord) (rest : Bytes) :
    Except PluginError (List SessionRecord) :=
  if rest.isEmpty then .ok records
  else
    match h : f.take rest with
    | .error e => .error (badFrame path records.length e)
    | .ok (stored, tail) =>
      match stored.deserialize f.fromStr with
      | none => .error (badFrame path records.length f.customError)
      | some stored => readFrames path (records ++ [stored.toRecord]) tail
termination_by rest.length
decreasing_by exact f.take_consumes h

def decodeFrames (path : String) (bytes : Bytes) : Except PluginError (List SessionRecord) :=
  if bytes.length < headerLen then
    .error (invalid s!"`{path}` is {bytes.length} bytes, too short for a {headerLen}-byte header")
  else if bytes.take fileMagic.length ≠ fileMagic then
    .error (invalid s!"`{path}` does not start with the CUCASLOG magic")
  else
    let version := bytes.getD fileMagic.length 0
    if version ≠ formatVersion then
      .error (invalid s!"`{path}` has format version {version}; this build reads version {formatVersion}")
    else f.readFrames path [] (bytes.drop headerLen)

/-! ## Reading -/

theorem length_header : header.length = headerLen := rfl

theorem decodeFrames_header (path : String) (rest : Bytes) :
    f.decodeFrames path (header ++ rest) = f.readFrames path [] rest := by
  have hlength : ¬ (header ++ rest).length < headerLen := by
    rw [List.length_append]
    exact Nat.not_lt.mpr (Nat.le_add_right ..)
  have hmagic : (header ++ rest).take fileMagic.length = fileMagic := by
    rw [header, List.append_assoc, List.take_left]
  have hversion : (header ++ rest).getD fileMagic.length 0 = formatVersion := by rfl
  have hdrop : (header ++ rest).drop headerLen = rest := by
    rw [← length_header, List.drop_left]
  rw [decodeFrames, if_neg hlength, if_neg (not_not_intro hmagic)]
  dsimp only
  rw [hversion, if_neg (not_not_intro rfl), hdrop]

variable {f}

theorem header_append_ne_nil (rest : Bytes) : header ++ rest ≠ [] := List.cons_ne_nil _ _

theorem frame_ne_nil (record : StoredRecord String) : f.frame record ≠ [] := by
  intro hnil
  have htake := f.take_frame record []
  rw [hnil] at htake
  exact absurd (f.take_consumes htake) (Nat.lt_irrefl _)

theorem encode_ne_nil (record : SessionRecord) : f.encode record ≠ [] := frame_ne_nil _

theorem readFrames_nil (path : String) (records : List SessionRecord) : f.readFrames path records [] = .ok records := by
  rw [readFrames, if_pos List.isEmpty_nil]

theorem readFrames_encode (path : String) (records : List SessionRecord) (record : SessionRecord) (rest : Bytes) :
    f.readFrames path records (f.encode record ++ rest) =
      match readRecord f.numberText f.fromStr record with
      | none => .error (badFrame path records.length f.customError)
      | some record => f.readFrames path (records ++ [record]) rest := by
  have hnonempty : ¬ (f.encode record ++ rest).isEmpty := by
    rw [List.isEmpty_iff, List.append_eq_nil_iff, not_and]
    exact fun hnil => absurd hnil (encode_ne_nil record)
  have htake := f.take_frame ((StoredRecord.ofRecord record).serialize f.numberText) rest
  rw [readFrames, if_neg hnonempty]
  split
  case h_1 e herror =>
    exact nomatch htake.symm.trans herror
  case h_2 stored tail hok =>
    obtain ⟨rfl, rfl⟩ := Prod.mk.inj (Except.ok.inj (htake.symm.trans hok))
    unfold readRecord
    rcases StoredRecord.deserialize f.fromStr _ with _ | stored
    · rfl
    · rfl

/-- **The frames of records that can be read**: what is behind them is read on its own. -/
theorem readFrames_append (path : String) {records read : List SessionRecord}
    (h : List.Forall₂ (fun r r' => readRecord f.numberText f.fromStr r = some r') records read)
    (before : List SessionRecord) (rest : Bytes) :
    f.readFrames path before (records.flatMap f.encode ++ rest) = f.readFrames path (before ++ read) rest := by
  induction h generalizing before with
  | nil => rw [List.flatMap_nil, List.nil_append, List.append_nil]
  | @cons r r' records read hread _ ih =>
    rw [List.flatMap_cons, List.append_assoc, readFrames_encode, hread]
    dsimp only
    rw [ih, List.append_assoc, List.singleton_append]

theorem readFrames_cases (path : String) (records : List SessionRecord) (rest : Bytes) :
    (∃ more, f.readFrames path records rest = .ok (records ++ more) ∧ (rest ≠ [] → more ≠ [])) ∨
      ∃ index e, records.length ≤ index ∧ f.readFrames path records rest = .error (badFrame path index e) := by
  induction hlength : rest.length using Nat.strongRecOn generalizing records rest with
  | ind n ih =>
    rw [readFrames]
    split
    case isTrue hempty =>
      obtain rfl := List.isEmpty_iff.mp hempty
      exact .inl ⟨[], by rw [List.append_nil], fun hnonempty => absurd rfl hnonempty⟩
    case isFalse =>
      split
      case h_1 e _ => exact .inr ⟨_, e, Nat.le_refl _, rfl⟩
      case h_2 stored tail htake =>
        split
        case h_1 => exact .inr ⟨_, _, Nat.le_refl _, rfl⟩
        case h_2 stored' _ =>
          have hshorter := f.take_consumes htake
          rcases ih tail.length (hlength ▸ hshorter) (records ++ [stored'.toRecord]) tail rfl with
            ⟨more, hok, _⟩ | ⟨index, e, hindex, herror⟩
          · refine .inl ⟨stored'.toRecord :: more, ?_, fun _ => List.cons_ne_nil _ _⟩
            rw [hok, List.append_assoc, List.singleton_append]
          · rw [List.length_append] at hindex
            exact .inr ⟨index, e, by omega, herror⟩

end Format
end Cuca.Session
