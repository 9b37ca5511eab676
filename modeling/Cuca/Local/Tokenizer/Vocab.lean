import Cuca.Lib.Offsets
import Cuca.Types
import Mathlib.Data.List.GetD

/-!
# The vocabulary

Texts are their characters. The lookup of a text is what its table finds: the first id with that text.

* `Vocab`, `Vocab.new` : the texts and types of the tokens;
* `Vocab.get`, `Vocab.piece` : the id of a text and the text of an id;
* `byteText`, `parseByteToken` : the spelling of a byte token;
* `byteToChar`, `charToByte` : the character of a byte and the byte of a character;
* `charToByte_byteToChar` : every byte is read back.
-/

namespace Cuca.Local.Tokenizer

/-- `local_err` -/
def localErr (message : String) : CucaError := .provider .localModel message

def typeUndefined : Int := 0
def typeNormal : Int := 1
def typeUnknown : Int := 2
def typeControl : Int := 3
def typeUserDefined : Int := 4
def typeUnused : Int := 5
def typeByte : Int := 6

def utf8 (text : List Char) : List UInt8 := text.flatMap String.utf8EncodeChar

theorem length_utf8 (s : List Char) : (utf8 s).length = Offsets.size s := by
  rw [utf8, List.length_flatMap, Offsets.size]
  simp only [String.length_utf8EncodeChar]

def hexDigit (n : Nat) : Char := "0123456789ABCDEF".toList.getD n '0'

/-- `<0xHH>` -/
def byteText (byte : UInt8) : List Char :=
  "<0x".toList ++ [hexDigit (byte.toNat / 16), hexDigit (byte.toNat % 16)] ++ ">".toList

def hexValue (c : Char) : Option Nat :=
  if '0' ≤ c && c ≤ '9' then some (c.toNat - '0'.toNat)
  else if 'a' ≤ c && c ≤ 'f' then some (c.toNat - 'a'.toNat + 10)
  else if 'A' ≤ c && c ≤ 'F' then some (c.toNat - 'A'.toNat + 10)
  else none

/-- The byte of a `<0xHH>` text; a sign before one digit is read as well. -/
def parseByteToken (text : List Char) : Option UInt8 :=
  match text with
  | ['<', '0', 'x', high, low, '>'] =>
    if high = '+' then (hexValue low).map UInt8.ofNat
    else (hexValue high).bind fun h => (hexValue low).map fun l => UInt8.ofNat (16 * h + l)
  | _ => none

/-- The texts of the tokens and their types. -/
structure Vocab where
  pieces : List (List Char)
  types : List Int

namespace Vocab

def new (pieces : List (List Char)) (types : List Int) : Except CucaError Vocab :=
  if pieces.length ≠ types.length then
    let tokens := pieces.length
    let given := types.length
    .error (localErr s!"tokenizer has {tokens} tokens but {given} token types")
  else if (pieces.map fun piece => (utf8 piece).length).sum > 2 ^ 32 - 1 || pieces.length ≥ 2 ^ 32 - 1 then
    .error (localErr "tokenizer vocabulary is too large")
  else .ok ⟨pieces, types⟩

variable (v : Vocab)

def len : Nat := v.types.length

def piece (id : Nat) : List Char := v.pieces.getD id []

def tokenType (id : Nat) : Option Int := v.types[id]?

def get (text : List Char) : Option Nat := if text.isEmpty then none else v.pieces.findIdx? (· == text)

def byteToken (byte : UInt8) : Option Nat := v.get (byteText byte)

def pushByteTokens (text : List Char) : List Nat := (utf8 text).filterMap v.byteToken

def isControl (id : Nat) : Bool := v.tokenType id == some typeControl || v.tokenType id == some typeUnknown

variable {v}

theorem piece_of_get {text : List Char} {id : Nat} (h : v.get text = some id) : v.piece id = text ∧ text ≠ [] := by
  rw [get] at h
  split at h
  · exact nomatch h
  · rename_i hempty
    obtain ⟨hlt, hpiece, -⟩ := List.findIdx?_eq_some_iff_getElem.mp h
    refine ⟨?_, fun hnil => hempty (List.isEmpty_iff.mpr hnil)⟩
    rw [piece, List.getD_eq_getElem _ _ hlt]
    exact eq_of_beq hpiece

end Vocab

/-! ## The alphabet of byte-level pieces

Byte-level vocabularies spell each byte as one printable character. Most bytes are their own character; the others are those from
U+0100 on, in order.
-/

def isIdentityByte (b : UInt8) : Bool := (0x21 ≤ b && b ≤ 0x7e) || (0xa1 ≤ b && b ≤ 0xac) || 0xae ≤ b

/-- `REMAPPED_BYTES` -/
def remappedBytes : List UInt8 := ((List.range 256).map UInt8.ofNat).filter fun b => !isIdentityByte b

/-- `BYTE_TO_CHAR` -/
def byteToChar (b : UInt8) : Char := if isIdentityByte b then Char.ofNat b.toNat else Char.ofNat (256 + remappedBytes.idxOf b)

def charToByte (c : Char) : Option UInt8 :=
  if c.toNat < 256 then if isIdentityByte (UInt8.ofNat c.toNat) then some (UInt8.ofNat c.toNat) else none
  else remappedBytes[c.toNat - 256]?

theorem length_remappedBytes : remappedBytes.length = 68 := by decide

theorem mem_remappedBytes {b : UInt8} (h : isIdentityByte b = false) : b ∈ remappedBytes := by
  refine List.mem_filter.mpr ⟨List.mem_map.mpr ⟨b.toNat, List.mem_range.mpr b.toNat_lt, UInt8.ofNat_toNat⟩, ?_⟩
  rw [h]
  rfl

theorem toNat_ofNat {n : Nat} (h : n < 0xd800) : (Char.ofNat n).toNat = n := by
  rw [Char.ofNat, dif_pos (.inl h)]
  rfl

theorem charToByte_byteToChar (b : UInt8) : charToByte (byteToChar b) = some b := by
  have hbyte : b.toNat < 256 := b.toNat_lt
  rcases hidentity : isIdentityByte b with _ | _
  · have hlt := List.idxOf_lt_length_of_mem (mem_remappedBytes hidentity)
    rw [length_remappedBytes] at hlt
    rw [byteToChar, if_neg (by simp [hidentity]), charToByte, toNat_ofNat (by omega), if_neg (by omega), Nat.add_sub_cancel_left]
    exact List.getElem?_idxOf (mem_remappedBytes hidentity)
  · rw [byteToChar, if_pos hidentity, charToByte, toNat_ofNat (by omega), if_pos hbyte, UInt8.ofNat_toNat, if_pos hidentity]

end Cuca.Local.Tokenizer
