import Cuca.Lib.Markers
import Cuca.Local.Tokenizer.Bpe
import Cuca.Local.Tokenizer.Pretok
import Cuca.Local.Tokenizer.Spm
import Mathlib.Data.List.DropRight
import Mathlib.Data.List.Sort

/-!
# Tokenizers

A tokenizer cuts the special tokens out of a text, and encodes each fragment that is left in its scheme.

* `Tokenizer.new` : a tokenizer from the values of its metadata;
* `partitionSpecials` : a text around its special tokens, the longest first;
* `encode`, `decodeInto` : the ids of a text and the bytes of an id.
-/

namespace Cuca.Local
open Tokenizer Tokenizer.Bpe Tokenizer.Pretok WorkQueue

/-- How a BPE vocabulary turns text into words. -/
inductive Tokenizer.Words where
  | byte (pre : Pretokenizer)
  | escaped

inductive Tokenizer.Engine (K : Type) where
  | spm (scores : List K) (addSpacePrefix : Bool)
  | bpe (merges : Merges) (words : Words)

inductive Tokenizer.Fragment where
  | raw (text : List Char)
  | special (id : Nat)
  deriving DecidableEq, Repr

/-- A special token, and whether whitespace before it and after it is dropped. -/
structure Tokenizer.Special where
  id : Nat
  lstrip : Bool
  rstrip : Bool
  deriving DecidableEq, Repr

structure Tokenizer (K : Type) where
  vocab : Vocab
  engine : Tokenizer.Engine K
  /-- The longest first. -/
  specials : List Tokenizer.Special

/-- What a model's metadata selects, with the values the scheme reads. -/
inductive Tokenizer.Kind (K : Type) where
  | spm (scores : List K) (addSpacePrefix : Bool)
  | byte (pre : Pretokenizer) (rules : List (List Char))
  | escaped (rules : List (List Char))

/-- The two heaps of the merging loops. -/
structure Tokenizer.Heaps (K : Type) [LT K] where
  candidates : PopRule Candidate Candidate.le
  bigrams : PopRule (Spm.Bigram K) Spm.Bigram.le

namespace Tokenizer
variable {K : Type}

def isCSpace (c : Char) : Bool := c == ' ' || ('\t' ≤ c && c ≤ '\r')

def escape (c : Char) : Char := if c = ' ' then Spm.spaceMark else c

/-! ## Construction -/

def specialTypes : List Int := [typeControl, typeUserDefined, typeUnknown]

def assemble (vocab : Vocab) (engine : Engine K) (rstripSpecials : Bool) : Tokenizer K :=
  let ids := (List.range vocab.len).filter fun id => !(vocab.piece id).isEmpty && (vocab.tokenType id).any (· ∈ specialTypes)
  let specials := ids.map fun id =>
    { id
      lstrip := false
      rstrip := rstripSpecials && vocab.piece id ∉ ["<unk>".toList, "<s>".toList, "<|endoftext|>".toList] }
  let length (special : Special) := (utf8 (vocab.piece special.id)).length
  { vocab
    engine
    specials := specials.mergeSort fun a b => length b < length a || (length a == length b && a.id ≤ b.id) }

/-- `from_gguf`, from the values that were read on. -/
def new (pieces : List (List Char)) (types : List Int) (kind : Kind K) (rstripSpecials : Bool) : Except CucaError (Tokenizer K) := do
  let vocab ← Vocab.new pieces types
  let engine ← match kind with
    | .spm scores addSpacePrefix =>
      let count := scores.length
      let n := pieces.length
      if count < n then .error (localErr s!"GGUF `tokenizer.ggml.scores` has {count} entries for {n} tokens")
      else .ok (.spm (scores.take n) addSpacePrefix)
    | .byte pre rules => (Merges.new vocab rules false).map fun merges => .bpe merges (.byte pre)
    | .escaped rules => (Merges.new vocab rules true).map fun merges => .bpe merges .escaped
  return assemble vocab engine rstripSpecials

/-! ## Special tokens -/

/-- The prefilter: the first byte occurs in the text, and so do the first two. -/
def mayOccur (bytes special : List UInt8) : Bool :=
  match special with
  | [] => false
  | [lead] => lead ∈ bytes
  | lead :: second :: _ => lead ∈ bytes && (lead, second) ∈ bytes.zip bytes.tail

def rawOf (text : List Char) : List Fragment := if text.isEmpty then [] else [.raw text]

/-- The text around each occurrence of a special token, whose spelling is not empty. -/
def cut (special : Special) (lead : Char) (tail rest : List Char) : List Fragment :=
  match h : Markers.find (lead :: tail) rest with
  | none => rawOf rest
  | some pos =>
    let left := if special.lstrip then (rest.take pos).rdropWhile isCSpace else rest.take pos
    let after := rest.drop (pos + (lead :: tail).length)
    rawOf left ++ .special special.id :: cut special lead tail (if special.rstrip then after.dropWhile isCSpace else after)
termination_by rest.length
decreasing_by
  have hat := (Markers.find_eq_some_iff.mp h).1.length_le
  have hafter : (rest.drop (pos + (lead :: tail).length)).length < rest.length := by
    rw [List.length_drop]
    simp only [List.length_cons] at hat ⊢
    omega
  split
  · exact Nat.lt_of_le_of_lt (List.dropWhile_suffix _).length_le hafter
  · exact hafter

/-- One special token, cut out of each fragment that is still raw. -/
def cutAll (vocab : Vocab) (bytes : List UInt8) (fragments : List Fragment) (special : Special) : List Fragment :=
  match vocab.piece special.id with
  | [] => fragments
  | lead :: tail =>
    let occurs : Fragment → Bool
      | .raw raw => (Markers.find (lead :: tail) raw).isSome
      | .special _ => false
    if !mayOccur bytes (utf8 (lead :: tail)) then fragments
    else if !fragments.any occurs then fragments
    else fragments.flatMap fun
      | .raw rest => cut special lead tail rest
      | .special id => [.special id]

def partitionSpecials (t : Tokenizer K) (text : List Char) : List Fragment :=
  if text.isEmpty then [] else t.specials.foldl (cutAll t.vocab (utf8 text)) [.raw text]

/-! ## Encoding -/

/-- Line breaks and what is between them. -/
def newlineRuns : List Char → List (List Char)
  | [] => []
  | first :: rest =>
    (first :: rest.takeWhile fun c => (c == '\n') == (first == '\n')) ::
      newlineRuns (rest.dropWhile fun c => (c == '\n') == (first == '\n'))
termination_by text => text.length
decreasing_by exact Nat.lt_succ_of_le (List.dropWhile_suffix _).length_le

def Spm.fragmentText (addSpacePrefix afterSpecial : Bool) (raw : List Char) : List Char :=
  if addSpacePrefix && afterSpecial then Spm.spaceMark :: raw.map escape else raw.map escape

def Spm.encodeFragment [LT K] (scores : List K) (addSpacePrefix : Bool) (vocab : Vocab) (heap : PopRule (Spm.Bigram K) Spm.Bigram.le)
    (raw : List Char) (afterSpecial : Bool) : List Nat :=
  Spm.tokenize scores vocab (Spm.fragmentText addSpacePrefix afterSpecial raw) heap

section
variable [LT K] (heaps : Heaps K) (u : Unicode)

/-- The ids of a word that is a token already when it is looked up, else those of merging it. -/
def wordIds (merges : Merges) (vocab : Vocab) (unknown : Unknown) (lookedUp : Bool) (word : List Char) : List Nat :=
  match if lookedUp then vocab.get word else none with
  | some id => [id]
  | none => mergeWord merges vocab heaps.candidates unknown word

/-- The ids of a fragment without special tokens. -/
def encodeRaw (t : Tokenizer K) (raw : List Char) (afterSpecial : Bool) : List Nat :=
  match t.engine with
  | .spm scores addSpacePrefix => Spm.encodeFragment scores addSpacePrefix t.vocab heaps.bigrams raw afterSpecial
  | .bpe merges (.byte pre) =>
    (pre.split u raw).flatMap fun word => wordIds heaps merges t.vocab .drop pre.ignoreMerges ((utf8 word).map byteToChar)
  | .bpe merges .escaped =>
    (newlineRuns (raw.map escape)).flatMap fun word =>
      wordIds heaps merges t.vocab .byteTokens (word.head? == some '\n') word

def encodeFragments (t : Tokenizer K) (afterSpecial : Bool) : List Fragment → List Nat
  | [] => []
  | .special id :: fragments => id :: encodeFragments t true fragments
  | .raw raw :: fragments => encodeRaw heaps u t raw afterSpecial ++ encodeFragments t false fragments

def encode (t : Tokenizer K) (text : List Char) : List Nat := encodeFragments heaps u t true (t.partitionSpecials text)

end

/-! ## Decoding -/

/-- The bytes of one character of a normal piece. -/
def Engine.renderChar (engine : Engine K) (c : Char) : List UInt8 :=
  match engine with
  | .bpe _ (.byte _) =>
    match charToByte c with
    | some byte => [byte]
    | none => String.utf8EncodeChar c
  | _ => if c = Spm.spaceMark then [0x20] else String.utf8EncodeChar c

def plainTypes : List Int := [typeNormal, typeUnused, typeUndefined]

/-- The bytes an id renders to. -/
def decodeInto (t : Tokenizer K) (id : Nat) : List UInt8 :=
  match t.vocab.tokenType id with
  | none => []
  | some type =>
    if type ∈ plainTypes then (t.vocab.piece id).flatMap t.engine.renderChar
    else if type = typeByte then (parseByteToken (t.vocab.piece id)).toList
    else if type = typeUserDefined then utf8 (t.vocab.piece id)
    else []

end Tokenizer

end Cuca.Local
