import Cuca.Local.Tokenizer.Patterns
import Cuca.Local.Tokenizer.Vocab

/-!
# Pre-tokenizers on bytes

The scanners read a text at byte offsets and answer byte offsets. A slice that does not begin and end at characters panics:
where a function takes one it gives `none`.

* `Pre.fromName` : the chains of stages;
* `splitPiece`, `splitStage`, `split` : the ranges of the words of a text;
* `matchAt_at`, `split_eq` : they are the ranges of the words that are counted in characters;
* `split_tiles_and_cuts` : they tile the text, and each stage cuts where its regular expression does.
-/

namespace Cuca.Local.Tokenizer.Pretok.Bytes
open Offsets

/-! ## The chains -/

def llama3 : WordRule := ⟨true, 3, false, false⟩
def qwen2 : WordRule := { llama3 with maxDigits := 1 }
def qwen35 : WordRule := { qwen2 with marksAreLetters := true }
def gpt4o : WordRule := ⟨false, 3, false, true⟩

def defaultStages : List Stage := [.punctRun, .gpt2, .digitRun, .threeAsciiDigits]
def gpt2Stages : List Stage := [.gpt2]
def starcoderStages : List Stage := [.digit, .gpt2]
def llama3Stages : List Stage := [.word llama3]
def qwen2Stages : List Stage := [.word qwen2]
def qwen35Stages : List Stage := [.word qwen35]
def gpt4oStages : List Stage := [.word gpt4o]

/-- What a `tokenizer.ggml.pre` selects. -/
inductive Pre where
  | words (pre : Pretokenizer)
  | gemma4
  deriving DecidableEq, Repr

def Pre.fromName (name : Option String) : Option Pre :=
  let words (stages : List Stage) (ignoreMerges addBos : Bool) := some (Pre.words ⟨stages, ignoreMerges, addBos⟩)
  let name := name.getD "default"
  if name = "default" then words defaultStages false false
  else if name ∈ ["llama3", "llama-v3", "llama-bpe", "falcon3", "falcon-h1", "pixtral", "midm-2.0", "lfm2",
    "jina-v5-nano"] then words llama3Stages true true
  else if name ∈ ["smaug-bpe", "dbrx"] then words llama3Stages false false
  else if name ∈ ["qwen2", "deepseek-r1-qwen", "kormo", "f2llmv2", "megrez", "stablelm2", "hunyuan", "solar-open"] then
    words qwen2Stages false false
  else if name = "qwen35" then words qwen35Stages false false
  else if name ∈ ["gpt-2", "phi-2", "jina-es", "jina-de", "gigachat", "jina-v2-es", "jina-v2-de", "a.x-4.0", "mellum",
    "modern-bert", "mpt", "olmo", "jais", "trillion", "granite-docling", "exaone4"] then words gpt2Stages false false
  else if name ∈ ["starcoder", "refact", "command-r", "smollm", "codeshell", "exaone", "minerva-7b", "mellum2"] then
    words starcoderStages false false
  else if name ∈ ["gpt-4o", "llama4", "kanana2", "talkie", "minimax-m2"] then words gpt4oStages false false
  else if name = "gemma4" then some .gemma4
  else none

/-! ## Reading at an offset -/

def charAt (s : List Char) (pos : Nat) : Option Char := (fromOffset s pos).bind List.head?

def charLenAt (s : List Char) (pos : Nat) : Nat := ((charAt s pos).map Char.utf8Size).getD 1

def runEnd (s : List Char) (pos : Nat) (pred : Char → Bool) : Option Nat :=
  (fromOffset s pos).map fun rest => pos + size (rest.takeWhile pred)

def toAsciiLowercase (b : UInt8) : UInt8 := if 0x41 ≤ b && b ≤ 0x5A then b + 0x20 else b

def isAsciiDigit (b : UInt8) : Bool := 0x30 ≤ b && b ≤ 0x39

def contraction (s : List Char) (pos : Nat) (caseInsensitive : Bool) : Option Nat :=
  let bytes := utf8 s
  let fold (b : UInt8) := if caseInsensitive then toAsciiLowercase b else b
  if bytes[pos]? ≠ some 0x27 then none
  else do
    let first := fold (← bytes[pos + 1]?)
    if first ∈ [0x73, 0x74, 0x6D, 0x64] then return pos + 2
    let second := fold (← bytes[pos + 2]?)
    if [(0x72, 0x65), (0x76, 0x65), (0x6C, 0x6C)].contains (first, second) then some (pos + 3) else none

section
variable (u : Unicode)

def whitespaceRun (s : List Char) (pos : Nat) : Option WhitespaceRun :=
  (fromOffset s pos).map fun rest => (rest.takeWhile (isSpace u)).foldl (fun run c =>
    { stop := run.stop + c.utf8Size
      lastStart := run.stop
      lastNewlineEnd := if c = '\r' ∨ c = '\n' then some (run.stop + c.utf8Size) else run.lastNewlineEnd }) ⟨pos, pos, none⟩

def gpt2At (s : List Char) (pos : Nat) (c : Char) : Option (Option Nat) := do
  match if c = '\'' then contraction s pos false else none with
  | some stop => return some stop
  | none =>
    let body := if c = ' ' then pos + 1 else pos
    if let some d := charAt s body then
      if isLetter u d then return some (← runEnd s body (isLetter u))
      if isNumber u d then return some (← runEnd s body (isNumber u))
      if !isSpace u d then return some (← runEnd s body fun x => !isSpace u x && !isLetter u x && !isNumber u x)
    if isSpace u c then
      let run ← whitespaceRun u s pos
      if run.stop = size s then return some run.stop
      if run.lastStart > pos then return some run.lastStart
    return none

def letterWord (rule : WordRule) (s : List Char) (pos : Nat) (c : Char) : Option (Option Nat) := do
  let letter (x : Char) := isLetter u x || (rule.marksAreLetters && isMark u x)
  if isWordPrefix u c then
    let next := pos + c.utf8Size
    if (charAt s next).any letter then return some (← runEnd s next letter)
  if letter c then return some (← runEnd s pos letter)
  return none

def caseBody (s : List Char) (start : Nat) (lowerTail : Bool) : Option (Option Nat) :=
  match fromOffset s start with
  | none => some none
  | some rest => do
    let (upperEnd, lastNeutral) := (rest.takeWhile (isUpperClass u)).foldl (fun (acc : Nat × Option Nat) c =>
      (acc.1 + c.utf8Size, if isLowerClass u c then some (acc.1 + c.utf8Size) else acc.2)) (start, none)
    let stop ←
      if lowerTail then
        if (charAt s upperEnd).any (isLowerClass u) then (runEnd s upperEnd (isLowerClass u)).map some
        else some lastNeutral
      else if upperEnd = start then some none
      else (runEnd s upperEnd (isLowerClass u)).map some
    return stop.map fun stop => (contraction s stop true).getD stop

/-- With the character before it, else without. -/
def caseWord (s : List Char) (pos : Nat) (c : Char) (lowerTail : Bool) : Option (Option Nat) := do
  match ← if isWordPrefix u c then caseBody u s (pos + c.utf8Size) lowerTail else some none with
  | some stop => return some stop
  | none => caseBody u s pos lowerTail

def caseSplitWord (s : List Char) (pos : Nat) (c : Char) : Option (Option Nat) :=
  [true, false].findSomeM? (caseWord u s pos c)

def wordAt (rule : WordRule) (s : List Char) (pos : Nat) (c : Char) : Option (Option Nat) := do
  match if rule.standaloneContractions && c = '\'' then contraction s pos true else none with
  | some stop => return some stop
  | none =>
    match ← (if rule.caseSplit then caseSplitWord u s pos c else letterWord u rule s pos c) with
    | some stop => return some stop
    | none =>
      if isNumber u c then
        return some (pos + size (((← fromOffset s pos).take rule.maxDigits).takeWhile (isNumber u)))
      let punct (x : Char) := !isSpace u x && !isLetter u x && !isNumber u x && !(rule.marksAreLetters && isMark u x)
      let body := if c = ' ' then pos + 1 else pos
      if (charAt s body).any punct then
        let tail (x : Char) := x == '\r' || x == '\n' || (rule.caseSplit && x == '/')
        return some (← runEnd s (← runEnd s body punct) tail)
      if !isSpace u c then return none
      let run ← whitespaceRun u s pos
      match run.lastNewlineEnd with
      | some stop => return some stop
      | none => return some (if run.stop = size s ∨ run.lastStart = pos then run.stop else run.lastStart)

/-- The end of what the stage's pattern matches at an offset. -/
def matchAt (stage : Stage) (s : List Char) (pos : Nat) : Option (Option Nat) :=
  match charAt s pos with
  | none => some none
  | some c =>
    match stage with
    | .digit => some (if isNumber u c then some (pos + c.utf8Size) else none)
    | .digitRun => if isNumber u c then (runEnd s pos (isNumber u)).map some else some none
    | .threeAsciiDigits =>
      let bytes := ((utf8 s).drop pos).take 3
      some (if bytes.length = 3 ∧ bytes.all isAsciiDigit then some (pos + 3) else none)
    | .punctRun => if isPunctRunChar u c then (runEnd s pos (isPunctRunChar u)).map some else some none
    | .gpt2 => gpt2At u s pos c
    | .word rule => wordAt u rule s pos c

/-! ## Splitting -/

def closeGap (base : Nat) (gapStart : Option Nat) (pos : Nat) : List Range :=
  (gapStart.map fun start => ⟨base + start, base + pos⟩).toList

theorem charLenAt_pos (s : List Char) (pos : Nat) : 0 < charLenAt s pos := by
  rw [charLenAt]
  rcases charAt s pos with _ | c
  · exact Nat.one_pos
  · exact c.utf8Size_pos

/-- The matches and the gaps of a fragment, from an offset on, with a gap that is open. -/
def splitPiece (stage : Stage) (piece : List Char) (base : Nat) (gapStart : Option Nat) (pos : Nat) : Option (List Range) :=
  if pos < size piece then
    match matchAt u stage piece pos with
    | none => none
    | some found =>
      -- an empty match is none
      let stop := found.getD pos
      if pos < stop then do
        let rest ← splitPiece stage piece base none stop
        return closeGap base gapStart pos ++ ⟨base + pos, base + stop⟩ :: rest
      else splitPiece stage piece base (gapStart.or (some pos)) (pos + charLenAt piece pos)
  else some (closeGap base gapStart (size piece))
termination_by size piece - pos
decreasing_by
  · omega
  · have hlen := charLenAt_pos piece pos
    omega

def splitFragment (stage : Stage) (text : List Char) (fragment : Range) : Option (List Range) := do
  splitPiece u stage (← slice text fragment) fragment.start none 0

def splitStage (stage : Stage) (text : List Char) (input : List Range) : Option (List Range) :=
  (input.mapM (splitFragment u stage text)).map List.flatten

def split (pre : Pretokenizer) (text : List Char) : Option (List Range) :=
  if text.isEmpty then some [] else pre.stages.foldlM (fun out stage => splitStage u stage text out) [⟨0, size text⟩]

end

/-! ## Characters and bytes -/

theorem utf8_append (a b : List Char) : utf8 (a ++ b) = utf8 a ++ utf8 b := List.flatMap_append

theorem utf8_cons (c : Char) (s : List Char) :
    (c.toNat < 128 ∧ utf8 (c :: s) = UInt8.ofNat c.toNat :: utf8 s) ∨
      (¬ c.toNat < 128 ∧ ∃ b bytes, utf8 (c :: s) = b :: bytes ∧ 0x80 ≤ b) := by
  have hlead {n : Nat} (hge : 0x80 ≤ n) (hlt : n < 256) : (0x80 : UInt8) ≤ UInt8.ofNat n := by
    rw [UInt8.le_iff_toNat_le, UInt8.toNat_ofNat_of_lt' hlt]
    exact hge
  rw [utf8, List.flatMap_cons]
  change _ ∨ (¬ c.val.toNat < 128 ∧ _)
  rw [String.utf8EncodeChar]
  split
  case isTrue h => exact .inl ⟨Nat.lt_succ_of_le h, rfl⟩
  case isFalse h =>
    refine .inr ⟨fun hlt => h (Nat.le_of_lt_succ hlt), ?_⟩
    split
    · exact ⟨_, _, rfl, hlead (by omega) (by omega)⟩
    · split
      · exact ⟨_, _, rfl, hlead (by omega) (by omega)⟩
      · exact ⟨_, _, rfl, hlead (by omega) (by omega)⟩

theorem toAsciiLowercase_byte {c : Char} (h : c.toNat < 128) :
    toAsciiLowercase (UInt8.ofNat c.toNat) = UInt8.ofNat c.toLower.toNat ∧ c.toLower.toNat < 128 := by
  have hall : ∀ n < 128, toAsciiLowercase (UInt8.ofNat n) = UInt8.ofNat (Char.ofNat n).toLower.toNat ∧
      (Char.ofNat n).toLower.toNat < 128 := by decide +kernel
  have hc := hall c.toNat h
  rwa [Char.ofNat_toNat] at hc

theorem toAsciiLowercase_of_le {b : UInt8} (h : 0x80 ≤ b) : toAsciiLowercase b = b := by
  rw [toAsciiLowercase, if_neg]
  rw [UInt8.le_iff_toNat_le] at h
  simp only [Bool.and_eq_true, decide_eq_true_eq, UInt8.le_iff_toNat_le]
  change 128 ≤ b.toNat at h
  change ¬ (65 ≤ b.toNat ∧ b.toNat ≤ 90)
  omega

theorem toLower_of_le {c : Char} (h : ¬ c.toNat < 128) : c.toLower = c := by
  have hupper : ¬ (65 ≤ c.val.toNat ∧ c.val.toNat ≤ 90) := by
    change ¬ c.val.toNat < 128 at h
    omega
  exact dif_neg hupper

theorem utf8_at {text s : List Char} {pos : Nat} (h : At text pos s) (k : Nat) : (utf8 text)[pos + k]? = (utf8 s)[k]? := by
  obtain ⟨before, rfl, rfl⟩ := h
  rw [utf8_append, ← length_utf8, List.getElem?_append_right (Nat.le_add_right ..), Nat.add_sub_cancel_left]

theorem utf8_drop {text s : List Char} {pos : Nat} (h : At text pos s) : (utf8 text).drop pos = utf8 s := by
  obtain ⟨before, rfl, rfl⟩ := h
  rw [utf8_append, ← length_utf8, List.drop_left]

/-! ## The scanners at an offset -/

def shift (pos : Nat) (s : List Char) (n : Nat) : Nat := pos + size (s.take n)

section
variable {u : Unicode} {text s : List Char} {pos n : Nat} {c : Char}

theorem at_shift (h : At text pos s) (n : Nat) : At text (shift pos s n) (s.drop n) := h.drop n

theorem shift_add (m : Nat) : shift (shift pos s m) (s.drop m) n = shift pos s (m + n) := by
  rw [shift, shift, shift, List.take_add, size_append, Nat.add_assoc]

theorem shift_cons : shift (pos + c.utf8Size) s n = shift pos (c :: s) (1 + n) := by
  rw [Nat.add_comm 1, shift, shift, List.take_succ_cons, size_cons, Nat.add_assoc]

theorem shift_eq_size_iff (h : At text pos s) (hn : n ≤ s.length) : shift pos s n = size text ↔ n = s.length := by
  rw [← h.size_eq, shift, Nat.add_left_cancel_iff, size_take_eq_iff hn]

theorem lt_shift_iff : pos < shift pos (c :: s) n ↔ 0 < n := by
  rw [shift, Nat.lt_add_right_iff_pos, size_take_pos_iff (List.cons_ne_nil c s)]

theorem shift_eq_iff : shift pos (c :: s) n = pos ↔ n = 0 := by
  have hlt : pos < shift pos (c :: s) n ↔ 0 < n := lt_shift_iff
  have hle : pos ≤ shift pos (c :: s) n := Nat.le_add_right ..
  omega

theorem charAt_at (h : At text pos s) : charAt text pos = s.head? := by
  rw [charAt, h.fromOffset, Option.bind_some]

theorem take_takeWhile (p : Char → Bool) (s : List Char) : s.take (s.takeWhile p).length = s.takeWhile p :=
  (List.prefix_iff_eq_take.mp (List.takeWhile_prefix p)).symm

theorem runEnd_at (h : At text pos s) (p : Char → Bool) : runEnd text pos p = some (shift pos s (Pretok.runEnd s p)) := by
  rw [runEnd, h.fromOffset, Option.map_some, shift, Pretok.runEnd, take_takeWhile]

theorem shift_succ {xs : List Char} (h : xs ++ [c] <+: s) : shift pos s (xs.length + 1) = shift pos s xs.length + c.utf8Size := by
  obtain ⟨rest, rfl⟩ := h
  have hall : (xs ++ [c] ++ rest).take (xs.length + 1) = xs ++ [c] := by
    rw [List.take_append_of_le_length (by simp), List.take_of_length_le (by simp)]
  have hinit : (xs ++ [c] ++ rest).take xs.length = xs := by
    rw [List.append_assoc, List.take_left]
  rw [shift, shift, hall, hinit, size_append, size_cons, size_nil, Nat.add_zero, Nat.add_assoc]

def shiftRun (pos : Nat) (s : List Char) (run : WhitespaceRun) : WhitespaceRun :=
  ⟨shift pos s run.stop, shift pos s run.lastStart, run.lastNewlineEnd.map (shift pos s)⟩

theorem whitespaceRun_at (h : At text pos s) :
    whitespaceRun u text pos = some (shiftRun pos s (Pretok.whitespaceRun u s)) := by
  rw [whitespaceRun, h.fromOffset, Option.map_some, Pretok.whitespaceRun]
  apply congrArg some
  have hstart := List.takeWhile_prefix (isSpace u) (l := s)
  generalize s.takeWhile (isSpace u) = xs at hstart
  induction xs using List.reverseRecOn with
  | nil => rfl
  | append_singleton xs c ih =>
    have hbefore := ih ((List.prefix_append xs [c]).trans hstart)
    have hlength := congrArg WhitespaceRun.stop (foldl_whitespace xs)
    rw [List.foldl_concat, List.foldl_concat, hbefore]
    simp only [shiftRun] at hlength ⊢
    rw [hlength, shift_succ hstart]
    split
    · simp [shift_succ hstart]
    · rfl

/-! ## Contractions -/

def foldByte (caseInsensitive : Bool) (b : UInt8) : UInt8 := if caseInsensitive then toAsciiLowercase b else b

theorem foldByte_byte (ci : Bool) (h : c.toNat < 128) :
    foldByte ci (UInt8.ofNat c.toNat) = UInt8.ofNat (folded ci c).toNat ∧ (folded ci c).toNat < 128 := by
  cases ci with
  | true => exact toAsciiLowercase_byte h
  | false => exact ⟨rfl, h⟩

theorem foldByte_of_le (ci : Bool) {b : UInt8} (h : 0x80 ≤ b) : foldByte ci b = b := by
  cases ci with
  | true => exact toAsciiLowercase_of_le h
  | false => rfl

theorem folded_of_le (ci : Bool) (h : ¬ c.toNat < 128) : folded ci c = c := by
  cases ci with
  | true => exact toLower_of_le h
  | false => rfl

theorem toNat_ofNat : ∀ n < 128, (Char.ofNat n).toNat = n := by decide

theorem byte_eq_iff {b : UInt8} (hb : b.toNat < 128) (h : c.toNat < 128) : UInt8.ofNat c.toNat = b ↔ c = Char.ofNat b.toNat := by
  constructor
  · rintro rfl
    rw [UInt8.toNat_ofNat_of_lt' (Nat.lt_trans h (by decide)), Char.ofNat_toNat]
  · rintro rfl
    rw [toNat_ofNat _ hb, UInt8.ofNat_toNat]

theorem fold_head_eq_iff (ci : Bool) {b : UInt8} (hb : b.toNat < 128) :
    ((utf8 s)[0]?.map (foldByte ci) = some b) ↔ s.head?.map (folded ci) = some (Char.ofNat b.toNat) := by
  rcases s with _ | ⟨c, s⟩
  · exact ⟨fun h => absurd h (by simp [utf8]), fun h => absurd h (by simp)⟩
  · rw [List.head?_cons, Option.map_some, Option.some_inj]
    rcases utf8_cons c s with ⟨hascii, hbytes⟩ | ⟨hother, lead, bytes, hbytes, hlead⟩
    · obtain ⟨hfold, hlt⟩ := foldByte_byte ci hascii
      rw [hbytes, List.getElem?_cons_zero, Option.map_some, Option.some_inj, hfold, byte_eq_iff hb hlt]
    · rw [hbytes, List.getElem?_cons_zero, Option.map_some, Option.some_inj, foldByte_of_le ci hlead, folded_of_le ci hother]
      constructor
      · rintro rfl
        rw [UInt8.le_iff_toNat_le] at hlead
        exact absurd hb (Nat.not_lt.mpr hlead)
      · rintro rfl
        apply absurd _ hother
        rwa [toNat_ofNat _ hb]

theorem utf8_succ (h : c.toNat < 128) (k : Nat) : (utf8 (c :: s))[k + 1]? = (utf8 s)[k]? := by
  rcases utf8_cons c s with ⟨hascii, hbytes⟩ | ⟨hother, -⟩
  · rw [hbytes, List.getElem?_cons_succ]
  · exact absurd h hother

theorem utf8Size_of_lt (h : c.toNat < 128) : c.utf8Size = 1 := Char.utf8Size_eq_one_iff.mpr (UInt32.le_iff_toNat_le.mpr (Nat.le_of_lt_succ h))

theorem foldByte_eq_iff (ci : Bool) {a : Char} {first b : UInt8} (hfirst : (utf8 (a :: s))[0]? = some first) (hb : b.toNat < 128) :
    foldByte ci first = b ↔ folded ci a = Char.ofNat b.toNat := by
  have h := fold_head_eq_iff (s := a :: s) ci hb
  rwa [hfirst, Option.map_some, Option.some_inj, List.head?_cons, Option.map_some, Option.some_inj] at h

theorem utf8_head (c : Char) (s : List Char) : ∃ lead, (utf8 (c :: s))[0]? = some lead := by
  rcases utf8_cons c s with ⟨-, hbytes⟩ | ⟨-, lead, bytes, hbytes, -⟩
  · exact ⟨_, by rw [hbytes, List.getElem?_cons_zero]⟩
  · exact ⟨lead, by rw [hbytes, List.getElem?_cons_zero]⟩

theorem ascii_of_folded (ci : Bool) {d : Char} (hd : d.toNat < 128) (h : folded ci c = d) : c.toNat < 128 := by
  by_contra hother
  rw [folded_of_le ci hother] at h
  exact hother (h ▸ hd)

theorem contraction_at (h : At text pos s) (ci : Bool) :
    contraction text pos ci = (Pretok.contraction s ci).map (shift pos s) := by
  have happly : contraction text pos ci = if (utf8 s)[0]? ≠ some 0x27 then none else
      (utf8 s)[1]?.bind fun first => if foldByte ci first ∈ [0x73, 0x74, 0x6D, 0x64] then some (pos + 2) else
        (utf8 s)[2]?.bind fun second =>
          if (foldByte ci first, foldByte ci second) ∈ [(0x72, 0x65), (0x76, 0x65), (0x6C, 0x6C)] then some (pos + 3)
          else none := by
    rw [← utf8_at h, ← utf8_at h, ← utf8_at h]
    simp only [← List.contains_iff_mem (a := (_, _))]
    rfl
  rw [happly]
  rcases s with _ | ⟨c, s⟩
  · rfl
  by_cases hc : c = '\''
  case neg =>
    have hhead : (utf8 (c :: s))[0]? ≠ some 0x27 := by
      obtain ⟨lead, hlead⟩ := utf8_head c s
      rw [hlead, Ne, Option.some_inj]
      exact fun heq => hc ((foldByte_eq_iff false hlead (by decide)).mp heq)
    have hnone : Pretok.contraction (c :: s) ci = none := by simp [Pretok.contraction, hc]
    rw [if_pos hhead, hnone]
    rfl
  case pos =>
    subst hc
    rw [if_neg (by rw [utf8]; simp; rfl), utf8_succ (by decide), utf8_succ (by decide)]
    rcases s with _ | ⟨a, s⟩
    · rfl
    obtain ⟨first, hfirst⟩ := utf8_head a s
    have hpretok : Pretok.contraction ('\'' :: a :: s) ci = if folded ci a ∈ ['s', 't', 'm', 'd'] then some 2 else
        s.head?.bind fun b => if (folded ci a, folded ci b) ∈ [('r', 'e'), ('v', 'e'), ('l', 'l')] then some 3 else none := by
      rcases s with _ | ⟨b, s⟩ <;> rfl
    have hsingle : foldByte ci first ∈ [0x73, 0x74, 0x6D, 0x64] ↔ folded ci a ∈ ['s', 't', 'm', 'd'] := by
      simp only [List.mem_cons, List.not_mem_nil, or_false]
      exact or_congr (foldByte_eq_iff ci hfirst (by decide)) (or_congr (foldByte_eq_iff ci hfirst (by decide))
        (or_congr (foldByte_eq_iff ci hfirst (by decide)) (foldByte_eq_iff ci hfirst (by decide))))
    have hpair (second : UInt8) : (foldByte ci first, foldByte ci second) ∈ [(0x72, 0x65), (0x76, 0x65), (0x6C, 0x6C)] ↔
        (folded ci a = 'r' ∧ foldByte ci second = 0x65) ∨ (folded ci a = 'v' ∧ foldByte ci second = 0x65) ∨
          (folded ci a = 'l' ∧ foldByte ci second = 0x6C) := by
      simp only [List.mem_cons, List.not_mem_nil, or_false, Prod.mk.injEq]
      exact or_congr (and_congr_left' (foldByte_eq_iff ci hfirst (by decide)))
        (or_congr (and_congr_left' (foldByte_eq_iff ci hfirst (by decide)))
          (and_congr_left' (foldByte_eq_iff ci hfirst (by decide))))
    rw [hpretok, hfirst, Option.bind_some]
    by_cases hmem : folded ci a ∈ ['s', 't', 'm', 'd']
    case pos =>
      have hascii : a.toNat < 128 := by
        simp only [List.mem_cons, List.not_mem_nil, or_false] at hmem
        rcases hmem with hmem | hmem | hmem | hmem <;> exact ascii_of_folded ci (by decide) hmem
      have hshift : shift pos ('\'' :: a :: s) 2 = pos + 2 := by
        rw [shift, List.take_succ_cons, List.take_succ_cons, List.take_zero, size_cons, size_cons, size_nil, utf8Size_of_lt hascii,
          utf8Size_of_lt (by decide)]
      rw [if_pos (hsingle.mpr hmem), if_pos hmem, Option.map_some, hshift]
    case neg =>
      rw [if_neg (mt hsingle.mp hmem), if_neg hmem]
      by_cases hascii : a.toNat < 128
      case pos =>
        rw [utf8_succ hascii]
        rcases s with _ | ⟨b, s⟩
        · rfl
        obtain ⟨second, hsecond⟩ := utf8_head b s
        have hboth : (foldByte ci first, foldByte ci second) ∈ [(0x72, 0x65), (0x76, 0x65), (0x6C, 0x6C)] ↔
            (folded ci a, folded ci b) ∈ [('r', 'e'), ('v', 'e'), ('l', 'l')] := by
          rw [hpair]
          simp only [List.mem_cons, List.not_mem_nil, or_false, Prod.mk.injEq]
          exact or_congr (and_congr_right' (foldByte_eq_iff ci hsecond (by decide)))
            (or_congr (and_congr_right' (foldByte_eq_iff ci hsecond (by decide)))
              (and_congr_right' (foldByte_eq_iff ci hsecond (by decide))))
        rw [hsecond, Option.bind_some, List.head?_cons, Option.bind_some]
        by_cases hmem₂ : (folded ci a, folded ci b) ∈ [('r', 'e'), ('v', 'e'), ('l', 'l')]
        · have hascii₂ : b.toNat < 128 := by
            simp only [List.mem_cons, List.not_mem_nil, or_false, Prod.mk.injEq] at hmem₂
            rcases hmem₂ with ⟨-, hmem₂⟩ | ⟨-, hmem₂⟩ | ⟨-, hmem₂⟩ <;> exact ascii_of_folded ci (by decide) hmem₂
          have hshift : shift pos ('\'' :: a :: b :: s) 3 = pos + 3 := by
            rw [shift, List.take_succ_cons, List.take_succ_cons, List.take_succ_cons, List.take_zero, size_cons, size_cons,
              size_cons, size_nil, utf8Size_of_lt hascii, utf8Size_of_lt hascii₂, utf8Size_of_lt (by decide)]
          rw [if_pos (hboth.mpr hmem₂), if_pos hmem₂, Option.map_some, hshift]
        · rw [if_neg (mt hboth.mp hmem₂), if_neg hmem₂, Option.map_none]
      case neg =>
        -- the first byte is not of ASCII, and no pair begins with it
        have hother (d : Char) (hd : d.toNat < 128) : folded ci a ≠ d := fun heq => hascii (ascii_of_folded ci hd heq)
        have hleft (second : UInt8) :
            (foldByte ci first, foldByte ci second) ∉ [(0x72, 0x65), (0x76, 0x65), (0x6C, 0x6C)] := by
          rw [hpair]
          simp [hother 'r' (by decide), hother 'v' (by decide), hother 'l' (by decide)]
        have hright (b : Char) : (folded ci a, folded ci b) ∉ [('r', 'e'), ('v', 'e'), ('l', 'l')] := by
          simp [hother 'r' (by decide), hother 'v' (by decide), hother 'l' (by decide)]
        simp only [hleft, hright, if_false]
        rcases s.head? with _ | b
        · rcases (utf8 (a :: s))[1]? with _ | second <;> rfl
        · rcases (utf8 (a :: s))[1]? with _ | second <;> rfl

/-! ## Patterns -/

theorem at_body (h : At text pos (c :: s)) :
    At text (if c = ' ' then pos + 1 else pos) ((c :: s).drop (if c = ' ' then 1 else 0)) := by
  by_cases hc : c = ' '
  · subst hc
    exact h.tail
  · rw [if_neg hc, if_neg hc]
    exact h

theorem shift_body (pos : Nat) (c : Char) (s : List Char) (n : Nat) :
    shift (if c = ' ' then pos + 1 else pos) ((c :: s).drop (if c = ' ' then 1 else 0)) n =
      shift pos (c :: s) ((if c = ' ' then 1 else 0) + n) := by
  by_cases hc : c = ' '
  · have hsize : c.utf8Size = 1 := by rw [hc]; rfl
    rw [if_pos hc, if_pos hc, List.drop_succ_cons, List.drop_zero, ← shift_cons, hsize]
  · rw [if_neg hc, if_neg hc, List.drop_zero, Nat.zero_add]

theorem whitespaceRun_stop_le (s : List Char) : (Pretok.whitespaceRun u s).stop ≤ s.length := by
  rw [whitespaceRun_eq]
  exact Regex.runLength_le

theorem spaceAhead_at (h : At text pos (c :: s)) :
    (if isSpace u c then
      (whitespaceRun u text pos).bind fun run =>
        if run.stop = size text then some (some run.stop)
        else if run.lastStart > pos then some (some run.lastStart) else some none
    else some none) =
      some ((if isSpace u c then
        if (Pretok.whitespaceRun u (c :: s)).stop = (c :: s).length then some (Pretok.whitespaceRun u (c :: s)).stop
        else if (Pretok.whitespaceRun u (c :: s)).lastStart > 0 then some (Pretok.whitespaceRun u (c :: s)).lastStart else none
      else none).map (shift pos (c :: s))) := by
  rw [whitespaceRun_at h, Option.bind_some]
  dsimp only [shiftRun]
  have hend := shift_eq_size_iff h (whitespaceRun_stop_le (u := u) (c :: s))
  simp only [hend, gt_iff_lt, lt_shift_iff]
  split_ifs <;> rfl

theorem guarded_at (h : At text pos s) (ci : Bool) {p : Prop} [Decidable p] : (if p then contraction text pos ci else none) =
    (if p then Pretok.contraction s ci else none).map (shift pos s) := by
  rw [contraction_at h]
  split <;> rfl

theorem none_orElse (x : Option Nat) : (none <|> x) = x := rfl

theorem some_orElse (n : Nat) (x : Option Nat) : (some n <|> x) = some n := rfl

theorem gpt2At_at (h : At text pos (c :: s)) :
    gpt2At u text pos c = some ((Pretok.gpt2At u (c :: s) c).map (shift pos (c :: s))) := by
  have hbody := at_body h
  have hrun := runEnd_at hbody
  simp only [shift_body] at hrun
  have hspace := spaceAhead_at (u := u) h
  rw [gpt2At, Pretok.gpt2At, guarded_at h]
  rcases (if c = '\'' then Pretok.contraction (c :: s) false else none) with _ | n
  · rw [Option.map_none, none_orElse]
    dsimp only
    rw [charAt_at hbody]
    rcases ((c :: s).drop (if c = ' ' then 1 else 0)).head? with _ | d
    · exact hspace
    · simp only [hrun]
      by_cases hletter : isLetter u d = true
      · rw [if_pos hletter, if_pos hletter]
        rfl
      · rw [if_neg hletter, if_neg hletter]
        by_cases hnumber : isNumber u d = true
        · rw [if_pos hnumber, if_pos hnumber]
          rfl
        · rw [if_neg hnumber, if_neg hnumber]
          by_cases hother : (!isSpace u d) = true
          · rw [if_pos hother, if_pos hother]
            rfl
          · rw [if_neg hother, if_neg hother]
            exact hspace
  · rfl

theorem letterWord_at (h : At text pos (c :: s)) (rule : WordRule) :
    letterWord u rule text pos c = some ((Pretok.letterWord u rule (c :: s) c).map (shift pos (c :: s))) := by
  rw [letterWord, Pretok.letterWord]
  dsimp only
  rw [charAt_at h.tail, runEnd_at h.tail, runEnd_at h, List.drop_succ_cons, List.drop_zero, shift_cons]
  cases isWordPrefix u c with
  | false =>
    rw [if_neg Bool.false_ne_true, Bool.false_and, if_neg Bool.false_ne_true]
    split <;> rfl
  | true =>
    rw [if_pos rfl, Bool.true_and]
    cases s.head?.any (fun x => isLetter u x || (rule.marksAreLetters && isMark u x)) with
    | false =>
      rw [if_neg Bool.false_ne_true, if_neg Bool.false_ne_true]
      split <;> rfl
    | true => rfl

theorem neutral_at {xs : List Char} (hstart : xs <+: s) :
    xs.foldl (fun (acc : Nat × Option Nat) c =>
        (acc.1 + c.utf8Size, if isLowerClass u c then some (acc.1 + c.utf8Size) else acc.2)) (pos, none) =
      (shift pos s xs.length,
        (xs.foldl (fun (acc : Nat × Option Nat) c =>
          (acc.1 + 1, if isLowerClass u c then some (acc.1 + 1) else acc.2)) (0, none)).2.map (shift pos s)) := by
  induction xs using List.reverseRecOn with
  | nil => rfl
  | append_singleton xs c ih =>
    have hlength := congrArg Prod.fst (foldl_neutral (isLowerClass u) xs)
    rw [List.foldl_concat, List.foldl_concat, ih ((List.prefix_append xs [c]).trans hstart), List.length_append,
      List.length_singleton, shift_succ hstart, hlength]
    split
    · rw [Option.map_some, shift_succ hstart]
    · rfl

theorem caseBody_at (h : At text pos s) (lowerTail : Bool) :
    caseBody u text pos lowerTail = some ((Pretok.caseBody u s lowerTail).map (shift pos s)) := by
  have hupper := at_shift h (s.takeWhile (isUpperClass u)).length
  rw [caseBody, h.fromOffset, Pretok.caseBody]
  dsimp only
  rw [neutral_at (List.takeWhile_prefix _)]
  dsimp only
  rw [charAt_at hupper, runEnd_at hupper, shift_add]
  have hsuffix (stop : Option Nat) :
      some ((stop.map (shift pos s)).map fun stop => (contraction text stop true).getD stop) =
        some ((stop.map fun stop => stop + (Pretok.contraction (s.drop stop) true).getD 0).map (shift pos s)) := by
    rcases stop with _ | n
    · rfl
    · rw [Option.map_some, Option.map_some, Option.map_some, Option.map_some,
        contraction_at (at_shift h n)]
      rcases Pretok.contraction (s.drop n) true with _ | m
      · rfl
      · rw [Option.map_some, Option.getD_some, Option.getD_some, shift_add]
  have hempty : shift pos s (s.takeWhile (isUpperClass u)).length = pos ↔ (s.takeWhile (isUpperClass u)).length = 0 := by
    rcases s with _ | ⟨c, s⟩
    · exact ⟨fun _ => rfl, fun _ => rfl⟩
    · exact shift_eq_iff
  simp only [hempty]
  rw [← hsuffix]
  cases lowerTail with
  | true =>
    rw [if_pos rfl, if_pos rfl]
    split <;> rfl
  | false =>
    rw [if_neg Bool.false_ne_true, if_neg Bool.false_ne_true]
    split <;> rfl

theorem caseWord_at (h : At text pos (c :: s)) (lowerTail : Bool) : caseWord u text pos c lowerTail =
    some (((if isWordPrefix u c then (Pretok.caseBody u s lowerTail).map (1 + ·) else none) <|>
      Pretok.caseBody u (c :: s) lowerTail).map (shift pos (c :: s))) := by
  rw [caseWord, caseBody_at h, caseBody_at h.tail]
  cases isWordPrefix u c with
  | false => rfl
  | true =>
    rcases Pretok.caseBody u s lowerTail with _ | n
    · rfl
    · exact congrArg (fun stop => some (some stop)) shift_cons

theorem caseSplitWord_at (h : At text pos (c :: s)) :
    caseSplitWord u text pos c = some ((Pretok.caseSplitWord u (c :: s) c).map (shift pos (c :: s))) := by
  rw [caseSplitWord, Pretok.caseSplitWord, List.findSomeM?, caseWord_at h, List.findSomeM?, caseWord_at h, List.findSomeM?,
    List.findSome?_cons, List.findSome?_cons, List.findSome?_nil, List.drop_succ_cons, List.drop_zero]
  generalize ((if isWordPrefix u c then (Pretok.caseBody u s true).map (1 + ·) else none) <|>
    Pretok.caseBody u (c :: s) true) = first
  generalize ((if isWordPrefix u c then (Pretok.caseBody u s false).map (1 + ·) else none) <|>
    Pretok.caseBody u (c :: s) false) = second
  rcases first with _ | n
  · rcases second with _ | m <;> rfl
  · rfl

theorem wordAt_at (h : At text pos (c :: s)) (rule : WordRule) :
    wordAt u rule text pos c = some ((Pretok.wordAt u rule (c :: s) c).map (shift pos (c :: s))) := by
  have hbody := at_body h
  have hshift := shift_body pos c s
  have hword : (if rule.caseSplit then caseSplitWord u text pos c else letterWord u rule text pos c) =
      some ((if rule.caseSplit then Pretok.caseSplitWord u (c :: s) c else Pretok.letterWord u rule (c :: s) c).map
        (shift pos (c :: s))) := by
    split
    · exact caseSplitWord_at h
    · exact letterWord_at h rule
  have hdigits : pos + size (((c :: s).take rule.maxDigits).takeWhile (isNumber u)) =
      shift pos (c :: s) (Pretok.runEnd ((c :: s).take rule.maxDigits) (isNumber u)) := by
    have hstart := (List.takeWhile_prefix (isNumber u)).trans (List.take_prefix rule.maxDigits (c :: s))
    rw [shift, Pretok.runEnd, ← List.prefix_iff_eq_take.mp hstart]
  rw [wordAt, Pretok.wordAt, guarded_at h, hword]
  rcases (if rule.standaloneContractions && c = '\'' then Pretok.contraction (c :: s) true else none) with _ | n
  case some => rfl
  rw [Option.map_none, none_orElse]
  rcases (if rule.caseSplit then Pretok.caseSplitWord u (c :: s) c else Pretok.letterWord u rule (c :: s) c) with _ | n
  case some => rfl
  rw [Option.map_none, none_orElse]
  dsimp only [Option.bind_eq_bind, Option.bind_some]
  rw [h.fromOffset, charAt_at hbody, whitespaceRun_at h]
  by_cases hnumber : isNumber u c = true
  · rw [if_pos hnumber, if_pos hnumber, some_orElse, Option.map_some, ← hdigits]
    rfl
  · rw [if_neg hnumber, if_neg hnumber, none_orElse]
    generalize (fun x => !isSpace u x && !isLetter u x && !isNumber u x && !(rule.marksAreLetters && isMark u x)) = punct
    generalize (fun x => x == '\r' || x == '\n' || (rule.caseSplit && x == '/')) = tail
    by_cases hpunct : ((c :: s).drop (if c = ' ' then 1 else 0)).head?.any punct = true
    · rw [if_pos hpunct, if_pos hpunct, some_orElse, runEnd_at hbody, hshift, Option.bind_some,
        runEnd_at (at_shift h _), shift_add]
      rfl
    · rw [if_neg hpunct, if_neg hpunct, none_orElse]
      by_cases hspace : (!isSpace u c) = true
      · rw [if_pos hspace, if_pos hspace]
        rfl
      · have hend := shift_eq_size_iff h (whitespaceRun_stop_le (u := u) (c :: s))
        rw [if_neg hspace, if_neg hspace, Option.bind_some]
        dsimp only [shiftRun]
        simp only [hend, shift_eq_iff]
        rcases (Pretok.whitespaceRun u (c :: s)).lastNewlineEnd with _ | n
        · dsimp only [Option.map_none]
          split <;> rfl
        · rfl

theorem isAsciiDigit_byte : ∀ n < 128, isAsciiDigit (UInt8.ofNat n) = (Char.ofNat n).isDigit := by decide

theorem digits_iff (n : Nat) (s : List Char) :
    (((utf8 s).take n).length = n ∧ ((utf8 s).take n).all isAsciiDigit = true ↔
      (s.take n).length = n ∧ (s.take n).all Char.isDigit = true) ∧
    ((s.take n).length = n → (s.take n).all Char.isDigit = true → size (s.take n) = n) := by
  induction n generalizing s with
  | zero => simp
  | succ n ih =>
    rcases s with _ | ⟨c, s⟩
    · simp [utf8]
    obtain ⟨hiff, hsize⟩ := ih s
    rw [List.take_succ_cons, List.length_cons, List.all_cons, Bool.and_eq_true, size_cons]
    rcases utf8_cons c s with ⟨hascii, hbytes⟩ | ⟨hother, lead, bytes, hbytes, hlead⟩
    · have hdigit := isAsciiDigit_byte c.toNat hascii
      rw [Char.ofNat_toNat] at hdigit
      rw [hbytes, List.take_succ_cons, List.length_cons, List.all_cons, Bool.and_eq_true, hdigit, Nat.succ_inj, Nat.succ_inj,
        utf8Size_of_lt hascii]
      refine ⟨by rw [and_left_comm, hiff, and_left_comm], fun hlength hall => ?_⟩
      rw [hsize hlength hall.2, Nat.add_comm]
    · have hbyte : isAsciiDigit lead = false := by
        rw [UInt8.le_iff_toNat_le] at hlead
        rw [isAsciiDigit, Bool.and_eq_false_iff]
        right
        rw [decide_eq_false_iff_not, UInt8.le_iff_toNat_le]
        change 128 ≤ lead.toNat at hlead
        change ¬ lead.toNat ≤ 57
        omega
      have hchar : c.isDigit = false := by
        by_contra hdigit
        rw [Bool.not_eq_false, Char.isDigit, Bool.and_eq_true, decide_eq_true_eq, decide_eq_true_eq] at hdigit
        have hle : c.toNat ≤ 57 := hdigit.2
        omega
      rw [hbytes, List.take_succ_cons, List.all_cons, hbyte, hchar]
      simp

theorem matchAt_at (h : At text pos (c :: s)) (stage : Stage) :
    matchAt u stage text pos = some ((Pretok.matchAt u stage (c :: s)).map (shift pos (c :: s))) := by
  rw [matchAt, charAt_at h, Pretok.matchAt, List.head?_cons, Option.bind_some]
  cases stage with
  | digit =>
    dsimp only
    split
    · have hone : pos + c.utf8Size = shift pos (c :: s) 1 := shift_cons (n := 0)
      rw [Option.map_some, hone]
    · rfl
  | digitRun =>
    dsimp only
    rw [runEnd_at h]
    split <;> rfl
  | threeAsciiDigits =>
    obtain ⟨hiff, hsize⟩ := digits_iff 3 (c :: s)
    dsimp only
    rw [utf8_drop h]
    simp only [hiff]
    split
    case isTrue hdigits => rw [Option.map_some, shift, hsize hdigits.1 hdigits.2]
    case isFalse => rfl
  | punctRun =>
    dsimp only
    rw [runEnd_at h]
    split <;> rfl
  | gpt2 => exact gpt2At_at h
  | word rule => exact wordAt_at h rule

/-! ## The words -/

theorem closeGap_eq (base start : Nat) (gap : List Char) :
    closeGap base (if gap.isEmpty then none else some start) (start + size gap) =
      rangesFrom (base + start) (Pretok.closeGap gap) := by
  rcases gap with _ | ⟨c, gap⟩
  · rfl
  · rw [Pretok.closeGap, List.isEmpty_cons, if_neg Bool.false_ne_true, if_neg Bool.false_ne_true, rangesFrom, Nat.add_assoc]
    rfl

theorem splitPiece_at (stage : Stage) {piece gap : List Char} {base start : Nat} (h : At piece start (gap ++ s)) :
    splitPiece u stage piece base (if gap.isEmpty then none else some start) (start + size gap) =
      some (rangesFrom (base + start) (Pretok.splitPiece u stage gap s)) := by
  induction gap, s using Pretok.splitPiece.induct u stage generalizing start with
  | case1 gap =>
    have hsize := h.advance.size_eq
    rw [size_nil, Nat.add_zero] at hsize
    rw [splitPiece, if_neg (by omega), ← hsize, closeGap_eq, Pretok.splitPiece]
  | case2 gap c s n hmatch ih =>
    have hhere := h.advance
    have hlt := hhere.lt_size_iff.mpr (List.cons_ne_nil c s)
    have hnext := at_shift hhere (n + 1)
    have hrest : splitPiece u stage piece base none (shift (start + size gap) (c :: s) (n + 1)) =
        some (rangesFrom (base + shift (start + size gap) (c :: s) (n + 1)) (Pretok.splitPiece u stage [] (s.drop n))) := ih hnext
    have hoffset : base + shift (start + size gap) (c :: s) (n + 1) = base + start + size gap + size (c :: s.take n) := by
      rw [shift, List.take_succ_cons]
      omega
    rw [splitPiece, if_pos hlt, matchAt_at hhere, hmatch, Pretok.splitPiece, hmatch]
    dsimp only [Option.map_some, Option.getD_some]
    rw [if_pos (lt_shift_iff.mpr (Nat.succ_pos n)), closeGap_eq, rangesFrom_append, closeGap_flatten, rangesFrom, hrest,
      hoffset, ← Nat.add_assoc]
    rfl
  | case3 gap c s hmatch ih =>
    have hhere := h.advance
    have hlt := hhere.lt_size_iff.mpr (List.cons_ne_nil c s)
    have hopen : At piece start (gap ++ [c] ++ s) := by rwa [List.append_assoc]
    have hrest := ih hopen
    have hempty : ¬ start + size gap < ((Pretok.matchAt u stage (c :: s)).map (shift (start + size gap) (c :: s))).getD
        (start + size gap) := by
      rcases hfound : Pretok.matchAt u stage (c :: s) with _ | _ | n
      · exact Nat.lt_irrefl _
      · exact Nat.lt_irrefl _
      · exact (hmatch n hfound).elim
    have hgap : (if gap.isEmpty then none else some start : Option Nat).or (some (start + size gap)) =
        if (gap ++ [c]).isEmpty then none else some start := by
      cases gap <;> rfl
    have hlen : start + size gap + charLenAt piece (start + size gap) = start + size (gap ++ [c]) := by
      rw [charLenAt, charAt_at hhere, size_append, size_cons, size_nil]
      exact Nat.add_assoc ..
    rw [splitPiece, if_pos hlt, matchAt_at hhere]
    dsimp only
    rw [if_neg hempty, hgap, hlen, hrest, Pretok.splitPiece]
    rcases hfound : Pretok.matchAt u stage (c :: s) with _ | _ | n
    · rfl
    · rfl
    · exact (hmatch n hfound).elim

theorem splitStage_at (stage : Stage) {words : List (List Char)} (h : At text pos words.flatten) :
    splitStage u stage text (rangesFrom pos words) = some (rangesFrom pos (Pretok.splitStage u stage words)) := by
  rw [splitStage]
  induction words generalizing pos with
  | nil => rfl
  | cons w words ih =>
    rw [List.flatten_cons] at h
    have hfragment : splitFragment u stage text ⟨pos, pos + size w⟩ =
        some (rangesFrom pos (Pretok.splitPiece u stage [] w)) := by
      rw [splitFragment, h.slice]
      exact splitPiece_at stage (show At w 0 ([] ++ w) from At.start w)
    obtain ⟨output, houtput, hflat⟩ := Option.map_eq_some_iff.mp (ih h.advance)
    rw [rangesFrom, List.mapM_cons, hfragment, houtput, Pretok.splitStage, List.flatMap_cons, rangesFrom_append,
      splitPiece_flatten, List.nil_append, ← Pretok.splitStage, ← hflat]
    rfl

/-- **The ranges** are those of the words that are counted in characters. -/
theorem split_eq (pre : Pretokenizer) (text : List Char) : split u pre text = some (rangesFrom 0 (pre.split u text)) := by
  rw [split, Pretokenizer.split]
  split
  case isTrue => rfl
  case isFalse =>
    have hstages (stages : List Stage) (words : List (List Char)) (hwords : words.flatten = text) :
        stages.foldlM (fun out stage => splitStage u stage text out) (rangesFrom 0 words) =
          some (rangesFrom 0 (stages.foldl (fun words stage => Pretok.splitStage u stage words) words)) := by
      induction stages generalizing words with
      | nil => rfl
      | cons stage stages ih =>
        have hat : At text 0 words.flatten := hwords ▸ At.start words.flatten
        rw [List.foldlM_cons, splitStage_at stage hat]
        exact ih _ ((splitStage_flatten u stage words).trans hwords)
    have hall := hstages pre.stages [text] (List.flatten_singleton)
    rwa [rangesFrom, rangesFrom, Nat.zero_add] at hall

/-! ## The chains -/

theorem splitPiece_ne_nil (stage : Stage) {gap w : List Char} (hw : w ∈ Pretok.splitPiece u stage gap s) : w ≠ [] := by
  have hgap {gap w : List Char} (hw : w ∈ Pretok.closeGap gap) : w ≠ [] := by
    rw [Pretok.closeGap] at hw
    split at hw
    case isTrue => cases hw
    case isFalse hne =>
      rw [List.mem_singleton] at hw
      rintro rfl
      exact hne (by rw [← hw]; rfl)
  induction gap, s using Pretok.splitPiece.induct u stage with
  | case1 gap =>
    rw [Pretok.splitPiece] at hw
    exact hgap hw
  | case2 gap c s n hmatch ih =>
    rw [Pretok.splitPiece, hmatch] at hw
    rcases List.mem_append.mp hw with hw | hw
    · exact hgap hw
    · rcases List.mem_cons.mp hw with rfl | hw
      · exact List.cons_ne_nil _ _
      · exact ih hw
  | case3 gap c s hmatch ih =>
    rw [Pretok.splitPiece] at hw
    apply ih
    rcases hfound : Pretok.matchAt u stage (c :: s) with _ | _ | n
    · rwa [hfound] at hw
    · rwa [hfound] at hw
    · exact (hmatch n hfound).elim

theorem split_ne_nil (pre : Pretokenizer) {w : List Char} (hw : w ∈ pre.split u text) : w ≠ [] := by
  have hstages (stages : List Stage) (words : List (List Char)) (hwords : ∀ w ∈ words, w ≠ []) :
      ∀ w ∈ stages.foldl (fun words stage => Pretok.splitStage u stage words) words, w ≠ [] := by
    induction stages generalizing words with
    | nil => exact hwords
    | cons stage stages ih =>
      apply ih
      intro w hw
      obtain ⟨piece, -, hw⟩ := List.mem_flatMap.mp hw
      exact splitPiece_ne_nil stage hw
  rw [Pretokenizer.split] at hw
  split at hw
  case isTrue => cases hw
  case isFalse htext =>
    apply hstages pre.stages [text] _ w hw
    intro piece hpiece
    rw [List.mem_singleton] at hpiece
    rintro rfl
    exact htext (by rw [← hpiece]; rfl)

def regexWords (u : Unicode) (stages : List Stage) (text : List Char) : List (List Char) :=
  stages.foldl (fun words stage => words.flatMap (Regex.cut (stage.pattern u) [])) (if text.isEmpty then [] else [text])

theorem split_eq_regexWords (hu : u.Sound) {pre : Pretokenizer} (hstages : ∀ stage ∈ pre.stages, stage.Valid) (text : List Char) :
    pre.split u text = regexWords u pre.stages text := by
  have hall (stages : List Stage) (words : List (List Char)) (hvalid : ∀ stage ∈ stages, stage.Valid) :
      stages.foldl (fun words stage => Pretok.splitStage u stage words) words =
        stages.foldl (fun words stage => words.flatMap (Regex.cut (stage.pattern u) [])) words := by
    induction stages generalizing words with
    | nil => rfl
    | cons stage stages ih =>
      have hcut : Pretok.splitPiece u stage [] = Regex.cut (stage.pattern u) [] := by
        funext piece
        exact splitPiece_eq hu (hvalid stage List.mem_cons_self) [] piece
      rw [List.foldl_cons, List.foldl_cons, Pretok.splitStage, hcut]
      exact ih _ fun stage' hstage' => hvalid stage' (List.mem_cons_of_mem _ hstage')
  rw [Pretokenizer.split, regexWords]
  split
  · have hnil (stages : List Stage) :
        stages.foldl (fun words stage => words.flatMap (Regex.cut (stage.pattern u) [])) ([] : List (List Char)) = [] := by
      induction stages with
      | nil => rfl
      | cons stage stages ih => exact ih
    rw [hnil]
  · exact hall pre.stages [text] hstages

def chains : List (List Stage) :=
  [defaultStages, llama3Stages, qwen2Stages, qwen35Stages, gpt2Stages, starcoderStages, gpt4oStages]

theorem fromName_mem_chains {name : Option String} {pre : Pretokenizer} (h : Pre.fromName name = some (.words pre)) :
    pre.stages ∈ chains := by
  have hwords {stages : List Stage} {ignoreMerges addBos : Bool} (hstages : stages ∈ chains)
      (h : some (Pre.words ⟨stages, ignoreMerges, addBos⟩) = some (.words pre)) : pre.stages ∈ chains := by
    cases h
    exact hstages
  rw [Pre.fromName] at h
  dsimp only at h
  split_ifs at h
  · exact hwords (by decide) h
  · exact hwords (by decide) h
  · exact hwords (by decide) h
  · exact hwords (by decide) h
  · exact hwords (by decide) h
  · exact hwords (by decide) h
  · exact hwords (by decide) h
  · exact hwords (by decide) h
  · cases h

theorem fromName_valid {name : Option String} {pre : Pretokenizer} (h : Pre.fromName name = some (.words pre)) :
    ∀ stage ∈ pre.stages, stage.Valid := by
  have hchains : ∀ stages ∈ chains, ∀ stage ∈ stages, stage.Valid := by decide
  exact hchains _ (fromName_mem_chains h)

/-- **Every chain** that a name selects gives ranges that tile the text, whatever it is, and each of its stages cuts a piece
where its regular expression does. -/
theorem split_tiles_and_cuts (hu : u.Sound) {name : Option String} {pre : Pretokenizer}
    (hpre : Pre.fromName name = some (.words pre)) (text : List Char) :
    (∃ ranges, split u pre text = some ranges ∧ Tiles text ranges ∧
      ranges.map (slice text) = (regexWords u pre.stages text).map some) ∧
    ∀ stage ∈ pre.stages, ∀ (piece : List Char) (base : Nat),
      splitPiece u stage piece base none 0 = some (rangesFrom base (Regex.cut (stage.pattern u) [] piece)) := by
  have hvalid := fromName_valid hpre
  have hflat := split_flatten u pre text
  refine ⟨⟨rangesFrom 0 (pre.split u text), split_eq pre text, rangesFrom_tiles (fun w hw => split_ne_nil pre hw) hflat, ?_⟩, ?_⟩
  · have hat : At text 0 (pre.split u text).flatten := by
      rw [hflat]
      exact At.start text
    rw [rangesFrom_slices hat, split_eq_regexWords hu hvalid]
  · intro stage hstage piece base
    have hpiece : splitPiece u stage piece base none 0 = some (rangesFrom base (Pretok.splitPiece u stage [] piece)) :=
      splitPiece_at stage (show At piece 0 ([] ++ piece) from At.start piece)
    rwa [splitPiece_eq hu (hvalid stage hstage)] at hpiece

theorem split_tiles_and_cuts_llama3 :
    ∃ ranges, split asciiOnly ⟨llama3Stages, true, true⟩ ['d', 'o', 'n', '\'', 't', ' ', ' ', '4', '2'] = some ranges ∧
      Tiles ['d', 'o', 'n', '\'', 't', ' ', ' ', '4', '2'] ranges ∧
      ranges.map (slice ['d', 'o', 'n', '\'', 't', ' ', ' ', '4', '2']) =
        (regexWords asciiOnly llama3Stages ['d', 'o', 'n', '\'', 't', ' ', ' ', '4', '2']).map some :=
  (@split_tiles_and_cuts asciiOnly ⟨by decide, by decide, by decide, by decide⟩ (some "llama3") ⟨llama3Stages, true, true⟩
    (by decide) _).1

end

end Cuca.Local.Tokenizer.Pretok.Bytes
