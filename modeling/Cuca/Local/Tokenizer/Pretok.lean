import Mathlib.Data.List.Basic

/-!
# Pre-tokenizers

A chain of stages cuts a text into words. Each stage runs over every piece the one before left, and cuts it into what its pattern
matches and the gaps between.

Where a source function is given a text and an offset, it only reads on from there: here it is given the rest of the text, and counts
characters.

* `Unicode` : what the character classes are made from;
* `matchAt` : the end of what a stage's pattern matches;
* `splitStage`, `Pretokenizer.split` : the words of a text;
* `split_flatten` : they are the text, in order.
-/

namespace Cuca.Local.Tokenizer.Pretok

/-- `GeneralCategory`, with one case for the categories that no class names. -/
inductive GeneralCategory where
  | uppercaseLetter
  | lowercaseLetter
  | titlecaseLetter
  | modifierLetter
  | otherLetter
  | nonspacingMark
  | spacingMark
  | enclosingMark
  | connectorPunctuation
  | dashPunctuation
  | openPunctuation
  | closePunctuation
  | initialPunctuation
  | finalPunctuation
  | otherPunctuation
  | other
  deriving DecidableEq, Repr

/-- `get_general_category`, `char::is_numeric` and `char::is_whitespace`. -/
structure Unicode where
  category : Char → GeneralCategory
  isNumeric : Char → Bool
  isWhitespace : Char → Bool

def asciiOnly : Unicode := ⟨fun _ => .other, Char.isDigit, Char.isWhitespace⟩

/-- The variants of the word pattern. -/
structure WordRule where
  standaloneContractions : Bool
  maxDigits : Nat
  marksAreLetters : Bool
  caseSplit : Bool
  deriving DecidableEq, Repr

inductive Stage where
  | digit
  | digitRun
  | threeAsciiDigits
  | punctRun
  | gpt2
  | word (rule : WordRule)
  deriving DecidableEq, Repr

structure Pretokenizer where
  stages : List Stage
  ignoreMerges : Bool
  addBos : Bool
  deriving DecidableEq, Repr

/-! ## Character classes -/

def isAscii (c : Char) : Bool := c.toNat < 128

section
variable (u : Unicode)

/-- `\p{L}` -/
def isLetter (c : Char) : Bool :=
  if isAscii c then c.isAlpha
  else u.category c ∈ [.uppercaseLetter, .lowercaseLetter, .titlecaseLetter, .modifierLetter, .otherLetter]

/-- `\p{M}` -/
def isMark (c : Char) : Bool := !isAscii c && u.category c ∈ [.nonspacingMark, .spacingMark, .enclosingMark]

/-- `\p{N}` -/
def isNumber (c : Char) : Bool := u.isNumeric c

/-- `\s` -/
def isSpace (c : Char) : Bool := u.isWhitespace c

def isUpperOnly (c : Char) : Bool :=
  if isAscii c then c.isUpper else u.category c ∈ [.uppercaseLetter, .titlecaseLetter]

def isCaseNeutral (c : Char) : Bool :=
  !isAscii c && u.category c ∈ [.modifierLetter, .otherLetter, .nonspacingMark, .spacingMark, .enclosingMark]

def isUpperClass (c : Char) : Bool := isUpperOnly u c || isCaseNeutral u c

def isLowerClass (c : Char) : Bool :=
  if isAscii c then c.isLower else u.category c == .lowercaseLetter || isCaseNeutral u c

def isAsciiPunctuation (c : Char) : Bool :=
  ('!' ≤ c && c ≤ '/') || (':' ≤ c && c ≤ '@') || ('[' ≤ c && c ≤ '\x60') || ('\x7b' ≤ c && c ≤ '~')

/-- `\p{P}` -/
def isPunctuation (c : Char) : Bool :=
  if isAscii c then isAsciiPunctuation c && c ∉ ['$', '+', '<', '=', '>', '^', '\x60', '|', '~']
  else u.category c ∈ [.connectorPunctuation, .dashPunctuation, .openPunctuation, .closePunctuation, .initialPunctuation,
    .finalPunctuation, .otherPunctuation]

def isPunctRunChar (c : Char) : Bool := isPunctuation u c || c ∈ ['$', '+', '<', '=', '>', '^', '~', '|']

/-! ## Patterns -/

def runEnd (s : List Char) (p : Char → Bool) : Nat := (s.takeWhile p).length

/-- A contraction, from its apostrophe on. -/
def contraction (s : List Char) (caseInsensitive : Bool) : Option Nat :=
  let fold (c : Char) := if caseInsensitive then c.toLower else c
  match s with
  | '\'' :: a :: rest =>
    if fold a ∈ ['s', 't', 'm', 'd'] then some 2
    else match rest with
      | b :: _ => if (fold a, fold b) ∈ [('r', 'e'), ('v', 'e'), ('l', 'l')] then some 3 else none
      | [] => none
  | _ => none

/-- The end of a run of whitespace, the start of its last character and the end of its last line break. -/
structure WhitespaceRun where
  stop : Nat
  lastStart : Nat
  lastNewlineEnd : Option Nat

def whitespaceRun (s : List Char) : WhitespaceRun :=
  (s.takeWhile (isSpace u)).foldl (fun run c =>
    { stop := run.stop + 1
      lastStart := run.stop
      lastNewlineEnd := if c = '\r' ∨ c = '\n' then some (run.stop + 1) else run.lastNewlineEnd }) ⟨0, 0, none⟩

/-- The GPT-2 pattern; `c` is the first character. -/
def gpt2At (s : List Char) (c : Char) : Option Nat :=
  let body := if c = ' ' then 1 else 0
  let rest := s.drop body
  -- `\s+(?!\S)`: all of the run at the end of the piece, else all but its last character
  let space :=
    if isSpace u c then
      let run := whitespaceRun u s
      if run.stop = s.length then some run.stop
      else if run.lastStart > 0 then some run.lastStart
      else none
    else none
  (if c = '\'' then contraction s false else none) <|>
    match rest.head? with
    | some d =>
      if isLetter u d then some (body + runEnd rest (isLetter u))
      else if isNumber u d then some (body + runEnd rest (isNumber u))
      else if !isSpace u d then some (body + runEnd rest fun x => !isSpace u x && !isLetter u x && !isNumber u x)
      else space
    | none => space

def isWordPrefix (c : Char) : Bool := c != '\r' && c != '\n' && !isLetter u c && !isNumber u c

/-- `[^\r\n\p{L}\p{N}]?\p{L}+` -/
def letterWord (rule : WordRule) (s : List Char) (c : Char) : Option Nat :=
  let letter (x : Char) := isLetter u x || (rule.marksAreLetters && isMark u x)
  if isWordPrefix u c && (s.drop 1).head?.any letter then some (1 + runEnd (s.drop 1) letter)
  else if letter c then some (runEnd s letter)
  else none

/-- `U*L+` or `U+L*`, and a contraction that follows. -/
def caseBody (s : List Char) (lowerTail : Bool) : Option Nat :=
  let upper := s.takeWhile (isUpperClass u)
  let upperEnd := upper.length
  -- the last character of the upper class that is also of the lower one: where backtracking would end
  let lastNeutral := (upper.foldl (fun (acc : Nat × Option Nat) c =>
    (acc.1 + 1, if isLowerClass u c then some (acc.1 + 1) else acc.2)) (0, none)).2
  let rest := s.drop upperEnd
  let stop :=
    if lowerTail then
      if rest.head?.any (isLowerClass u) then some (upperEnd + runEnd rest (isLowerClass u)) else lastNeutral
    else if upperEnd = 0 then none
    else some (upperEnd + runEnd rest (isLowerClass u))
  stop.map fun stop => stop + (contraction (s.drop stop) true).getD 0

/-- The two word alternatives of GPT-4o, each with the character before it and without. -/
def caseSplitWord (s : List Char) (c : Char) : Option Nat :=
  [true, false].findSome? fun lowerTail =>
    (if isWordPrefix u c then (caseBody u (s.drop 1) lowerTail).map (1 + ·) else none) <|> caseBody u s lowerTail

/-- The word pattern; `c` is the first character. -/
def wordAt (rule : WordRule) (s : List Char) (c : Char) : Option Nat :=
  let punct (x : Char) := !isSpace u x && !isLetter u x && !isNumber u x && !(rule.marksAreLetters && isMark u x)
  let tail (x : Char) := x == '\r' || x == '\n' || (rule.caseSplit && x == '/')
  let body := if c = ' ' then 1 else 0
  (if rule.standaloneContractions && c = '\'' then contraction s true else none) <|>
  (if rule.caseSplit then caseSplitWord u s c else letterWord u rule s c) <|>
  (if isNumber u c then some (runEnd (s.take rule.maxDigits) (isNumber u)) else none) <|>
  (if (s.drop body).head?.any punct then
    let stop := body + runEnd (s.drop body) punct
    some (stop + runEnd (s.drop stop) tail)
  else none) <|>
  if !isSpace u c then none
  else
    let run := whitespaceRun u s
    match run.lastNewlineEnd with
    | some stop => some stop
    | none => if run.stop = s.length ∨ run.lastStart = 0 then some run.stop else some run.lastStart

/-- The end of what the stage's pattern matches at the beginning of a text. -/
def matchAt (stage : Stage) (s : List Char) : Option Nat :=
  s.head?.bind fun c =>
    match stage with
    | .digit => if isNumber u c then some 1 else none
    | .digitRun => if isNumber u c then some (runEnd s (isNumber u)) else none
    | .threeAsciiDigits => if (s.take 3).length = 3 ∧ (s.take 3).all Char.isDigit then some 3 else none
    | .punctRun => if isPunctRunChar u c then some (runEnd s (isPunctRunChar u)) else none
    | .gpt2 => gpt2At u s c
    | .word rule => wordAt u rule s c

/-! ## Words -/

def closeGap (gap : List Char) : List (List Char) := if gap.isEmpty then [] else [gap]

/-- The matches and the gaps of a piece, with a gap that is open. -/
def splitPiece (stage : Stage) (gap : List Char) : List Char → List (List Char)
  | [] => closeGap gap
  | c :: s =>
    match matchAt u stage (c :: s) with
    | some (n + 1) => closeGap gap ++ (c :: s.take n) :: splitPiece stage [] (s.drop n)
    | _ => splitPiece stage (gap ++ [c]) s
termination_by s => s.length
decreasing_by
  · rw [List.length_drop, List.length_cons]
    omega
  · exact Nat.lt_succ_self _

def splitStage (stage : Stage) (input : List (List Char)) : List (List Char) := input.flatMap (splitPiece u stage [])

def Pretokenizer.split (pre : Pretokenizer) (text : List Char) : List (List Char) :=
  if text.isEmpty then [] else pre.stages.foldl (fun words stage => splitStage u stage words) [text]

/-! ## What is cut is kept -/

theorem closeGap_flatten (gap : List Char) : (closeGap gap).flatten = gap := by
  cases gap with
  | nil => rfl
  | cons c gap => rw [closeGap, List.isEmpty_cons, if_neg Bool.false_ne_true, List.flatten_singleton]

theorem splitPiece_flatten (stage : Stage) (gap s : List Char) : (splitPiece u stage gap s).flatten = gap ++ s := by
  induction gap, s using splitPiece.induct u stage with
  | case1 gap =>
    rw [splitPiece, closeGap_flatten, List.append_nil]
  | case2 gap c s n hmatch ih =>
    rw [splitPiece, hmatch]
    dsimp only
    rw [List.flatten_append, closeGap_flatten, List.flatten_cons, ih, List.nil_append, List.cons_append, List.take_append_drop]
  | case3 gap c s hmatch ih =>
    rw [splitPiece]
    split
    · rename_i n hsome
      exact (hmatch n hsome).elim
    · rw [ih, List.append_assoc, List.singleton_append]

theorem splitStage_flatten (stage : Stage) (input : List (List Char)) : (splitStage u stage input).flatten = input.flatten := by
  induction input with
  | nil => rfl
  | cons piece input ih =>
    rw [splitStage, List.flatMap_cons, List.flatten_append, splitPiece_flatten, List.flatten_cons, List.nil_append]
    exact congrArg (piece ++ ·) ih

/-- **The words** are the text, whatever the stages. -/
theorem split_flatten (pre : Pretokenizer) (text : List Char) : (pre.split u text).flatten = text := by
  rw [Pretokenizer.split]
  split
  · rename_i hempty
    rw [List.isEmpty_iff.mp hempty]
    rfl
  · have hstages : ∀ (stages : List Stage) (words : List (List Char)),
        (stages.foldl (fun words stage => splitStage u stage words) words).flatten = words.flatten := by
      intro stages
      induction stages with
      | nil => exact fun _ => rfl
      | cons stage stages ih => exact fun words => (ih _).trans (splitStage_flatten u stage words)
    rw [hstages, List.flatten_singleton]

end

end Cuca.Local.Tokenizer.Pretok
