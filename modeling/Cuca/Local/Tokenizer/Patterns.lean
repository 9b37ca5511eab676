import Cuca.Lib.Regex
import Cuca.Local.Tokenizer.Pretok

/-!
# The patterns of the pre-tokenizers

Each stage stands for a regular expression. Its scanner was written by hand, in one pass and without backtracking, and ends
where the first match of the expression does.

* `Stage.pattern` : the regular expression of a stage;
* `contraction_eq`, `gpt2At_eq`, `wordAt_eq` : the scanners;
* `matchAt_eq`, `splitPiece_eq` : a stage cuts where its expression does.
-/

namespace Cuca.Local.Tokenizer.Pretok
open Regex

/-- What the character classes have of three characters. -/
structure Unicode.Sound (u : Unicode) : Prop where
  space : u.isWhitespace ' ' = true
  carriageReturn : u.isWhitespace '\r' = true
  newline : u.isWhitespace '\n' = true
  notNumeric : u.isNumeric ' ' = false

/-! ## The expressions -/

def literal (c : Char) : Pattern Char := .one (· == c)

def folded (caseInsensitive : Bool) (c : Char) : Char := if caseInsensitive then c.toLower else c

/-- The letters of a word, in either case where that is asked for. -/
def letters (caseInsensitive : Bool) : List Char → Pattern Char
  | [] => .nil
  | c :: cs => .seq (.one fun x => folded caseInsensitive x == c) (letters caseInsensitive cs)

/-- `'s|'t|'re|'ve|'m|'ll|'d`, or the same under `(?i:…)`. -/
def contractions (caseInsensitive : Bool) : Pattern Char :=
  .any ([['s'], ['t'], ['r', 'e'], ['v', 'e'], ['m'], ['l', 'l'], ['d']].map fun word =>
    .seq (literal '\'') (letters caseInsensitive word))

def isNewline (c : Char) : Bool := c == '\r' || c == '\n'

section
variable (u : Unicode)

/-- `[^\s\p{L}\p{N}]` -/
def isOther (c : Char) : Bool := !isSpace u c && !isLetter u c && !isNumber u c

/-- ` ?…` -/
def spaced (r : Pattern Char) : Pattern Char := .seq (.opt (literal ' ')) r

/-- `\s+(?!\S)` -/
def spaceAhead : Pattern Char := .seq (.plus (.one (isSpace u))) (.notAhead fun c => !isSpace u c)

/-- `'s|'t|'re|'ve|'m|'ll|'d| ?\p{L}+| ?\p{N}+| ?[^\s\p{L}\p{N}]+|\s+(?!\S)` -/
def gpt2Pattern : Pattern Char :=
  .any [contractions false, spaced (.plus (.one (isLetter u))), spaced (.plus (.one (isNumber u))),
    spaced (.plus (.one (isOther u))), spaceAhead u]

/-- `[\p{L}\p{M}]`, or `\p{L}`. -/
def isWordLetter (rule : WordRule) (c : Char) : Bool := isLetter u c || (rule.marksAreLetters && isMark u c)

/-- `[^\s\p{L}\p{N}]`, without `\p{M}` where marks are letters. -/
def isPunct (rule : WordRule) (c : Char) : Bool :=
  !isSpace u c && !isLetter u c && !isNumber u c && !(rule.marksAreLetters && isMark u c)

/-- `[\r\n]`, or `[\r\n/]`. -/
def isTail (rule : WordRule) (c : Char) : Bool := c == '\r' || c == '\n' || (rule.caseSplit && c == '/')

/-- `U*L+` or `U+L*`, then `(?i:'s|'t|'re|'ve|'m|'ll|'d)?`. -/
def casePattern (lowerTail : Bool) : Pattern Char :=
  .seq
    (if lowerTail then .seq (.star (.one (isUpperClass u))) (.plus (.one (isLowerClass u)))
      else .seq (.plus (.one (isUpperClass u))) (.star (.one (isLowerClass u))))
    (.opt (contractions true))

/-- `[^\r\n\p{L}\p{N}]?…` -/
def prefixed (r : Pattern Char) : Pattern Char := .seq (.opt (.one (isWordPrefix u))) r

/-- The words of a rule: `[^\r\n\p{L}\p{N}]?\p{L}+`, or the two of the case split. -/
def wordsOf (rule : WordRule) : List (Pattern Char) :=
  if rule.caseSplit then [prefixed u (casePattern u true), prefixed u (casePattern u false)]
  else [prefixed u (.plus (.one (isWordLetter u rule)))]

/-- The shared word pattern, a contraction first where the rule has one:
`…|\p{N}{1,k}| ?[^\s\p{L}\p{N}]+[\r\n]*|\s*[\r\n]+|\s+(?!\S)|\s+`. -/
def wordPattern (rule : WordRule) : Pattern Char :=
  .any ((if rule.standaloneContractions then [contractions true] else []) ++ wordsOf u rule ++
    [.seq (.one (isNumber u)) (.upTo (.one (isNumber u)) (rule.maxDigits - 1)),
      spaced (.seq (.plus (.one (isPunct u rule))) (.star (.one (isTail rule)))),
      .seq (.star (.one (isSpace u))) (.plus (.one isNewline)), spaceAhead u, .plus (.one (isSpace u))])

/-- The regular expression of a stage. -/
def Stage.pattern : Stage → Pattern Char
  | .digit => .one (isNumber u)
  | .digitRun => .plus (.one (isNumber u))
  | .threeAsciiDigits => .seq (.one Char.isDigit) (.seq (.one Char.isDigit) (.one Char.isDigit))
  | .punctRun => .plus (.one (isPunctRunChar u))
  | .gpt2 => gpt2Pattern u
  | .word rule => wordPattern u rule

end

/-- A word has a digit at least. -/
def Stage.Valid : Stage → Prop
  | .word rule => 1 ≤ rule.maxDigits
  | _ => True

instance (stage : Stage) : Decidable stage.Valid :=
  match stage with
  | .word rule => inferInstanceAs (Decidable (1 ≤ rule.maxDigits))
  | .digit | .digitRun | .threeAsciiDigits | .punctRun | .gpt2 => inferInstanceAs (Decidable True)

/-! ## Contractions -/

theorem letters_first (ci : Bool) (word s : List Char) : (letters ci word).first s =
    if (s.take word.length).map (folded ci) = word then some word.length else none := by
  induction word generalizing s with
  | nil => rw [List.length_nil, List.take_zero]; rfl
  | cons c cs ih =>
    rw [letters, Pattern.first_one_seq]
    rcases s with _ | ⟨x, s⟩
    · rfl
    · rw [List.drop_succ_cons, List.drop_zero, ih, List.length_cons, List.take_succ_cons, List.map_cons]
      by_cases hx : folded ci x = c
      · simp [hx, Nat.add_comm]
      · simp [hx]

theorem contractions_first (ci : Bool) (s : List Char) : (contractions ci).first s =
    if s.head? = some '\'' then
      [['s'], ['t'], ['r', 'e'], ['v', 'e'], ['m'], ['l', 'l'], ['d']].findSome? fun word =>
        if ((s.drop 1).take word.length).map (folded ci) = word then some (1 + word.length) else none
    else none := by
  rw [contractions, Pattern.first_any, List.findSome?_map]
  rcases s with _ | ⟨c, s⟩
  · rfl
  · simp only [Function.comp_def, literal, Pattern.first_one_seq, letters_first]
    by_cases hc : c = '\''
    · subst hc
      simp only [List.head?_cons, Option.any_some, beq_self_eq_true, if_true, apply_ite (Option.map (1 + ·)), Option.map_some,
        Option.map_none]
    · simp [hc]

theorem contraction_eq (s : List Char) (ci : Bool) : contraction s ci = (contractions ci).first s := by
  rw [contractions_first]
  rcases s with _ | ⟨c, s⟩
  · rfl
  · by_cases hc : c = '\''
    · subst hc
      rw [if_pos (List.head?_cons), List.drop_succ_cons, List.drop_zero]
      rcases s with _ | ⟨a, _ | ⟨b, s⟩⟩
      · rfl
      · have hpair : contraction ['\'', a] ci = if folded ci a ∈ ['s', 't', 'm', 'd'] then some 2 else none := rfl
        rw [hpair]
        simp only [List.findSome?_cons, List.findSome?_nil, List.length_cons, List.length_nil, List.take_succ_cons,
          List.take_nil, List.map_cons, List.map_nil, List.cons.injEq]
        generalize folded ci a = x
        by_cases hsingle : x ∈ ['s', 't', 'm', 'd']
        · rw [if_pos hsingle]
          simp only [List.mem_cons, List.not_mem_nil, or_false] at hsingle
          rcases hsingle with rfl | rfl | rfl | rfl <;> decide
        · rw [if_neg hsingle]
          simp only [List.mem_cons, List.not_mem_nil, or_false, not_or] at hsingle
          simp [hsingle]
      · have htriple : contraction ('\'' :: a :: b :: s) ci = if folded ci a ∈ ['s', 't', 'm', 'd'] then some 2 else
            if (folded ci a, folded ci b) ∈ [('r', 'e'), ('v', 'e'), ('l', 'l')] then some 3 else none := rfl
        rw [htriple]
        simp only [List.findSome?_cons, List.findSome?_nil, List.length_cons, List.length_nil, List.take_succ_cons,
          List.take_zero, List.map_cons, List.map_nil, List.cons.injEq]
        generalize folded ci a = x
        generalize folded ci b = y
        by_cases hsingle : x ∈ ['s', 't', 'm', 'd']
        · rw [if_pos hsingle]
          simp only [List.mem_cons, List.not_mem_nil, or_false] at hsingle
          rcases hsingle with rfl | rfl | rfl | rfl <;> simp
        · rw [if_neg hsingle]
          simp only [List.mem_cons, List.not_mem_nil, or_false, not_or] at hsingle
          by_cases hpair : (x, y) ∈ [('r', 'e'), ('v', 'e'), ('l', 'l')]
          · rw [if_pos hpair]
            simp only [List.mem_cons, List.not_mem_nil, or_false, Prod.mk.injEq] at hpair
            rcases hpair with ⟨rfl, rfl⟩ | ⟨rfl, rfl⟩ | ⟨rfl, rfl⟩ <;> simp
          · rw [if_neg hpair]
            simp only [List.mem_cons, List.not_mem_nil, or_false, Prod.mk.injEq, not_or] at hpair
            simp [hsingle, hpair]
    · have hnone : contraction (c :: s) ci = none := by simp [contraction, hc]
      rw [hnone, if_neg]
      simpa using hc

/-! ## Runs of whitespace -/

section
variable {u : Unicode} {p : Char → Bool} {c : Char} {s : List Char}

theorem foldl_whitespace (xs : List Char) : xs.foldl (fun run c =>
      { stop := run.stop + 1
        lastStart := run.stop
        lastNewlineEnd := if c = '\r' ∨ c = '\n' then some (run.stop + 1) else run.lastNewlineEnd }) (⟨0, 0, none⟩ : WhitespaceRun) =
    ⟨xs.length, xs.length - 1, backtrack (fun k => if xs[k]?.any isNewline then some (k + 1) else none) xs.length⟩ := by
  induction xs using List.reverseRecOn with
  | nil => rfl
  | append_singleton xs c ih =>
    rw [List.foldl_concat, ih, List.length_append, List.length_singleton, backtrack_succ, List.getElem?_concat_length]
    have hbefore : backtrack (fun k => if (xs ++ [c])[k]?.any isNewline then some (k + 1) else none) xs.length =
        backtrack (fun k => if xs[k]?.any isNewline then some (k + 1) else none) xs.length :=
      backtrack_congr fun k hk => by rw [List.getElem?_append_left hk]
    rw [hbefore]
    by_cases hc : c = '\r' ∨ c = '\n'
    · have hnewline : isNewline c = true := by simpa [isNewline] using hc
      simp [hc, hnewline]
    · have hnewline : isNewline c = false := by simpa [isNewline] using hc
      simp [hc, hnewline]

theorem getElem?_takeWhile {k : Nat} (h : k < runLength p s) : (s.takeWhile p)[k]? = s[k]? := by
  obtain ⟨rest, hrest⟩ := List.takeWhile_prefix p (l := s)
  conv_rhs => rw [← hrest]
  exact (List.getElem?_append_left h).symm

theorem whitespaceRun_eq (s : List Char) : whitespaceRun u s =
    ⟨runLength (isSpace u) s, runLength (isSpace u) s - 1,
      backtrack (fun k => if s[k]?.any isNewline then some (k + 1) else none) (runLength (isSpace u) s)⟩ := by
  rw [whitespaceRun, foldl_whitespace]
  have hsame : backtrack (fun k => if (s.takeWhile (isSpace u))[k]?.any isNewline then some (k + 1) else none)
      (runLength (isSpace u) s) = backtrack (fun k => if s[k]?.any isNewline then some (k + 1) else none)
      (runLength (isSpace u) s) :=
    backtrack_congr fun k hk => by rw [getElem?_takeWhile hk]
  rw [← hsame]
  rfl

theorem runLength_pos (h : p c = true) : 0 < runLength p (c :: s) := by
  rw [runLength_pos_iff]
  simpa using h

theorem spaceAhead_first : (spaceAhead u).first (c :: s) =
    if isSpace u c then
      if (whitespaceRun u (c :: s)).stop = (c :: s).length then some (whitespaceRun u (c :: s)).stop
      else if (whitespaceRun u (c :: s)).lastStart > 0 then some (whitespaceRun u (c :: s)).lastStart else none
    else none := by
  rw [spaceAhead, Pattern.first_plus_notAhead, whitespaceRun_eq]
  by_cases hc : isSpace u c = true
  · have hpos : runLength (isSpace u) (c :: s) ≠ 0 := Nat.ne_of_gt (runLength_pos hc)
    rw [if_neg hpos, if_pos hc]
    have hmore : runLength (isSpace u) (c :: s) - 1 > 0 ↔ 1 < runLength (isSpace u) (c :: s) := by omega
    simp only [hmore]
  · rw [if_neg hc, runLength_cons_of_neg hc]
    rfl

/-! ## An optional space -/

theorem spaced_first {r : Pattern Char} (hr : ∀ s, r.first (' ' :: s) = none) : (spaced r).first (c :: s) =
    (r.first ((c :: s).drop (if c = ' ' then 1 else 0))).map ((if c = ' ' then 1 else 0) + ·) := by
  rw [spaced, literal, Pattern.first_opt_one_seq]
  by_cases hc : c = ' '
  · subst hc
    simp [hr]
  · have hzero : (r.first (c :: s)).map (0 + ·) = r.first (c :: s) := by simp
    simp [hc]

theorem plus_first_space (hp : p ' ' = false) (s : List Char) : (Pattern.plus (.one p)).first (' ' :: s) = none := by
  rw [Pattern.first_plus]
  simp [hp]

theorem spaced_plus_first (hp : p ' ' = false) : (spaced (.plus (.one p))).first (c :: s) =
    if ((c :: s).drop (if c = ' ' then 1 else 0)).head?.any p then
      some ((if c = ' ' then 1 else 0) + runLength p ((c :: s).drop (if c = ' ' then 1 else 0))) else none := by
  rw [spaced_first (plus_first_space hp), Pattern.first_plus, apply_ite (Option.map _)]
  rfl

theorem isLetter_space : isLetter u ' ' = false := rfl

theorem isNumber_space (hu : u.Sound) : isNumber u ' ' = false := hu.notNumeric

theorem isSpace_space (hu : u.Sound) : isSpace u ' ' = true := hu.space

theorem isSpace_of_isNewline (hu : u.Sound) (h : isNewline c = true) : isSpace u c = true := by
  rw [isNewline, Bool.or_eq_true, beq_iff_eq, beq_iff_eq] at h
  rcases h with rfl | rfl
  · exact hu.carriageReturn
  · exact hu.newline

theorem atApostrophe_eq (ci : Bool) : (if c = '\'' then contraction (c :: s) ci else none) = (contractions ci).first (c :: s) := by
  rw [contraction_eq]
  split
  case isTrue => rfl
  case isFalse hc =>
    rw [contractions_first, if_neg]
    simpa using hc

/-! ## The GPT-2 pattern -/

theorem gpt2At_eq (hu : u.Sound) : gpt2At u (c :: s) c = (gpt2Pattern u).first (c :: s) := by
  have hother : isOther u ' ' = false := by rw [isOther, isSpace_space hu]; rfl
  rw [gpt2Pattern, Pattern.first_any_cons, Pattern.first_any_cons, Pattern.first_any_cons, Pattern.first_any_cons,
    Pattern.first_any_cons, Pattern.first_any_nil, spaced_plus_first isLetter_space, spaced_plus_first (isNumber_space hu),
    spaced_plus_first hother, spaceAhead_first, gpt2At, atApostrophe_eq]
  dsimp only
  generalize (if isSpace u c = true then _ else none : Option Nat) = space
  rcases (contractions false).first (c :: s) with _ | n
  · rcases ((c :: s).drop (if c = ' ' then 1 else 0)).head? with _ | d
    · rcases space with _ | n <;> rfl
    · by_cases hletter : isLetter u d = true
      · simp [hletter, runEnd, runLength]
      · by_cases hnumber : isNumber u d = true
        · simp [hletter, hnumber, runEnd, runLength]
        · by_cases hspace : isSpace u d = true
          · simp [hletter, hnumber, hspace, isOther]
          · simp [hletter, hnumber, hspace, isOther, runEnd, runLength]
            rfl
  · rfl

/-! ## The word pattern -/

theorem tail_total (rule : WordRule) (s : List Char) : ((Pattern.star (.one (isTail rule))).first s).isSome := by
  rw [Pattern.first_star]
  rfl

theorem punctuation_first (hu : u.Sound) (rule : WordRule) :
    (spaced (.seq (.plus (.one (isPunct u rule))) (.star (.one (isTail rule))))).first (c :: s) =
      if ((c :: s).drop (if c = ' ' then 1 else 0)).head?.any (isPunct u rule) then
        let stop := (if c = ' ' then 1 else 0) + runEnd ((c :: s).drop (if c = ' ' then 1 else 0)) (isPunct u rule)
        some (stop + runEnd ((c :: s).drop stop) (isTail rule))
      else none := by
  have hpunct : isPunct u rule ' ' = false := by
    rw [isPunct, isSpace_space hu]
    rfl
  have hspace (s : List Char) :
      (Pattern.seq (.plus (.one (isPunct u rule))) (.star (.one (isTail rule)))).first (' ' :: s) = none := by
    rw [Pattern.first_seq_of_total (tail_total rule), plus_first_space hpunct]
    rfl
  rw [spaced_first hspace, Pattern.first_seq_of_total (tail_total rule), Pattern.first_plus]
  generalize (if c = ' ' then 1 else 0) = body
  split
  case isTrue =>
    rw [Option.bind_some, Pattern.first_star, List.drop_drop, Option.map_some, Option.map_some, ← Nat.add_assoc]
    rfl
  case isFalse => rfl

theorem runEnd_eq (s : List Char) (p : Char → Bool) : runEnd s p = runLength p s := rfl

theorem digits_first {n : Nat} (hn : 1 ≤ n) : (Pattern.seq (.one (isNumber u)) (.upTo (.one (isNumber u)) (n - 1))).first (c :: s) =
    if isNumber u c then some (runEnd ((c :: s).take n) (isNumber u)) else none := by
  obtain ⟨n, rfl⟩ := Nat.exists_eq_add_of_le' hn
  rw [Pattern.first_one_seq, Pattern.first_upTo, List.drop_succ_cons, List.drop_zero, Nat.add_sub_cancel, List.take_succ_cons]
  by_cases hc : isNumber u c = true
  · rw [if_pos (by simpa using hc), if_pos hc, runEnd_eq, runLength_cons_of_pos hc, Option.map_some, Nat.add_comm]
  · rw [if_neg (by simpa using hc), if_neg hc]

theorem newlines_first (hu : u.Sound) : (Pattern.seq (.star (.one (isSpace u))) (.plus (.one isNewline))).first s =
    (whitespaceRun u s).lastNewlineEnd := by
  rw [Pattern.first_star_plus, whitespaceRun_eq, if_neg]
  have hafter := head?_drop_runLength (isSpace u) s
  rcases hdrop : s.drop (runLength (isSpace u) s) with _ | ⟨d, rest⟩
  · simp
  · intro hd
    have hspace := isSpace_of_isNewline hu (c := d) (by simpa using hd)
    rw [hdrop, List.head?_cons, Option.any_some, hspace] at hafter
    cases hafter

theorem letterWord_eq (rule : WordRule) :
    letterWord u rule (c :: s) c = (prefixed u (.plus (.one (isWordLetter u rule)))).first (c :: s) := by
  rw [prefixed, Pattern.first_opt_one_seq, Pattern.first_plus, Pattern.first_plus, letterWord, List.drop_succ_cons,
    List.drop_zero, List.head?_cons, Option.any_some, Option.any_some]
  show (if isWordPrefix u c && s.head?.any (isWordLetter u rule) then some (1 + runLength (isWordLetter u rule) s)
    else if isWordLetter u rule c then some (runLength (isWordLetter u rule) (c :: s)) else none) = _
  by_cases hbefore : isWordPrefix u c = true
  · by_cases hnext : s.head?.any (isWordLetter u rule) = true
    · simp [hbefore, hnext]
    · simp [hbefore, hnext]
  · simp [hbefore]

theorem foldl_neutral (q : Char → Bool) (xs : List Char) :
    xs.foldl (fun (acc : Nat × Option Nat) c => (acc.1 + 1, if q c then some (acc.1 + 1) else acc.2)) (0, none) =
      (xs.length, backtrack (fun k => if xs[k]?.any q then some (k + 1) else none) xs.length) := by
  induction xs using List.reverseRecOn with
  | nil => rfl
  | append_singleton xs c ih =>
    have hbefore : backtrack (fun k => if (xs ++ [c])[k]?.any q then some (k + 1) else none) xs.length =
        backtrack (fun k => if xs[k]?.any q then some (k + 1) else none) xs.length :=
      backtrack_congr fun k hk => by rw [List.getElem?_append_left hk]
    rw [List.foldl_concat, ih, List.length_append, List.length_singleton, backtrack_succ, List.getElem?_concat_length, hbefore]
    by_cases hc : q c = true
    · simp [hc]
    · simp [hc]

theorem lastNeutral_eq (s : List Char) :
    ((s.takeWhile (isUpperClass u)).foldl (fun (acc : Nat × Option Nat) c =>
        (acc.1 + 1, if isLowerClass u c then some (acc.1 + 1) else acc.2)) (0, none)).2 =
      backtrack (fun k => if s[k]?.any (isLowerClass u) then some (k + 1) else none) (runLength (isUpperClass u) s) := by
  rw [foldl_neutral]
  exact backtrack_congr fun k hk => by rw [getElem?_takeWhile hk]

theorem caseBody_eq (lowerTail : Bool) (s : List Char) : caseBody u s lowerTail = (casePattern u lowerTail).first s := by
  have htotal (s : List Char) : ((contractions true).opt.first s).isSome := by
    rw [Pattern.first_opt]
    rfl
  have hsuffix (stop : Option Nat) : stop.map (fun stop => stop + (contraction (s.drop stop) true).getD 0) =
      stop.bind fun n => ((contractions true).opt.first (s.drop n)).map (n + ·) := by
    rcases stop with _ | n
    · rfl
    · rw [Option.map_some, Option.bind_some, Pattern.first_opt, Option.map_some, contraction_eq]
  rw [casePattern, Pattern.first_seq_of_total htotal, caseBody, hsuffix, lastNeutral_eq]
  congr 1
  cases lowerTail with
  | true =>
    rw [if_pos rfl, if_pos rfl, Pattern.first_star_plus]
    rfl
  | false =>
    have hlower (s : List Char) : ((Pattern.star (.one (isLowerClass u))).first s).isSome := by
      rw [Pattern.first_star]
      rfl
    rw [if_neg Bool.false_ne_true, if_neg Bool.false_ne_true, Pattern.first_seq_of_total hlower, Pattern.first_plus]
    by_cases hupper : s.head?.any (isUpperClass u) = true
    · have hpos : (s.takeWhile (isUpperClass u)).length ≠ 0 := Nat.ne_of_gt (runLength_pos_iff.mpr hupper)
      rw [if_neg hpos, if_pos hupper, Option.bind_some, Pattern.first_star]
      rfl
    · have hzero : (s.takeWhile (isUpperClass u)).length = 0 :=
        Nat.eq_zero_of_not_pos fun hpos => hupper (runLength_pos_iff.mp hpos)
      rw [if_pos hzero, if_neg hupper]
      rfl

theorem caseSplitWord_eq : caseSplitWord u (c :: s) c =
    (((prefixed u (casePattern u true)).first (c :: s)).or ((prefixed u (casePattern u false)).first (c :: s))) := by
  have hprefixed (lowerTail : Bool) : (prefixed u (casePattern u lowerTail)).first (c :: s) =
      ((if isWordPrefix u c then (caseBody u ((c :: s).drop 1) lowerTail).map (1 + ·) else none) <|>
        caseBody u (c :: s) lowerTail) := by
    rw [prefixed, Pattern.first_opt_one_seq, caseBody_eq, caseBody_eq, Option.or_eq_orElse]
    rfl
  rw [hprefixed, hprefixed, caseSplitWord, List.findSome?_cons, List.findSome?_cons, List.findSome?_nil]
  generalize ((if isWordPrefix u c then (caseBody u ((c :: s).drop 1) true).map (1 + ·) else none) <|>
    caseBody u (c :: s) true) = first
  generalize ((if isWordPrefix u c then (caseBody u ((c :: s).drop 1) false).map (1 + ·) else none) <|>
    caseBody u (c :: s) false) = second
  rcases first with _ | n
  · rcases second with _ | m <;> rfl
  · rfl

theorem wordAt_eq (hu : u.Sound) {rule : WordRule} (hrule : 1 ≤ rule.maxDigits) :
    wordAt u rule (c :: s) c = (wordPattern u rule).first (c :: s) := by
  have hcontraction : (if rule.standaloneContractions && c = '\'' then contraction (c :: s) true else none) =
      (Pattern.any (if rule.standaloneContractions then [contractions true] else [])).first (c :: s) := by
    by_cases halone : rule.standaloneContractions = true
    · rw [if_pos halone, Pattern.first_any_cons, Pattern.first_any_nil, Option.or_none, ← atApostrophe_eq, halone, Bool.true_and]
      simp only [decide_eq_true_eq]
    · rw [if_neg halone, Pattern.first_any_nil, if_neg]
      simp [halone]
  have hwords : (if rule.caseSplit then caseSplitWord u (c :: s) c else letterWord u rule (c :: s) c) =
      (Pattern.any (wordsOf u rule)).first (c :: s) := by
    rw [wordsOf]
    split
    case isTrue => rw [caseSplitWord_eq, Pattern.first_any_cons, Pattern.first_any_cons, Pattern.first_any_nil, Option.or_none]
    case isFalse => rw [letterWord_eq, Pattern.first_any_cons, Pattern.first_any_nil, Option.or_none]
  rw [wordPattern, Pattern.first_any_append, Pattern.first_any_append, ← hcontraction, ← hwords, Pattern.first_any_cons,
    Pattern.first_any_cons, Pattern.first_any_cons, Pattern.first_any_cons, Pattern.first_any_cons, Pattern.first_any_nil,
    digits_first hrule, punctuation_first hu, newlines_first hu, spaceAhead_first, Pattern.first_plus, wordAt]
  simp only [Option.orElse_eq_orElse, Option.orElse_eq_or, Option.or_assoc, Option.or_none]
  congr 4
  -- what is left are the alternatives of whitespace
  rw [List.head?_cons, Option.any_some]
  by_cases hspace : isSpace u c = true
  · have hstop : runLength (isSpace u) (c :: s) = (whitespaceRun u (c :: s)).stop := by rw [whitespaceRun_eq]
    rw [if_neg (by simp [hspace]), if_pos hspace, if_pos hspace, hstop]
    rcases (whitespaceRun u (c :: s)).lastNewlineEnd with _ | n
    · by_cases hend : (whitespaceRun u (c :: s)).stop = (c :: s).length
      · simp [hend]
      · rw [if_neg hend, Option.none_or]
        dsimp only
        by_cases hzero : (whitespaceRun u (c :: s)).lastStart = 0
        · rw [if_pos (Or.inr hzero), if_neg (by omega), Option.none_or]
        · rw [if_neg (not_or.mpr ⟨hend, hzero⟩), if_pos (Nat.pos_of_ne_zero hzero), Option.some_or]
    · rfl
  · have hnone : (whitespaceRun u (c :: s)).lastNewlineEnd = none := by
      rw [whitespaceRun_eq, runLength_cons_of_neg hspace]
      rfl
    rw [if_pos (by simp [hspace]), if_neg hspace, if_neg hspace, hnone]
    rfl

/-! ## The stages -/

theorem matchAt_eq (hu : u.Sound) {stage : Stage} (hstage : stage.Valid) :
    matchAt u stage (c :: s) = (stage.pattern u).first (c :: s) := by
  rw [matchAt, List.head?_cons, Option.bind_some]
  cases stage with
  | digit => rw [Stage.pattern, Pattern.first_one, List.head?_cons, Option.any_some]
  | digitRun =>
    rw [Stage.pattern, Pattern.first_plus, List.head?_cons, Option.any_some]
    rfl
  | threeAsciiDigits =>
    rw [Stage.pattern, Pattern.first_one_seq, Pattern.first_one_seq, Pattern.first_one]
    rcases s with _ | ⟨d, _ | ⟨e, s⟩⟩
    · simp
    · simp
    · by_cases hc : c.isDigit = true
      · by_cases hd : d.isDigit = true
        · by_cases he : e.isDigit = true
          · simp [hc, hd, he]
          · simp [hc, hd, he]
        · simp [hc, hd]
      · simp [hc]
  | punctRun =>
    rw [Stage.pattern, Pattern.first_plus, List.head?_cons, Option.any_some]
    rfl
  | gpt2 => exact gpt2At_eq hu
  | word rule => exact wordAt_eq hu hstage

/-- **A piece** is cut where the expression of the stage cuts it. -/
theorem splitPiece_eq (hu : u.Sound) {stage : Stage} (hstage : stage.Valid) (gap s : List Char) :
    splitPiece u stage gap s = cut (stage.pattern u) gap s := by
  induction gap, s using splitPiece.induct u stage with
  | case1 gap =>
    rw [splitPiece, cut]
    rfl
  | case2 gap c s n hmatch ih =>
    rw [splitPiece, cut, ← matchAt_eq hu hstage, hmatch]
    dsimp only
    rw [ih]
    rfl
  | case3 gap c s hmatch ih =>
    rw [splitPiece, cut, ← matchAt_eq hu hstage]
    rcases hfound : matchAt u stage (c :: s) with _ | _ | n
    · exact ih
    · exact ih
    · exact (hmatch n hfound).elim

end

end Cuca.Local.Tokenizer.Pretok
