import Cuca.Canonical

/-!
# Reading JSON text

A reader of JSON, with white space between tokens and every escape of a string. The number that a text of digits, signs, a point and an exponent
stands for is a parameter.

* `character`, `string` : strings, with surrogate pairs;
* `value`, `parse` : any value, and a whole text;
* `Reads` : a text is read as a value, whatever is around it;
* `reads_array`, `reads_object` : texts of arrays and objects, with white space as it comes.
-/

namespace Cuca.JsonText
open Canonical

def isSpace (c : Char) : Bool := c == ' ' || c == '\n' || c == '\t' || c == '\r'

def skip (s : List Char) : List Char := s.dropWhile isSpace

/-- A character, behind white space. -/
def eat (c : Char) (s : List Char) : Option (List Char) :=
  match skip s with
  | [] => none
  | d :: rest => if d = c then some rest else none

def word (w s : List Char) : Option (List Char) := if w.isPrefixOf s then some (s.drop w.length) else none

/-! ## Strings -/

def hexVal (c : Char) : Option Nat :=
  if c.isDigit then some (c.toNat - '0'.toNat)
  else if 'a'.toNat ≤ c.toNat ∧ c.toNat ≤ 'f'.toNat then some (c.toNat - 'a'.toNat + 10)
  else if 'A'.toNat ≤ c.toNat ∧ c.toNat ≤ 'F'.toNat then some (c.toNat - 'A'.toNat + 10)
  else none

/-- Four hexadecimal digits. -/
def codeUnit : List Char → Option (Nat × List Char)
  | a :: b :: c :: d :: rest =>
    match hexVal a, hexVal b, hexVal c, hexVal d with
    | some a, some b, some c, some d => some (4096 * a + 256 * b + 16 * c + d, rest)
    | _, _, _, _ => none
  | _ => none

def isHigh (u : Nat) : Bool := 0xd800 ≤ u && u < 0xdc00

def isLow (u : Nat) : Bool := 0xdc00 ≤ u && u < 0xe000

/-- The character of a code unit, or of a surrogate pair. -/
def unicode (s : List Char) : Option (Char × List Char) :=
  match codeUnit s with
  | none => none
  | some (u, rest) =>
    if isLow u then none
    else if isHigh u then
      match word ['\\', 'u'] rest with
      | none => none
      | some rest =>
        match codeUnit rest with
        | none => none
        | some (v, rest) => if isLow v then some (Char.ofNat (0x10000 + (u - 0xd800) * 0x400 + (v - 0xdc00)), rest) else none
    else some (Char.ofNat u, rest)

/-- What the character behind a backslash stands for. -/
def simpleEscape (c : Char) : Option Char :=
  if c = '"' ∨ c = '\\' ∨ c = '/' then some c
  else if c = 'b' then some (Char.ofNat 0x08)
  else if c = 'f' then some (Char.ofNat 0x0c)
  else if c = 'n' then some '\n'
  else if c = 'r' then some '\r'
  else if c = 't' then some '\t'
  else none

/-- One character of a string; a control character is to be escaped. -/
def character : List Char → Option (Char × List Char)
  | [] => none
  | c :: rest =>
    if c = '\\' then
      match rest with
      | [] => none
      | d :: rest => if d = 'u' then unicode rest else (simpleEscape d).map fun e => (e, rest)
    else if c.toNat < 0x20 then none
    else some (c, rest)

/-- The characters up to the closing quote. -/
def characters : Nat → List Char → Option (List Char × List Char)
  | 0, _ => none
  | n + 1, s =>
    if s.head? = some '"' then some ([], s.tail)
    else
      match character s with
      | none => none
      | some (c, rest) => (characters n rest).map fun r => (c :: r.1, r.2)

def string (s : List Char) : Option (String × List Char) := (characters s.length s).map fun r => (String.ofList r.1, r.2)

/-! ## Values -/

section
variable (readNumber : List Char → Option Number)

def number (s : List Char) : Option (Value × List Char) :=
  (readNumber (s.takeWhile isNumeric)).map fun n => (.number n, s.dropWhile isNumeric)

mutual

def value : Nat → List Char → Option (Value × List Char)
  | 0, _ => none
  | n + 1, s =>
    match skip s with
    | [] => none
    | c :: rest =>
      if c = '"' then (string rest).map fun r => (.string r.1, r.2)
      else if c = '[' then
        match eat ']' rest with
        | some rest => some (.array [], rest)
        | none => (elements n rest).map fun r => (.array r.1, r.2)
      else if c = '\x7b' then
        match eat '\x7d' rest with
        | some rest => some (.object [], rest)
        | none => (members n rest).map fun r => (.object r.1, r.2)
      else if c = 'n' then (word ['u', 'l', 'l'] rest).map fun rest => (.null, rest)
      else if c = 't' then (word ['r', 'u', 'e'] rest).map fun rest => (.bool true, rest)
      else if c = 'f' then (word ['a', 'l', 's', 'e'] rest).map fun rest => (.bool false, rest)
      else number readNumber (c :: rest)

/-- Elements up to the closing bracket. -/
def elements : Nat → List Char → Option (List Value × List Char)
  | 0, _ => none
  | n + 1, s =>
    match value n s with
    | none => none
    | some (v, s) =>
      match eat ',' s with
      | some s => (elements n s).map fun r => (v :: r.1, r.2)
      | none => (eat ']' s).map fun s => ([v], s)

/-- Members up to the closing brace. -/
def members : Nat → List Char → Option (List (String × Value) × List Char)
  | 0, _ => none
  | n + 1, s =>
    match ((eat '"' s).bind string).bind fun r => (eat ':' r.2).map fun s => (r.1, s) with
    | none => none
    | some (key, s) =>
      match value n s with
      | none => none
      | some (v, s) =>
        match eat ',' s with
        | some s => (members n s).map fun r => ((key, v) :: r.1, r.2)
        | none => (eat '\x7d' s).map fun s => ([(key, v)], s)

end

/-- The value of a whole text. -/
def parse (s : List Char) : Option Value :=
  match value readNumber (s.length + 1) s with
  | none => none
  | some (v, rest) => if skip rest = [] then some v else none

end

/-! ## White space -/

def Blank (s : List Char) : Prop := ∀ c ∈ s, isSpace c = true

theorem skip_blank {w : List Char} (hw : Blank w) (s : List Char) : skip (w ++ s) = skip s := by
  unfold skip
  rw [List.dropWhile_append_of_pos hw]

theorem skip_cons {c : Char} (hc : isSpace c = false) (s : List Char) : skip (c :: s) = c :: s := by
  unfold skip
  rw [List.dropWhile_cons, hc]
  rfl

theorem eat_same {w : List Char} (hw : Blank w) {c : Char} (hc : isSpace c = false) (s : List Char) : eat c (w ++ c :: s) = some s := by
  unfold eat
  rw [skip_blank hw, skip_cons hc]
  exact if_pos rfl

theorem eat_other {w : List Char} (hw : Blank w) {c d : Char} (hd : isSpace d = false) (hne : d ≠ c) (s : List Char) :
    eat c (w ++ d :: s) = none := by
  unfold eat
  rw [skip_blank hw, skip_cons hd]
  exact if_neg hne

theorem word_same (w s : List Char) : word w (w ++ s) = some s := by
  unfold word
  rw [if_pos (List.isPrefixOf_iff_prefix.mpr (List.prefix_append w s)), List.drop_left]

/-! ## Characters -/

def unitText (u : Nat) : List Char := [hexDigit (u / 4096), hexDigit (u / 256 % 16), hexDigit (u / 16 % 16), hexDigit (u % 16)]

theorem hexVal_hexDigit : ∀ n < 16, hexVal (hexDigit n) = some n := by decide

theorem codeUnit_unitText {u : Nat} (h : u < 65536) (rest : List Char) : codeUnit (unitText u ++ rest) = some (u, rest) := by
  unfold unitText codeUnit
  simp only [List.cons_append, List.nil_append]
  rw [hexVal_hexDigit _ (by omega), hexVal_hexDigit _ (by omega), hexVal_hexDigit _ (by omega), hexVal_hexDigit _ (by omega)]
  simp only [Option.some.injEq, Prod.mk.injEq, and_true]
  omega

theorem unicode_single {c : Char} (h : c.toNat < 65536) (rest : List Char) : unicode (unitText c.toNat ++ rest) = some (c, rest) := by
  have hvalid : c.toNat < 0xd800 ∨ 0xdfff < c.toNat ∧ c.toNat < 0x110000 := c.valid
  have hlow : isLow c.toNat = false := by
    unfold isLow
    simp
    omega
  have hhigh : isHigh c.toNat = false := by
    unfold isHigh
    simp
    omega
  unfold unicode
  rw [codeUnit_unitText h]
  simp [hlow, hhigh, Char.ofNat_toNat]

theorem unicode_units {u v : Nat} (hhigh : isHigh u = true) (hlow : isLow v = true) (rest : List Char) :
    unicode (unitText u ++ '\\' :: 'u' :: (unitText v ++ rest)) =
      some (Char.ofNat (0x10000 + (u - 0xd800) * 0x400 + (v - 0xdc00)), rest) := by
  have hother : isLow u = false := by
    simp [isHigh, isLow] at hhigh ⊢
    omega
  have hu : u < 65536 := by
    simp [isHigh] at hhigh
    omega
  have hv : v < 65536 := by
    simp [isLow] at hlow
    omega
  have hword : word ['\\', 'u'] ('\\' :: 'u' :: (unitText v ++ rest)) = some (unitText v ++ rest) := word_same ['\\', 'u'] _
  unfold unicode
  rw [codeUnit_unitText hu]
  simp only [hother, hhigh, hword, codeUnit_unitText hv, hlow, if_true, Bool.false_eq_true, if_false]

theorem unicode_pair {c : Char} (h : 65536 ≤ c.toNat) (rest : List Char) :
    unicode (unitText (0xd800 + (c.toNat - 65536) / 1024) ++ '\\' :: 'u' :: (unitText (0xdc00 + (c.toNat - 65536) % 1024) ++ rest)) =
      some (c, rest) := by
  have hvalid : c.toNat < 0xd800 ∨ 0xdfff < c.toNat ∧ c.toNat < 0x110000 := c.valid
  have hhigh : isHigh (0xd800 + (c.toNat - 65536) / 1024) = true := by
    simp [isHigh]
    omega
  have hlow : isLow (0xdc00 + (c.toNat - 65536) % 1024) = true := by
    simp [isLow]
    omega
  have hvalue : 0x10000 + (0xd800 + (c.toNat - 65536) / 1024 - 0xd800) * 0x400 + (0xdc00 + (c.toNat - 65536) % 1024 - 0xdc00) = c.toNat := by
    omega
  rw [unicode_units hhigh hlow, hvalue, Char.ofNat_toNat]

/-- A way to write characters that the reader understands. -/
structure Escapes (escape : Char → List Char) : Prop where
  reads : ∀ c rest, character (escape c ++ rest) = some (c, rest)
  starts : ∀ c, ∃ d tail, escape c = d :: tail ∧ d ≠ '"'

theorem characters_escaped {escape : Char → List Char} (h : Escapes escape) (cs rest : List Char) {n : Nat} (hn : cs.length < n) :
    characters n (cs.flatMap escape ++ '"' :: rest) = some (cs, rest) := by
  induction cs generalizing n with
  | nil =>
    obtain ⟨n, rfl⟩ := Nat.exists_eq_succ_of_ne_zero (Nat.ne_of_gt hn)
    rfl
  | cons c cs ih =>
    obtain ⟨n, rfl⟩ := Nat.exists_eq_succ_of_ne_zero (Nat.ne_zero_of_lt hn)
    obtain ⟨d, tail, hescape, hne⟩ := h.starts c
    have hhead : ((c :: cs).flatMap escape ++ '"' :: rest).head? ≠ some '"' := by
      rw [List.flatMap_cons, hescape]
      simpa using hne
    rw [characters, if_neg hhead, List.flatMap_cons, List.append_assoc, h.reads]
    dsimp only
    rw [ih (by rw [List.length_cons] at hn; omega)]
    rfl

theorem string_escaped {escape : Char → List Char} (h : Escapes escape) (s : String) (rest : List Char) :
    string (s.toList.flatMap escape ++ '"' :: rest) = some (s, rest) := by
  have hlength : s.toList.length ≤ (s.toList.flatMap escape).length := by
    induction s.toList with
    | nil => exact Nat.zero_le _
    | cons c cs ih =>
      obtain ⟨d, tail, hescape, _⟩ := h.starts c
      rw [List.flatMap_cons, hescape, List.length_append, List.length_cons, List.length_cons]
      omega
  unfold string
  rw [characters_escaped h _ _ (by rw [List.length_append, List.length_cons]; omega)]
  simp

/-! ## Texts of values -/

/-- A text is read as a value, whatever white space is before it, and whatever is behind it that does not go on with a number. -/
def Reads (readNumber : List Char → Option Number) (text : List Char) (v : Value) : Prop :=
  (∃ c tail, text = c :: tail ∧ isSpace c = false ∧ c ≠ ']' ∧ c ≠ '\x7d') ∧
    ∀ n ≥ text.length, ∀ w rest, Blank w → Stops rest → value readNumber n (w ++ (text ++ rest)) = some (v, rest)

section
variable {readNumber : List Char → Option Number}

theorem isNumeric_of_isSpace {c : Char} (h : isSpace c = true) : isNumeric c = false := by
  unfold isSpace at h
  simp only [Bool.or_eq_true, beq_iff_eq] at h
  rcases h with ((rfl | rfl) | rfl) | rfl <;> decide

theorem isSpace_of_isNumeric {c : Char} (h : isNumeric c = true) : isSpace c = false := by
  by_contra hspace
  rw [isNumeric_of_isSpace (by simpa using hspace)] at h
  exact Bool.false_ne_true h

theorem reads_null : Reads readNumber ['n', 'u', 'l', 'l'] .null := by
  refine ⟨⟨'n', _, rfl, by decide, by decide, by decide⟩, fun n hn w rest hw _ => ?_⟩
  obtain ⟨n, rfl⟩ := Nat.exists_eq_succ_of_ne_zero (Nat.ne_zero_of_lt hn)
  rw [value, skip_blank hw]
  exact congrArg (Option.map fun rest => (Value.null, rest)) (word_same ['u', 'l', 'l'] rest)

theorem reads_true : Reads readNumber ['t', 'r', 'u', 'e'] (.bool true) := by
  refine ⟨⟨'t', _, rfl, by decide, by decide, by decide⟩, fun n hn w rest hw _ => ?_⟩
  obtain ⟨n, rfl⟩ := Nat.exists_eq_succ_of_ne_zero (Nat.ne_zero_of_lt hn)
  rw [value, skip_blank hw]
  exact congrArg (Option.map fun rest => (Value.bool true, rest)) (word_same ['r', 'u', 'e'] rest)

theorem reads_false : Reads readNumber ['f', 'a', 'l', 's', 'e'] (.bool false) := by
  refine ⟨⟨'f', _, rfl, by decide, by decide, by decide⟩, fun n hn w rest hw _ => ?_⟩
  obtain ⟨n, rfl⟩ := Nat.exists_eq_succ_of_ne_zero (Nat.ne_zero_of_lt hn)
  rw [value, skip_blank hw]
  exact congrArg (Option.map fun rest => (Value.bool false, rest)) (word_same ['a', 'l', 's', 'e'] rest)

theorem reads_string {escape : Char → List Char} (h : Escapes escape) (s : String) :
    Reads readNumber ('"' :: (s.toList.flatMap escape ++ ['"'])) (.string s) := by
  refine ⟨⟨'"', _, rfl, by decide, by decide, by decide⟩, fun n hn w rest hw _ => ?_⟩
  obtain ⟨n, rfl⟩ := Nat.exists_eq_succ_of_ne_zero (Nat.ne_zero_of_lt hn)
  rw [value, skip_blank hw, List.cons_append, skip_cons (by decide), List.append_assoc, List.singleton_append]
  dsimp only
  rw [if_pos rfl, string_escaped h]
  rfl

theorem reads_number {text : List Char} {m : Number} (hread : readNumber text = some m) (hnumeric : ∀ c ∈ text, isNumeric c = true)
    (hne : text ≠ []) : Reads readNumber text (.number m) := by
  obtain ⟨c, tail, rfl⟩ := List.exists_cons_of_ne_nil hne
  have hc := hnumeric c List.mem_cons_self
  have hother (d : Char) (hd : isNumeric d = false) : c ≠ d := by
    rintro rfl
    rw [hd] at hc
    exact Bool.false_ne_true hc
  refine ⟨⟨c, tail, rfl, isSpace_of_isNumeric hc, hother _ (by decide), hother _ (by decide)⟩, fun n hn w rest hw hrest => ?_⟩
  obtain ⟨n, rfl⟩ := Nat.exists_eq_succ_of_ne_zero (Nat.ne_zero_of_lt hn)
  have htake := takeWhile_numeric hnumeric hrest
  have hdrop : (c :: tail ++ rest).dropWhile isNumeric = rest := by
    have hboth := List.takeWhile_append_dropWhile (p := isNumeric) (l := c :: tail ++ rest)
    rw [htake] at hboth
    exact List.append_cancel_left hboth
  rw [value, skip_blank hw, List.cons_append, skip_cons (isSpace_of_isNumeric hc)]
  dsimp only
  rw [if_neg (hother _ (by decide)), if_neg (hother _ (by decide)), if_neg (hother _ (by decide)), if_neg (hother _ (by decide)),
    if_neg (hother _ (by decide)), if_neg (hother _ (by decide)), number, ← List.cons_append, htake, hdrop, hread]
  rfl

/-! ## Texts of arrays and objects -/

/-- What follows an item: more items, each behind a comma, and the closing bracket. -/
def following (other close : List Char) (closing : Char) : List (List Char) → List Char
  | [] => close ++ [closing]
  | text :: texts => ',' :: (other ++ (text ++ following other close closing texts))

/-- Items between brackets, with white space before the first one, before each other one, and before the closing bracket. -/
def between (opening closing : Char) (first other close : List Char) : List (List Char) → List Char
  | [] => [opening, closing]
  | text :: texts => opening :: (first ++ (text ++ following other close closing texts))

variable {other close first : List Char}

theorem stops_blank {w : List Char} (hw : Blank w) {c : Char} (hc : isNumeric c = false) (rest : List Char) : Stops (w ++ c :: rest) := by
  cases w with
  | nil => exact stops_cons hc rest
  | cons d w => exact stops_cons (isNumeric_of_isSpace (hw d List.mem_cons_self)) _

theorem stops_following (hclose : Blank close) {closing : Char} (hclosing : isNumeric closing = false) (texts : List (List Char)) (rest : List Char) :
    Stops (following other close closing texts ++ rest) := by
  cases texts with
  | nil =>
    rw [following, List.append_assoc, List.singleton_append]
    exact stops_blank hclose hclosing rest
  | cons text texts => exact stops_cons (by decide) _

theorem elements_reads (hother : Blank other) (hclose : Blank close) {text : List Char} {texts : List (List Char)} {v : Value} {vs : List Value}
    (h : List.Forall₂ (Reads readNumber) (text :: texts) (v :: vs)) {n : Nat} (hn : text.length + (following other close ']' texts).length ≤ n)
    {w : List Char} (hw : Blank w) (rest : List Char) :
    elements readNumber n (w ++ (text ++ (following other close ']' texts ++ rest))) = some (v :: vs, rest) := by
  induction texts generalizing text v vs n w with
  | nil =>
    obtain ⟨hv, hvs⟩ := List.forall₂_cons.mp h
    rw [List.forall₂_nil_left_iff.mp hvs]
    simp only [following, List.length_append, List.length_singleton] at hn
    obtain ⟨n, rfl⟩ := Nat.exists_eq_succ_of_ne_zero (show n ≠ 0 by omega)
    rw [elements, hv.2 n (by omega) w _ hw (stops_following hclose (by decide) [] rest), following, List.append_assoc, List.singleton_append]
    dsimp only
    rw [eat_other hclose (by decide) (by decide)]
    dsimp only
    rw [eat_same hclose (by decide)]
    rfl
  | cons text' texts ih =>
    obtain ⟨hv, hvs⟩ := List.forall₂_cons.mp h
    obtain ⟨v', vs', hv', hrest, rfl⟩ := List.forall₂_cons_left_iff.mp hvs
    simp only [following, List.length_append, List.length_cons] at hn
    obtain ⟨n, rfl⟩ := Nat.exists_eq_succ_of_ne_zero (show n ≠ 0 by omega)
    rw [elements, hv.2 n (by omega) w _ hw (stops_following hclose (by decide) (text' :: texts) rest), following]
    dsimp only
    have hcomma : eat ',' (',' :: (other ++ (text' ++ following other close ']' texts)) ++ rest) =
        some (other ++ (text' ++ (following other close ']' texts ++ rest))) := by
      rw [List.cons_append, List.append_assoc, List.append_assoc]
      exact eat_same (List.forall_mem_nil _) (by decide) _
    rw [hcomma]
    dsimp only
    rw [ih (List.forall₂_cons.mpr ⟨hv', hrest⟩) (by omega) hother]
    rfl

theorem reads_array (hfirst : Blank first) (hother : Blank other) (hclose : Blank close) {texts : List (List Char)} {vs : List Value}
    (h : List.Forall₂ (Reads readNumber) texts vs) : Reads readNumber (between '[' ']' first other close texts) (.array vs) := by
  constructor
  · cases texts with
    | nil => exact ⟨'[', _, rfl, by decide, by decide, by decide⟩
    | cons text texts => exact ⟨'[', _, rfl, by decide, by decide, by decide⟩
  · intro n hn w rest hw _
    cases h with
    | nil =>
      obtain ⟨n, rfl⟩ := Nat.exists_eq_succ_of_ne_zero (Nat.ne_zero_of_lt hn)
      have hempty : eat ']' (']' :: rest) = some rest := eat_same (List.forall_mem_nil _) (by decide) rest
      rw [value, skip_blank hw, between, List.cons_append, skip_cons (by decide)]
      dsimp only
      rw [if_neg (by decide), if_pos rfl, List.singleton_append, hempty]
    | @cons text v texts vs hv hvs =>
      obtain ⟨c, tail, hstart, hspace, hbracket, _⟩ := hv.1
      simp only [between, List.length_cons, List.length_append] at hn
      obtain ⟨n, rfl⟩ := Nat.exists_eq_succ_of_ne_zero (show n ≠ 0 by omega)
      rw [value, skip_blank hw, between, List.cons_append, skip_cons (by decide), List.append_assoc, List.append_assoc]
      dsimp only
      have hopen : eat ']' (first ++ (text ++ (following other close ']' texts ++ rest))) = none := by
        rw [hstart, List.cons_append]
        exact eat_other hfirst hspace hbracket _
      rw [if_neg (by decide), if_pos rfl, hopen]
      dsimp only
      rw [elements_reads hother hclose (List.forall₂_cons.mpr ⟨hv, hvs⟩) (by omega) hfirst]
      rfl

def memberText (escape : Char → List Char) (gap : List Char) (key : String) (text : List Char) : List Char :=
  '"' :: (key.toList.flatMap escape ++ '"' :: ':' :: (gap ++ text))

def ReadsMember (readNumber : List Char → Option Number) (escape : Char → List Char) (gap text : List Char) (m : String × Value) : Prop :=
  ∃ valueText, text = memberText escape gap m.1 valueText ∧ Reads readNumber valueText m.2

variable {escape : Char → List Char} {gap : List Char}

theorem member_key (h : Escapes escape) {w : List Char} (hw : Blank w) (key : String) (rest : List Char) :
    (((eat '"' (w ++ '"' :: (key.toList.flatMap escape ++ '"' :: ':' :: rest))).bind string).bind fun r => (eat ':' r.2).map fun s => (r.1, s)) =
      some (key, rest) := by
  have hcolon : eat ':' (':' :: rest) = some rest := eat_same (List.forall_mem_nil _) (by decide) rest
  rw [eat_same hw (by decide), Option.bind_some, string_escaped h, Option.bind_some]
  dsimp only
  rw [hcolon]
  rfl

theorem members_reads (hescape : Escapes escape) (hgap : Blank gap) (hother : Blank other) (hclose : Blank close) {text : List Char}
    {texts : List (List Char)} {m : String × Value} {ms : List (String × Value)}
    (h : List.Forall₂ (ReadsMember readNumber escape gap) (text :: texts) (m :: ms)) {n : Nat}
    (hn : text.length + (following other close '\x7d' texts).length ≤ n) {w : List Char} (hw : Blank w) (rest : List Char) :
    members readNumber n (w ++ (text ++ (following other close '\x7d' texts ++ rest))) = some (m :: ms, rest) := by
  induction texts generalizing text m ms n w with
  | nil =>
    obtain ⟨⟨valueText, rfl, hv⟩, hms⟩ := List.forall₂_cons.mp h
    rw [List.forall₂_nil_left_iff.mp hms]
    simp only [following, memberText, List.length_append, List.length_cons] at hn
    obtain ⟨n, rfl⟩ := Nat.exists_eq_succ_of_ne_zero (show n ≠ 0 by omega)
    rw [members]
    simp only [memberText, List.cons_append, List.append_assoc]
    rw [member_key hescape hw]
    dsimp only
    rw [hv.2 n (by omega) gap _ hgap (stops_following hclose (by decide) [] rest), following, List.append_assoc, List.singleton_append]
    dsimp only
    rw [eat_other hclose (by decide) (by decide)]
    dsimp only
    rw [eat_same hclose (by decide)]
    rfl
  | cons text' texts ih =>
    obtain ⟨⟨valueText, rfl, hv⟩, hms⟩ := List.forall₂_cons.mp h
    obtain ⟨m', ms', hm', hrest, rfl⟩ := List.forall₂_cons_left_iff.mp hms
    simp only [following, memberText, List.length_append, List.length_cons] at hn
    obtain ⟨n, rfl⟩ := Nat.exists_eq_succ_of_ne_zero (show n ≠ 0 by omega)
    rw [members]
    simp only [memberText, List.cons_append, List.append_assoc]
    rw [member_key hescape hw]
    dsimp only
    rw [hv.2 n (by omega) gap _ hgap (stops_following hclose (by decide) (text' :: texts) rest), following]
    dsimp only
    have hcomma : eat ',' (',' :: (other ++ (text' ++ following other close '\x7d' texts)) ++ rest) =
        some (other ++ (text' ++ (following other close '\x7d' texts ++ rest))) := by
      rw [List.cons_append, List.append_assoc, List.append_assoc]
      exact eat_same (List.forall_mem_nil _) (by decide) _
    rw [hcomma]
    dsimp only
    rw [ih (List.forall₂_cons.mpr ⟨hm', hrest⟩) (by omega) hother]
    rfl

theorem reads_object (hescape : Escapes escape) (hgap : Blank gap) (hfirst : Blank first) (hother : Blank other) (hclose : Blank close)
    {texts : List (List Char)} {ms : List (String × Value)} (h : List.Forall₂ (ReadsMember readNumber escape gap) texts ms) :
    Reads readNumber (between '\x7b' '\x7d' first other close texts) (.object ms) := by
  constructor
  · cases texts with
    | nil => exact ⟨'\x7b', _, rfl, by decide, by decide, by decide⟩
    | cons text texts => exact ⟨'\x7b', _, rfl, by decide, by decide, by decide⟩
  · intro n hn w rest hw _
    cases h with
    | nil =>
      obtain ⟨n, rfl⟩ := Nat.exists_eq_succ_of_ne_zero (Nat.ne_zero_of_lt hn)
      have hempty : eat '\x7d' ('\x7d' :: rest) = some rest := eat_same (List.forall_mem_nil _) (by decide) rest
      rw [value, skip_blank hw, between, List.cons_append, skip_cons (by decide)]
      dsimp only
      rw [if_neg (by decide), if_neg (by decide), if_pos rfl, List.singleton_append, hempty]
    | @cons text m texts ms hm hms =>
      simp only [between, List.length_cons, List.length_append] at hn
      obtain ⟨n, rfl⟩ := Nat.exists_eq_succ_of_ne_zero (show n ≠ 0 by omega)
      rw [value, skip_blank hw, between, List.cons_append, skip_cons (by decide), List.append_assoc, List.append_assoc]
      dsimp only
      have hopen : eat '\x7d' (first ++ (text ++ (following other close '\x7d' texts ++ rest))) = none := by
        obtain ⟨valueText, rfl, _⟩ := hm
        exact eat_other hfirst (by decide) (by decide) _
      rw [if_neg (by decide), if_neg (by decide), if_pos rfl, hopen]
      dsimp only
      rw [members_reads hescape hgap hother hclose (List.forall₂_cons.mpr ⟨hm, hms⟩) (by omega) hfirst]
      rfl

theorem parse_reads {text : List Char} {v : Value} (h : Reads readNumber text v) : parse readNumber text = some v := by
  have hread := h.2 (text.length + 1) (Nat.le_succ _) [] [] (List.forall_mem_nil _) stops_nil
  rw [List.nil_append, List.append_nil] at hread
  unfold parse
  rw [hread]
  rfl

end

end Cuca.JsonText
