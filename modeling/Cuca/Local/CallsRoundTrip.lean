import Cuca.JsonReader
import Cuca.Local.Calls
import Mathlib.Data.List.DropRight

/-!
# What tool calls are read back as

The grammar of a call relates values to the texts that stand for them: numbers by any literal that is read as them, keys with or
without quotes. Every text of it is read back as its value, up to the depth the parser has, unless a key is one that a key cannot be.
Whatever the text, the parser answers.

* `Renders` : the texts of a value;
* `value_sound`, `members_sound` : no slice panics, and no rounds run out;
* `Renders.yields` : what is rendered is read back;
* `parseToolCall_reads_back_iff` : the calls that come back.
-/

namespace Cuca.Local.Calls
open Canonical Offsets Parsing Sse

/-! ## The grammar -/

def Digits (ds : List Char) : Prop := ds ≠ [] ∧ ∀ c ∈ ds, c.isDigit = true

/-- `-?(0|[1-9][0-9]*)(\.[0-9]+)?([eE][+-]?[0-9]+)?` -/
def JsonNumber (word : List Char) : Prop :=
  ∃ sign int fraction exponent, word = sign ++ (int ++ (fraction ++ exponent)) ∧ (sign = [] ∨ sign = ['-']) ∧
    (int = ['0'] ∨ ∃ d ds, int = d :: ds ∧ d ≠ '0' ∧ ∀ c ∈ d :: ds, c.isDigit = true) ∧
    (fraction = [] ∨ ∃ ds, fraction = '.' :: ds ∧ Digits ds) ∧
    (exponent = [] ∨ ∃ e sign ds, exponent = e :: (sign ++ ds) ∧ (e = 'e' ∨ e = 'E') ∧
      (sign = [] ∨ sign = ['+'] ∨ sign = ['-']) ∧ Digits ds)

/-- A key that is no longer than its letters, or stands between quotes. -/
inductive RendersKey : List Char → List Char → Prop
  | bare {key : List Char} : ¬ stringQuote <:+: key → trim key = key → RendersKey key key
  | quoted {key : List Char} : ¬ stringQuote <:+: key → RendersKey key (stringQuote ++ key ++ stringQuote)

section
variable (numberOf : List Char → Option Number)

mutual

/-- The texts of a value. -/
inductive Renders : Value → List Char → Prop
  | null : Renders .null ['n', 'u', 'l', 'l']
  | true : Renders (.bool true) ['t', 'r', 'u', 'e']
  | false : Renders (.bool false) ['f', 'a', 'l', 's', 'e']
  | number {word : List Char} {n : Number} : JsonNumber word → numberOf word = some n → Renders (.number n) word
  | string {s : List Char} : ¬ stringQuote <:+: s → Renders (.string (String.ofList s)) (stringQuote ++ s ++ stringQuote)
  | array {elements : List Value} {texts : List (List Char)} :
      RendersElements elements texts → Renders (.array elements) (bracketed '[' ']' texts)
  | object {members : List (String × Value)} {texts : List (List Char)} :
      (members.map Prod.fst).Nodup → RendersMembers members texts → Renders (.object members) (bracketed '\x7b' '\x7d' texts)

inductive RendersElements : List Value → List (List Char) → Prop
  | nil : RendersElements [] []
  | cons {v : Value} {vs : List Value} {text : List Char} {texts : List (List Char)} :
      Renders v text → RendersElements vs texts → RendersElements (v :: vs) (text :: texts)

inductive RendersMembers : List (String × Value) → List (List Char) → Prop
  | nil : RendersMembers [] []
  | cons {key : String} {v : Value} {ms : List (String × Value)} {keyText text : List Char} {texts : List (List Char)} :
      RendersKey key.toList keyText → Renders v text → RendersMembers ms texts →
      RendersMembers ((key, v) :: ms) ((keyText ++ ':' :: text) :: texts)

end

end

/-! ## Keys -/

def KeyOk (key : List Char) : Prop := key ≠ [] ∧ ':' ∉ key ∧ '\x7b' ∉ key ∧ '\x7d' ∉ key

mutual

/-- The keys of every object within are ones that the parser reads. -/
def KeysOk : Value → Prop
  | .array elements => ElementsOk elements
  | .object members => MembersOk members
  | _ => True

def ElementsOk : List Value → Prop
  | [] => True
  | element :: elements => KeysOk element ∧ ElementsOk elements

def MembersOk : List (String × Value) → Prop
  | [] => True
  | (key, value) :: members => (KeyOk key.toList ∧ KeysOk value) ∧ MembersOk members

end

theorem elementsOk_iff {elements : List Value} : ElementsOk elements ↔ ∀ element ∈ elements, KeysOk element := by
  induction elements with
  | nil => simp [ElementsOk]
  | cons element elements ih => rw [ElementsOk, ih, List.forall_mem_cons]

theorem membersOk_iff {members : List (String × Value)} :
    MembersOk members ↔ ∀ m ∈ members, KeyOk m.1.toList ∧ KeysOk m.2 := by
  induction members with
  | nil => simp [MembersOk]
  | cons m members ih => rw [MembersOk, ih, List.forall_mem_cons]

def Fits (levels : Nat) (v : Value) : Prop := KeysOk v ∧ v.depth ≤ levels

theorem fits_array_iff {levels : Nat} {elements : List Value} :
    Fits (levels + 1) (.array elements) ↔ ∀ element ∈ elements, Fits levels element := by
  rw [Fits, KeysOk, elementsOk_iff, Value.depth, Nat.add_le_add_iff_right, Value.depthElements_le_iff]
  exact ⟨fun h element hmem => ⟨h.1 element hmem, h.2 element hmem⟩,
    fun h => ⟨fun element hmem => (h element hmem).1, fun element hmem => (h element hmem).2⟩⟩

theorem fits_object_iff {levels : Nat} {members : List (String × Value)} :
    Fits (levels + 1) (.object members) ↔ ∀ m ∈ members, KeyOk m.1.toList ∧ Fits levels m.2 := by
  rw [Fits, KeysOk, membersOk_iff, Value.depth, Nat.add_le_add_iff_right, Value.depthMembers_le_iff]
  exact ⟨fun h m hm => ⟨(h.1 m hm).1, (h.1 m hm).2, h.2 m hm⟩,
    fun h => ⟨fun m hm => ⟨(h m hm).1, (h m hm).2.1⟩, fun m hm => (h m hm).2.2⟩⟩

theorem forall_mem_insertMember {P : String × Value → Prop} {members : List (String × Value)} {key : String} {value : Value}
    (hmembers : ∀ m ∈ members, P m) (hnew : P (key, value)) : ∀ m ∈ insertMember members key value, P m := by
  rw [insertMember]
  split
  · intro m hm
    obtain ⟨m', hm', rfl⟩ := List.mem_map.mp hm
    split
    · exact hnew
    · exact hmembers m' hm'
  · intro m hm
    rcases List.mem_append.mp hm with hm | hm
    · exact hmembers m hm
    · rw [List.mem_singleton] at hm
      rw [hm]
      exact hnew

/-! ## The parser answers -/

section
variable {numberOf : List Char → Option Number} {src s : List Char}

/-- What a parser of a value gives: a value that fits, and no more text than there was. -/
structure Reads (levels : Nat) (s : List Char) (v : Value) (s' : List Char) : Prop where
  fits : Fits levels v
  length_le : s'.length ≤ s.length

theorem dropWhile_length_le (p : Char → Bool) (s : List Char) : (s.dropWhile p).length ≤ s.length :=
  (List.dropWhile_sublist p).length_le

theorem skipWs_yields (src s : List Char) : Yields src s (skipWs src) () (s.dropWhile isWhitespace) := .skipWhile src s isWhitespace

theorem wordValue_fits (levels : Nat) (word : List Char) : Fits levels (wordValue numberOf word) := by
  rw [wordValue]
  split
  · exact ⟨trivial, Nat.zero_le _⟩
  · split_ifs <;> exact ⟨trivial, Nat.zero_le _⟩

theorem wordEnd_eq (s : List Char) : ∃ a b, s = a ++ b ∧ (findChar isDelimiter s).getD (size s) = size a := by
  rcases h : findChar isDelimiter s with _ | n
  · exact ⟨s, [], (List.append_nil s).symm, rfl⟩
  · obtain ⟨a, c, b, rfl, -, -, rfl⟩ := findChar_eq_some h
    exact ⟨a, c :: b, rfl, rfl⟩

theorem bareWord_sound (levels : Nat) (src s : List Char) : Sound src s (bareWord numberOf src) (Reads levels s) := by
  obtain ⟨a, b, rfl, hstop⟩ := wordEnd_eq s
  refine Sound.get fun pos => (Yields.restOf src (a ++ b)).sound_bind ?_
  dsimp only
  rw [hstop]
  refine (Yields.sliceTo rfl).sound_bind ?_
  split
  · exact .throw _
  · refine (Yields.advance rfl).sound_bind ?_
    refine (Yields.pure _).sound ⟨wordValue_fits levels _, ?_⟩
    rw [List.length_append]
    omega

theorem expect_sound (c : Char) (src s : List Char) : Sound src s (expect src c) fun _ s' => s = c :: s' := by
  refine Sound.get fun pos => (Yields.peek src s).sound_bind ?_
  split
  case isTrue hhead =>
    obtain ⟨rest, rfl⟩ := List.head?_eq_some_iff.mp hhead
    exact (Yields.advance (a := [c]) (by simp)).sound rfl
  case isFalse => exact .throw _

theorem valueWith_sound {dict array : Parsing.Parser Value} {levels : Nat} (hdict : Sound src s dict (Reads levels s))
    (harray : Sound src s array (Reads levels s)) : Sound src s (valueWith numberOf src dict array) (Reads levels s) := by
  refine (Yields.restOf src s).sound_bind ?_
  rcases hquote : s.dropPrefix? stringQuote with _ | body
  · refine (Yields.peek src s).sound_bind ?_
    split
    · exact hdict
    · split
      · exact harray
      · exact bareWord_sound levels src s
  · refine Sound.get fun pos => ?_
    obtain ⟨quote, rfl, hsame⟩ := List.dropPrefix?_eq_some_iff.mp hquote
    obtain rfl := eq_of_beq hsame
    rcases hstop : findText stringQuote body with _ | stop
    · exact .throw _
    · obtain ⟨a, b, rfl, rfl⟩ := findText_eq_some hstop
      have hall : stringQuote ++ (a ++ stringQuote ++ b) = (stringQuote ++ a ++ stringQuote) ++ b := by simp
      dsimp only
      rw [hall]
      refine (Yields.advance (by simp only [size_append]; omega)).sound_bind ?_
      rw [List.append_assoc a]
      refine (Yields.sliceTo rfl).sound_bind ?_
      refine (Yields.pure _).sound ⟨⟨trivial, Nat.zero_le _⟩, ?_⟩
      simp only [List.length_append]
      omega

theorem mem_of_mem_trim {c : Char} (h : c ∈ trim s) : c ∈ s := by
  have hstart := (List.dropWhile_sublist isWhitespace (l := s)).subset
  have hend := (List.dropWhile_sublist isWhitespace (l := (trimStart s).reverse)).subset
  exact hstart (List.mem_reverse.mp (hend (List.mem_reverse.mp h)))

theorem mem_of_mem_unquoted {c : Char} (h : c ∈ unquoted s) : c ∈ s := by
  rw [unquoted] at h
  rcases hstart : s.dropPrefix? stringQuote with _ | body
  · rwa [hstart] at h
  · obtain ⟨quote, rfl, -⟩ := List.dropPrefix?_eq_some_iff.mp hstart
    rw [hstart, Option.bind_some] at h
    rcases hend : body.dropSuffix? stringQuote with _ | key
    · rwa [hend] at h
    · obtain ⟨quote', rfl, -⟩ := List.dropSuffix?_eq_some_iff.mp hend
      rw [hend, Option.getD_some] at h
      exact List.mem_append_right _ (List.mem_append_left _ h)

theorem keyOk_of_check {key : List Char} (hcheck : ¬ (key.isEmpty = true ∨ '\x7b' ∈ key ∨ '\x7d' ∈ key)) (hcolon : ':' ∉ key) :
    KeyOk key := by
  rw [not_or, not_or, List.isEmpty_iff] at hcheck
  exact ⟨hcheck.1, hcolon, hcheck.2.1, hcheck.2.2⟩

theorem members_sound {value : Parsing.Parser Value} {levels : Nat} (hvalue : ∀ s, Sound src s value (Reads levels s)) (rounds : Nat) (s : List Char)
    {map : List (String × Value)} (hrounds : s.length < rounds) (hmap : ∀ m ∈ map, KeyOk m.1.toList ∧ Fits levels m.2) :
    Sound src s (members src value rounds map) (Reads (levels + 1) s) := by
  induction rounds generalizing s map with
  | zero => exact absurd hrounds (Nat.not_lt_zero _)
  | succ rounds ih =>
    refine Sound.get fun pos => (Yields.restOf src s).sound_bind ?_
    rcases hcolon : findChar (· == ':') s with _ | colon
    · exact .throw _
    · obtain ⟨a, c, b, rfl, ha, hc, rfl⟩ := findChar_eq_some hcolon
      obtain rfl := eq_of_beq hc
      dsimp only
      refine (Yields.sliceTo rfl).sound_bind ?_
      split
      case isTrue => exact .throw _
      case isFalse hcheck =>
        have hkey : KeyOk (unquoted (trim a)) := by
          refine keyOk_of_check hcheck fun hmem => ?_
          have hnot := ha ':' (mem_of_mem_trim (mem_of_mem_unquoted hmem))
          cases hnot
        have hall : a ++ ':' :: b = (a ++ [':']) ++ b := by simp
        rw [hall]
        refine (Yields.advance (by rw [size_append]; rfl)).sound_bind ((skipWs_yields src b).sound_bind ?_)
        refine (hvalue _).bind fun v s₁ hv => (skipWs_yields src s₁).sound_bind (Sound.get fun pos => ?_)
        have hlength : (s₁.dropWhile isWhitespace).length ≤ b.length :=
          (dropWhile_length_le _ _).trans (hv.length_le.trans (dropWhile_length_le _ _))
        have hmap' : ∀ m ∈ insertMember map (String.ofList (unquoted (trim a))) v, KeyOk m.1.toList ∧ Fits levels m.2 :=
          forall_mem_insertMember hmap ⟨by rwa [String.toList_ofList], hv.fits⟩
        simp only [List.length_append, List.length_cons] at hrounds
        refine (Yields.peek src _).sound_bind ?_
        split
        case isTrue hcomma =>
          obtain ⟨rest, hrest⟩ := List.head?_eq_some_iff.mp hcomma
          rw [hrest, List.length_cons] at hlength
          rw [hrest]
          refine (Yields.advance (a := [',']) rfl).sound_bind ((skipWs_yields src rest).sound_bind ?_)
          have hshort := dropWhile_length_le isWhitespace rest
          refine (ih _ (by omega) hmap').weaken fun v s' hv' => ⟨hv'.fits, ?_⟩
          have hle := hv'.length_le
          simp only [List.length_append, List.length_cons, List.length_nil]
          omega
        case isFalse =>
          split
          case isTrue hbrace =>
            obtain ⟨rest, hrest⟩ := List.head?_eq_some_iff.mp hbrace
            rw [hrest, List.length_cons] at hlength
            rw [hrest]
            refine (Yields.advance (a := ['\x7d']) rfl).sound_bind ((Yields.pure _).sound ⟨fits_object_iff.mpr hmap', ?_⟩)
            simp only [List.length_append, List.length_cons, List.length_nil]
            omega
          case isFalse => exact .throw _

theorem dict_sound {value : Parsing.Parser Value} {levels : Nat} (hvalue : ∀ s, Sound src s value (Reads levels s)) (s : List Char) :
    Sound src s (dict src value) (Reads (levels + 1) s) := by
  refine (expect_sound '\x7b' src s).bind fun _ s₁ hs₁ => (skipWs_yields src s₁).sound_bind ((Yields.peek src _).sound_bind ?_)
  have hlength := dropWhile_length_le isWhitespace s₁
  subst hs₁
  split
  case isTrue hbrace =>
    obtain ⟨rest, hrest⟩ := List.head?_eq_some_iff.mp hbrace
    rw [hrest, List.length_cons] at hlength
    rw [hrest]
    refine (Yields.advance (a := ['\x7d']) rfl).sound_bind ((Yields.pure _).sound ⟨⟨trivial, Nat.succ_le_succ (Nat.zero_le _)⟩, ?_⟩)
    rw [List.length_cons]
    omega
  case isFalse =>
    refine (Yields.restOf src _).sound_bind ((members_sound hvalue _ _ (Nat.lt_succ_self _) (fun _ h => absurd h List.not_mem_nil)).weaken ?_)
    intro v s' hv
    exact ⟨hv.fits, (hv.length_le.trans hlength).trans (by rw [List.length_cons]; omega)⟩

theorem items_sound {value : Parsing.Parser Value} {levels : Nat} (hvalue : ∀ s, Sound src s value (Reads levels s)) (rounds : Nat) (s : List Char)
    {elements : List Value} (hrounds : s.length < rounds) (helements : ∀ element ∈ elements, Fits levels element) :
    Sound src s (items src value rounds elements) (Reads (levels + 1) s) := by
  induction rounds generalizing s elements with
  | zero => exact absurd hrounds (Nat.not_lt_zero _)
  | succ rounds ih =>
    refine (hvalue s).bind fun v s₁ hv => (skipWs_yields src s₁).sound_bind (Sound.get fun pos => ?_)
    have hlength : (s₁.dropWhile isWhitespace).length ≤ s.length := (dropWhile_length_le _ _).trans hv.length_le
    have helements' : ∀ element ∈ elements ++ [v], Fits levels element := by
      intro element hmem
      rcases List.mem_append.mp hmem with hmem | hmem
      · exact helements element hmem
      · rw [List.mem_singleton] at hmem
        exact hmem ▸ hv.fits
    refine (Yields.peek src _).sound_bind ?_
    split
    case isTrue hcomma =>
      obtain ⟨rest, hrest⟩ := List.head?_eq_some_iff.mp hcomma
      rw [hrest, List.length_cons] at hlength
      rw [hrest]
      refine (Yields.advance (a := [',']) rfl).sound_bind ((skipWs_yields src rest).sound_bind ?_)
      have hshort := dropWhile_length_le isWhitespace rest
      refine (ih _ (by omega) helements').weaken fun v s' hv' => ⟨hv'.fits, ?_⟩
      have hle := hv'.length_le
      omega
    case isFalse =>
      split
      case isTrue hbracket =>
        obtain ⟨rest, hrest⟩ := List.head?_eq_some_iff.mp hbracket
        rw [hrest, List.length_cons] at hlength
        rw [hrest]
        exact (Yields.advance (a := [']']) rfl).sound_bind ((Yields.pure _).sound ⟨fits_array_iff.mpr helements', by omega⟩)
      case isFalse => exact .throw _

theorem array_sound {value : Parsing.Parser Value} {levels : Nat} (hvalue : ∀ s, Sound src s value (Reads levels s)) (s : List Char) :
    Sound src s (array src value) (Reads (levels + 1) s) := by
  refine (expect_sound '[' src s).bind fun _ s₁ hs₁ => (skipWs_yields src s₁).sound_bind ((Yields.peek src _).sound_bind ?_)
  have hlength := dropWhile_length_le isWhitespace s₁
  subst hs₁
  split
  case isTrue hbracket =>
    obtain ⟨rest, hrest⟩ := List.head?_eq_some_iff.mp hbracket
    rw [hrest, List.length_cons] at hlength
    rw [hrest]
    refine (Yields.advance (a := [']']) rfl).sound_bind ((Yields.pure _).sound ⟨⟨trivial, Nat.succ_le_succ (Nat.zero_le _)⟩, ?_⟩)
    rw [List.length_cons]
    omega
  case isFalse =>
    refine (Yields.restOf src _).sound_bind ((items_sound hvalue _ _ (Nat.lt_succ_self _) (fun _ h => absurd h List.not_mem_nil)).weaken ?_)
    intro v s' hv
    exact ⟨hv.fits, (hv.length_le.trans hlength).trans (by rw [List.length_cons]; omega)⟩

/-- **A value** is read without a panic, whatever the text. -/
theorem value_sound (levels : Nat) (s : List Char) : Sound src s (value numberOf src levels) (Reads levels s) := by
  induction levels generalizing s with
  | zero => exact valueWith_sound (.throw _) (.throw _)
  | succ levels ih => exact valueWith_sound (dict_sound ih s) (array_sound ih s)

/-! ## Numbers -/

theorem digits_append {ds b : List Char} (hds : Digits ds) (hb : b.head?.any Char.isDigit = false) : digits (ds ++ b) = some b := by
  obtain ⟨d, ds', rfl⟩ := List.exists_cons_of_ne_nil hds.1
  have hdrop : (d :: ds' ++ b).dropWhile Char.isDigit = b := by
    rw [List.dropWhile_append_of_pos hds.2]
    rcases b with _ | ⟨c, b⟩
    · rfl
    · exact List.dropWhile_cons_of_neg (by simpa using hb)
  rw [digits, if_pos, hdrop]
  simpa using hds.2 d List.mem_cons_self

theorem exponent_head {exponent : List Char} (h : exponent = [] ∨ ∃ e sign ds, exponent = e :: (sign ++ ds) ∧ (e = 'e' ∨ e = 'E') ∧
    (sign = [] ∨ sign = ['+'] ∨ sign = ['-']) ∧ Digits ds) :
    exponent.head?.any Char.isDigit = false ∧ exponent.head? ≠ some '.' ∧ exponentPart exponent = some [] := by
  rcases h with rfl | ⟨e, sign, ds, rfl, he, hsign, hds⟩
  · exact ⟨rfl, by simp, rfl⟩
  · have hdigits : digits ds = some [] := by
      rw [← List.append_nil ds]
      exact digits_append hds rfl
    obtain ⟨d, ds', rfl⟩ := List.exists_cons_of_ne_nil hds.1
    have hd := hds.2 d List.mem_cons_self
    have hplus : d ≠ '+' ∧ d ≠ '-' := ⟨(by rintro rfl; cases hd), (by rintro rfl; cases hd)⟩
    have hhead : (e :: (sign ++ d :: ds')).head? = some 'e' ∨ (e :: (sign ++ d :: ds')).head? = some 'E' := by simpa using he
    refine ⟨by rcases he with rfl | rfl <;> rfl, by rcases he with rfl | rfl <;> simp, ?_⟩
    rw [exponentPart, if_pos hhead, ← hdigits]
    rcases hsign with rfl | rfl | rfl
    · simp [hplus]
    · simp
    · simp

theorem JsonNumber.isJsonNumber {word : List Char} (h : JsonNumber word) : isJsonNumber word = true := by
  obtain ⟨sign, int, fraction, exponent, rfl, hsign, hint, hfraction, hexponent⟩ := h
  obtain ⟨hdigit, hdot, hend⟩ := exponent_head hexponent
  have hbehind : (fraction ++ exponent).head?.any Char.isDigit = false := by
    rcases hfraction with rfl | ⟨ds, rfl, -⟩
    · exact hdigit
    · rfl
  have hfrac : fractionPart (fraction ++ exponent) = some exponent := by
    rcases hfraction with rfl | ⟨ds, rfl, hds⟩
    · rw [fractionPart, List.nil_append, if_neg hdot]
    · rw [fractionPart, List.cons_append, List.head?_cons, if_pos rfl, List.drop_succ_cons, List.drop_zero, digits_append hds hdigit]
  have hintPart : intPart (int ++ (fraction ++ exponent)) = some (fraction ++ exponent) ∧
      (int ++ (fraction ++ exponent)).head? ≠ some '-' := by
    rcases hint with rfl | ⟨d, ds, rfl, hzero, hds⟩
    · exact ⟨rfl, by simp⟩
    · have hall := digits_append ⟨List.cons_ne_nil d ds, hds⟩ hbehind
      have hd := hds d List.mem_cons_self
      constructor
      · rw [List.cons_append, intPart, if_neg hzero, if_pos hd]
        rw [digits, List.cons_append, List.head?_cons, Option.any_some, if_pos hd, List.dropWhile_cons_of_pos hd] at hall
        exact hall
      · rw [List.cons_append, List.head?_cons, Ne, Option.some_inj]
        rintro rfl
        cases hd
  have hword : (if (sign ++ (int ++ (fraction ++ exponent))).head? = some '-' then
      (sign ++ (int ++ (fraction ++ exponent))).drop 1 else sign ++ (int ++ (fraction ++ exponent))) =
      int ++ (fraction ++ exponent) := by
    rcases hsign with rfl | rfl
    · rw [List.nil_append, if_neg hintPart.2]
    · rfl
  rw [Calls.isJsonNumber, hword, hintPart.1, Option.bind_some, hfrac, Option.bind_some, hend]
  rfl

theorem JsonNumber.numeric {word : List Char} (h : JsonNumber word) : ∀ c ∈ word, isNumeric c = true := by
  have hdigit {c : Char} (hc : c.isDigit = true) : isNumeric c = true := by rw [isNumeric, hc, Bool.true_or]
  have hdigits {ds : List Char} (hds : Digits ds) : ∀ c ∈ ds, isNumeric c = true := fun c hc => hdigit (hds.2 c hc)
  obtain ⟨sign, int, fraction, exponent, rfl, hsign, hint, hfraction, hexponent⟩ := h
  simp only [List.forall_mem_append]
  refine ⟨?_, ?_, ?_, ?_⟩
  · rcases hsign with rfl | rfl <;> exact List.all_eq_true.mp (by decide)
  · rcases hint with rfl | ⟨d, ds, rfl, -, hds⟩
    · exact List.all_eq_true.mp (by decide)
    · exact fun c hc => hdigit (hds c hc)
  · rcases hfraction with rfl | ⟨ds, rfl, hds⟩
    · exact List.forall_mem_nil _
    · exact List.forall_mem_cons.mpr ⟨by decide, hdigits hds⟩
  · rcases hexponent with rfl | ⟨e, sign, ds, rfl, he, hsign, hds⟩
    · exact List.forall_mem_nil _
    · refine List.forall_mem_cons.mpr ⟨by rcases he with rfl | rfl <;> decide, List.forall_mem_append.mpr ⟨?_, hdigits hds⟩⟩
      rcases hsign with rfl | rfl | rfl <;> exact List.all_eq_true.mp (by decide)

theorem JsonNumber.ne_nil {word : List Char} (h : JsonNumber word) : word ≠ [] := by
  obtain ⟨sign, int, fraction, exponent, rfl, -, hint, -, -⟩ := h
  rcases hint with rfl | ⟨d, ds, rfl, -, -⟩ <;> simp

/-! ## What is rendered is read back -/

def Ends (tail : List Char) : Prop := ∀ c ∈ tail.head?, isDelimiter c = true

theorem isWhitespace_of_isNumeric {c : Char} (h : isNumeric c = true) : isWhitespace c = false ∧ isDelimiter c = false := by
  rw [isNumeric, Bool.or_eq_true] at h
  rcases h with h | h
  · have hrange : 48 ≤ c.toNat ∧ c.toNat ≤ 57 := by
      rw [Char.isDigit, Bool.and_eq_true, decide_eq_true_eq, decide_eq_true_eq] at h
      exact h
    constructor
    · simp only [isWhitespace, Bool.or_eq_false_iff, Bool.and_eq_false_iff, decide_eq_false_iff_not, beq_eq_false_iff_ne]
      omega
    · have hne {d : Char} (hd : d.toNat < 48 ∨ 57 < d.toNat) : (c == d) = false := by
        rw [beq_eq_false_iff_ne]
        rintro rfl
        omega
      rw [isDelimiter, hne (by decide), hne (by decide), hne (by decide)]
      rfl
  · have hmark := List.contains_iff_mem.mp h
    simp only [List.mem_cons, List.not_mem_nil, or_false] at hmark
    rcases hmark with rfl | rfl | rfl | rfl | rfl <;> exact ⟨by decide, by decide⟩

theorem bareWord_yields {word tail : List Char} (hword : word ≠ []) (hends : Ends tail) (htrim : trimEnd word = word)
    (hdelimiter : ∀ c ∈ word, isDelimiter c = false) :
    Yields src (word ++ tail) (bareWord numberOf src) (wordValue numberOf word) tail := by
  have hstop : (findChar isDelimiter (word ++ tail)).getD (size (word ++ tail)) = size word := by
    rcases tail with _ | ⟨c, tail⟩
    · have hnone : findChar isDelimiter word = none := by
        rw [findChar, if_neg]
        simpa using hdelimiter
      rw [List.append_nil, hnone, Option.getD_none]
    · rw [findChar_append hdelimiter (hends c rfl), Option.getD_some]
  refine Yields.get fun pos => (Yields.restOf src _).bind ?_
  dsimp only
  rw [hstop]
  refine (Yields.sliceTo rfl).bind ?_
  rw [htrim, if_neg (by simpa using hword)]
  exact (Yields.advance rfl).bind (.pure _)

def Starts (closing : Char) (text : List Char) : Prop := ∃ c rest, text = c :: rest ∧ isWhitespace c = false ∧ c ≠ closing

theorem Starts.skipWs {closing : Char} {text : List Char} (h : Starts closing text) (tail : List Char) :
    Yields src (text ++ tail) (skipWs src) () (text ++ tail) := by
  obtain ⟨c, rest, rfl, hc, -⟩ := h
  have hall := skipWs_yields src (c :: rest ++ tail)
  rwa [List.cons_append, List.dropWhile_cons_of_neg (by simp [hc])] at hall

theorem Starts.head {closing : Char} {text : List Char} (h : Starts closing text) (tail : List Char) :
    (text ++ tail).head? ≠ some closing := by
  obtain ⟨c, rest, rfl, -, hc⟩ := h
  simpa using hc

theorem skipWs_delimiter {c : Char} (hc : isDelimiter c = true) (rest : List Char) :
    Yields src (c :: rest) (skipWs src) () (c :: rest) := by
  have hwhite : isWhitespace c = false := by
    rw [isDelimiter, Bool.or_eq_true, Bool.or_eq_true, beq_iff_eq, beq_iff_eq, beq_iff_eq] at hc
    rcases hc with (rfl | rfl) | rfl <;> decide
  have hall := skipWs_yields src (c :: rest)
  rwa [List.dropWhile_cons_of_neg (by simp [hwhite])] at hall

theorem dropPrefix?_quote {c : Char} (hc : c ≠ '<') (rest : List Char) : (c :: rest).dropPrefix? stringQuote = none := by
  rw [stringQuote, List.dropPrefix?, if_neg]
  simpa using hc

theorem valueWith_word {dict array : Parsing.Parser Value} {word tail : List Char} (hword : ∃ c rest, word = c :: rest ∧ c ≠ '<' ∧
    c ≠ '\x7b' ∧ c ≠ '[') (hends : Ends tail) (htrim : trimEnd word = word) (hdelimiter : ∀ c ∈ word, isDelimiter c = false) :
    Yields src (word ++ tail) (valueWith numberOf src dict array) (wordValue numberOf word) tail := by
  obtain ⟨c, rest, rfl, hquote, hbrace, hbracket⟩ := hword
  have hnone : (c :: rest ++ tail).dropPrefix? stringQuote = none := dropPrefix?_quote hquote _
  refine (Yields.restOf src _).bind ?_
  rw [hnone]
  refine (Yields.peek src _).bind ?_
  rw [if_neg (by simpa using hbrace), if_neg (by simpa using hbracket)]
  exact bareWord_yields (List.cons_ne_nil _ _) hends htrim hdelimiter

theorem valueWith_string {dict array : Parsing.Parser Value} {s tail : List Char} (hs : ¬ stringQuote <:+: s) :
    Yields src (stringQuote ++ s ++ stringQuote ++ tail) (valueWith numberOf src dict array) (.string (String.ofList s)) tail := by
  have hbody : (stringQuote ++ s ++ stringQuote ++ tail).dropPrefix? stringQuote = some (s ++ stringQuote ++ tail) := by
    rw [List.append_assoc, List.append_assoc, List.dropPrefix?_append_of_beq _ (beq_self_eq_true _), List.append_assoc]
  have hstop : findText stringQuote (s ++ stringQuote ++ tail) = some (size s) := findText_append (by decide) hs tail
  refine (Yields.restOf src _).bind ?_
  rw [hbody]
  refine Yields.get fun pos => ?_
  rw [hstop]
  refine (Yields.advance (by simp only [size_append]; omega)).bind ?_
  rw [List.append_assoc]
  exact (Yields.sliceTo rfl).bind (.pure _)

/-- A value that is read back from its text, in an array. -/
structure Item (src : List Char) (value : Parsing.Parser Value) (v : Value) (text : List Char) : Prop where
  yields : ∀ tail, Ends tail → Yields src (text ++ tail) value v tail
  starts : Starts ']' text

theorem ends_separated {α : Type} (encode : α → List Char) {closing : Char} (hclosing : isDelimiter closing = true) (as : List α)
    (tail : List Char) : Ends (separated encode closing as ++ tail) := by
  rintro c hc
  rcases as with _ | ⟨a, as⟩
  · obtain rfl := Option.some.inj hc
    exact hclosing
  · obtain rfl := Option.some.inj hc
    rfl

theorem length_le_separated {α : Type} (encode : α → List Char) (closing : Char) (as : List α) :
    as.length ≤ (separated encode closing as).length := by
  induction as with
  | nil => exact Nat.zero_le _
  | cons a as ih =>
    simp only [separated, List.flatMap_cons, List.length_append, List.length_cons, List.length_nil] at ih ⊢
    omega

theorem items_yields {value : Parsing.Parser Value} {v : Value} {vs : List Value} {text : List Char} {texts : List (List Char)}
    (hv : Item src value v text) (hvs : List.Forall₂ (Item src value) vs texts) {rounds : Nat} (hrounds : texts.length < rounds)
    (elements : List Value) (tail : List Char) :
    Yields src (text ++ (separated id ']' texts ++ tail)) (items src value rounds elements) (.array (elements ++ v :: vs)) tail := by
  induction hvs generalizing v text rounds elements with
  | nil =>
    obtain ⟨rounds, rfl⟩ := Nat.exists_eq_succ_of_ne_zero (Nat.ne_zero_of_lt hrounds)
    refine (hv.yields _ (ends_separated id rfl [] tail)).bind ((skipWs_delimiter rfl tail).bind (Yields.get fun pos => ?_))
    refine (Yields.peek src _).bind ?_
    exact (Yields.advance (a := [']']) rfl).bind (.pure _)
  | @cons w text' ws texts hw _ ih =>
    obtain ⟨rounds, rfl⟩ := Nat.exists_eq_succ_of_ne_zero (Nat.ne_zero_of_lt hrounds)
    have hsplit : separated id ']' (text' :: texts) ++ tail = [','] ++ (text' ++ (separated id ']' texts ++ tail)) := by
      simp [separated]
    refine (hv.yields _ (ends_separated id rfl _ tail)).bind ?_
    rw [hsplit]
    refine (skipWs_delimiter rfl _).bind (Yields.get fun pos => (Yields.peek src _).bind ?_)
    refine (Yields.advance (a := [',']) rfl).bind ((hw.starts.skipWs _).bind ?_)
    have hrest := ih hw (Nat.lt_of_succ_lt_succ hrounds) (elements ++ [v])
    rwa [List.append_assoc] at hrest

theorem expect_yields (c : Char) (src rest : List Char) : Yields src (c :: rest) (expect src c) () rest := by
  refine Yields.get fun pos => (Yields.peek src _).bind ?_
  rw [if_pos (List.head?_cons)]
  exact Yields.advance (a := [c]) (by simp)

theorem array_yields {value : Parsing.Parser Value} {vs : List Value} {texts : List (List Char)}
    (hvs : List.Forall₂ (Item src value) vs texts) (tail : List Char) :
    Yields src (bracketed '[' ']' texts ++ tail) (array src value) (.array vs) tail := by
  cases hvs with
  | nil =>
    refine (expect_yields '[' src (']' :: tail)).bind ((skipWs_delimiter rfl tail).bind ((Yields.peek src _).bind ?_))
    exact (Yields.advance (a := [']']) rfl).bind (.pure _)
  | @cons v text vs texts hv hvs =>
    have htext : bracketed '[' ']' (text :: texts) ++ tail = '[' :: (text ++ (separated id ']' texts ++ tail)) := by
      have hcons := bracketed_cons id '[' ']' text texts
      rw [List.map_id] at hcons
      rw [hcons, List.cons_append, List.append_assoc]
      rfl
    rw [htext]
    refine (expect_yields '[' src _).bind ((hv.starts.skipWs _).bind ((Yields.peek src _).bind ?_))
    rw [if_neg (hv.starts.head _)]
    refine (Yields.restOf src _).bind (items_yields hv hvs ?_ [] tail)
    have hlength := length_le_separated id ']' texts
    simp only [List.length_append]
    omega

/-! ## Keys that are read back -/

theorem trimEnd_eq_self {c : Char} (h : isWhitespace c = false) (s : List Char) : trimEnd (s ++ [c]) = s ++ [c] := by
  rw [trimEnd, List.reverse_append, List.reverse_singleton, List.singleton_append, List.dropWhile_cons_of_neg (by simp [h]),
    List.reverse_cons, List.reverse_reverse]

theorem head_of_trim {c : Char} {rest : List Char} (h : trim (c :: rest) = c :: rest) : isWhitespace c = false := by
  by_contra hc
  rw [Bool.not_eq_false] at hc
  have hlength := congrArg List.length h
  rw [trim, trimStart, trimEnd, List.dropWhile_cons_of_pos hc, List.length_reverse, List.length_cons] at hlength
  have hend := dropWhile_length_le isWhitespace (rest.dropWhile isWhitespace).reverse
  have hstart := dropWhile_length_le isWhitespace rest
  rw [List.length_reverse] at hend
  omega

/-- What is relied on of the text of a key. -/
structure KeyText (key keyText : List Char) : Prop where
  noColon : ∀ c ∈ keyText, (c == ':') = false
  trimmed : trim keyText = keyText
  reads : unquoted keyText = key
  starts : Starts '\x7d' keyText

theorem RendersKey.keyText {key keyText : List Char} (h : RendersKey key keyText) (hkey : KeyOk key) : KeyText key keyText := by
  obtain ⟨hne, hcolon, -, hbrace⟩ := hkey
  have hnot {c : Char} (hc : c ∈ key) : (c == ':') = false := by
    rw [beq_eq_false_iff_ne]
    rintro rfl
    exact hcolon hc
  cases h with
  | bare hquote htrim =>
    obtain ⟨c, rest, rfl⟩ := List.exists_cons_of_ne_nil hne
    refine ⟨fun c => hnot, htrim, ?_, c, rest, rfl, head_of_trim htrim, ?_⟩
    · have hnone : (c :: rest).dropPrefix? stringQuote = none := by
        rcases hfound : (c :: rest).dropPrefix? stringQuote with _ | body
        · rfl
        · obtain ⟨quote, heq, hsame⟩ := List.dropPrefix?_eq_some_iff.mp hfound
          obtain rfl := eq_of_beq hsame
          exact absurd ⟨[], body, heq.symm⟩ hquote
      rw [unquoted, hnone]
      rfl
    · rintro rfl
      exact hbrace List.mem_cons_self
  | quoted hquote =>
    refine ⟨?_, ?_, ?_, '<', ['|', '"', '|', '>'] ++ key ++ stringQuote, rfl, by decide, by decide⟩
    · have hmark : ∀ c ∈ stringQuote, (c == ':') = false := by
        have hall : stringQuote.all (· != ':') = true := by decide
        exact fun c hc => Bool.not_eq_true' _ ▸ List.all_eq_true.mp hall c hc
      simp only [List.forall_mem_append]
      exact ⟨⟨hmark, fun c => hnot⟩, hmark⟩
    · have hstart : trimStart (stringQuote ++ key ++ stringQuote) = stringQuote ++ key ++ stringQuote :=
        List.dropWhile_cons_of_neg (by decide)
      have hend : stringQuote ++ key ++ stringQuote = stringQuote ++ key ++ ['<', '|', '"', '|'] ++ ['>'] := by
        rw [List.append_assoc _ ['<', '|', '"', '|']]
        rfl
      rw [trim, hstart, hend, trimEnd_eq_self (by decide)]
    · have hbody : (stringQuote ++ key ++ stringQuote).dropPrefix? stringQuote = some (key ++ stringQuote) := by
        rw [List.append_assoc, List.dropPrefix?_append_of_beq _ (beq_self_eq_true _)]
      have hkey : (key ++ stringQuote).dropSuffix? stringQuote = some key :=
        List.dropSuffix?_eq_some_iff.mpr ⟨stringQuote, rfl, beq_self_eq_true _⟩
      rw [unquoted, hbody, Option.bind_some, hkey]
      rfl

/-! ## Objects -/

/-- A member that is read back from its text. -/
structure Member (src : List Char) (value : Parsing.Parser Value) (m : String × Value) (text : List Char) : Prop where
  parts : ∃ keyText valueText, text = keyText ++ ':' :: valueText ∧ KeyText m.1.toList keyText ∧ KeyOk m.1.toList ∧
    Item src value m.2 valueText

theorem Member.starts {value : Parsing.Parser Value} {m : String × Value} {text : List Char} (h : Member src value m text) :
    Starts '\x7d' text := by
  obtain ⟨keyText, valueText, rfl, hkey, -, -⟩ := h.parts
  obtain ⟨c, rest, rfl, hc, hne⟩ := hkey.starts
  exact ⟨c, rest ++ ':' :: valueText, rfl, hc, hne⟩

theorem insertMember_new {map : List (String × Value)} {key : String} {v : Value} (h : key ∉ map.map Prod.fst) :
    insertMember map key v = map ++ [(key, v)] := by
  rw [insertMember, if_neg]
  rw [List.any_eq_true]
  rintro ⟨m, hm, heq⟩
  exact h (List.mem_map.mpr ⟨m, hm, eq_of_beq heq⟩)

theorem members_yields {value : Parsing.Parser Value} {m : String × Value} {ms : List (String × Value)} {text : List Char}
    {texts : List (List Char)} (hm : Member src value m text) (hms : List.Forall₂ (Member src value) ms texts) {rounds : Nat}
    (hrounds : texts.length < rounds) (map : List (String × Value)) (hkeys : ((map ++ m :: ms).map Prod.fst).Nodup)
    (tail : List Char) :
    Yields src (text ++ (separated id '\x7d' texts ++ tail)) (members src value rounds map) (.object (map ++ m :: ms)) tail := by
  induction rounds generalizing m ms text texts map with
  | zero => exact absurd hrounds (Nat.not_lt_zero _)
  | succ rounds ih =>
    obtain ⟨keyText, valueText, rfl, hkey, hok, hvalue⟩ := hm.parts
    have hends : Ends (separated id '\x7d' texts ++ tail) := ends_separated id rfl texts tail
    have hnew : m.1 ∉ map.map Prod.fst := by
      rw [List.map_append, List.map_cons] at hkeys
      have hmiddle := List.nodup_middle.mp hkeys
      exact fun hmem => (List.nodup_cons.mp hmiddle).1 (List.mem_append_left _ hmem)
    have hcheck : ¬ (m.1.toList.isEmpty = true ∨ '\x7b' ∈ m.1.toList ∨ '\x7d' ∈ m.1.toList) := by
      rw [List.isEmpty_iff, not_or, not_or]
      exact ⟨hok.1, hok.2.2.1, hok.2.2.2⟩
    have hcolon {rest : List Char} : findChar (· == ':') (keyText ++ ':' :: rest) = some (size keyText) :=
      findChar_append hkey.noColon rfl
    have htext (rest : List Char) : keyText ++ ':' :: rest = (keyText ++ [':']) ++ rest := by simp
    refine Yields.get fun pos => (Yields.restOf src _).bind ?_
    rw [List.append_assoc, List.cons_append, hcolon]
    refine (Yields.sliceTo rfl).bind ?_
    rw [hkey.trimmed]
    dsimp only
    rw [hkey.reads, if_neg hcheck, htext]
    refine (Yields.advance (by rw [size_append]; rfl)).bind ((hvalue.starts.skipWs _).bind ?_)
    refine (hvalue.yields _ hends).bind ?_
    rw [String.ofList_toList, insertMember_new hnew]
    cases hms with
    | nil =>
      refine (skipWs_delimiter rfl tail).bind (Yields.get fun pos => (Yields.peek src _).bind ?_)
      exact (Yields.advance (a := ['\x7d']) rfl).bind (.pure _)
    | @cons m' text' ms texts hm' hms =>
      have hsplit : separated id '\x7d' (text' :: texts) ++ tail = [','] ++ (text' ++ (separated id '\x7d' texts ++ tail)) := by
        simp [separated]
      rw [hsplit]
      refine (skipWs_delimiter rfl _).bind (Yields.get fun pos => (Yields.peek src _).bind ?_)
      refine (Yields.advance (a := [',']) rfl).bind ((hm'.starts.skipWs _).bind ?_)
      have hrest := ih hm' hms (Nat.lt_of_succ_lt_succ hrounds) (map ++ [m]) (by rwa [List.append_assoc])
      rwa [List.append_assoc] at hrest

theorem dict_yields {value : Parsing.Parser Value} {ms : List (String × Value)} {texts : List (List Char)}
    (hms : List.Forall₂ (Member src value) ms texts) (hkeys : (ms.map Prod.fst).Nodup) (tail : List Char) :
    Yields src (bracketed '\x7b' '\x7d' texts ++ tail) (dict src value) (.object ms) tail := by
  cases hms with
  | nil =>
    refine (expect_yields '\x7b' src ('\x7d' :: tail)).bind ((skipWs_delimiter rfl tail).bind ((Yields.peek src _).bind ?_))
    exact (Yields.advance (a := ['\x7d']) rfl).bind (.pure _)
  | @cons m text ms texts hm hms =>
    have htext : bracketed '\x7b' '\x7d' (text :: texts) ++ tail = '\x7b' :: (text ++ (separated id '\x7d' texts ++ tail)) := by
      have hcons := bracketed_cons id '\x7b' '\x7d' text texts
      rw [List.map_id] at hcons
      rw [hcons, List.cons_append, List.append_assoc]
      rfl
    rw [htext]
    refine (expect_yields '\x7b' src _).bind ((hm.starts.skipWs _).bind ((Yields.peek src _).bind ?_))
    rw [if_neg (hm.starts.head _)]
    refine (Yields.restOf src _).bind (members_yields hm hms ?_ [] hkeys tail)
    have hlength := length_le_separated id '\x7d' texts
    simp only [List.length_append]
    omega

/-! ## Values that are read back -/

theorem valueWith_array {dict array : Parsing.Parser Value} {v : Value} {rest tail : List Char}
    (h : Yields src ('[' :: rest) array v tail) : Yields src ('[' :: rest) (valueWith numberOf src dict array) v tail := by
  refine (Yields.restOf src _).bind ?_
  rw [dropPrefix?_quote (by decide)]
  exact (Yields.peek src _).bind h

theorem valueWith_dict {dict array : Parsing.Parser Value} {v : Value} {rest tail : List Char}
    (h : Yields src ('\x7b' :: rest) dict v tail) : Yields src ('\x7b' :: rest) (valueWith numberOf src dict array) v tail := by
  refine (Yields.restOf src _).bind ?_
  rw [dropPrefix?_quote (by decide)]
  exact (Yields.peek src _).bind h

theorem value_eq (numberOf : List Char → Option Number) (src : List Char) (levels : Nat) : ∃ dict array, value numberOf src levels = valueWith numberOf src dict array := by
  cases levels with
  | zero => exact ⟨_, _, rfl⟩
  | succ levels => exact ⟨_, _, rfl⟩

theorem word_item (word : List Char) {v : Value} (hv : wordValue numberOf word = v) (hne : word ≠ [])
    (hchars : ∀ c ∈ word, isWhitespace c = false ∧ isDelimiter c = false ∧ c ≠ '<' ∧ c ≠ '\x7b' ∧ c ≠ '[') (levels : Nat) :
    Item src (value numberOf src levels) v word := by
  obtain ⟨dict, array, hvalue⟩ := value_eq numberOf src levels
  obtain ⟨c, rest, rfl⟩ := List.exists_cons_of_ne_nil hne
  obtain ⟨hwhite, hdelimiter, hquote, hbrace, hbracket⟩ := hchars c List.mem_cons_self
  have htrim : trimEnd (c :: rest) = c :: rest := by
    obtain ⟨init, last, hlast⟩ : ∃ init last, c :: rest = init ++ [last] :=
      ⟨_, _, (List.dropLast_append_getLast (List.cons_ne_nil c rest)).symm⟩
    have hend := (hchars last (hlast ▸ List.mem_append_right _ (List.mem_singleton.mpr rfl))).1
    rw [hlast, trimEnd_eq_self hend]
  constructor
  · intro tail htail
    rw [hvalue, ← hv]
    exact valueWith_word ⟨c, rest, rfl, hquote, hbrace, hbracket⟩ htail htrim fun c hc => (hchars c hc).2.1
  · refine ⟨c, rest, rfl, hwhite, ?_⟩
    rintro rfl
    cases hdelimiter

theorem letters_item (word : List Char) {v : Value} (hv : wordValue numberOf word = v) (hne : word ≠ [])
    (hletters : word.all (fun c => !isWhitespace c && !isDelimiter c && c != '<' && c != '\x7b' && c != '[') = true) (levels : Nat) :
    Item src (value numberOf src levels) v word := by
  refine word_item word hv hne (fun c hc => ?_) levels
  simpa [and_assoc] using List.all_eq_true.mp hletters c hc

theorem value_succ {levels n : Nat} (h : n + 1 ≤ levels) : ∃ levels', levels = levels' + 1 ∧ n ≤ levels' := by
  obtain ⟨levels', rfl⟩ := Nat.exists_eq_succ_of_ne_zero (Nat.ne_zero_of_lt h)
  exact ⟨levels', rfl, Nat.le_of_succ_le_succ h⟩

theorem bracketed_starts (opening closing : Char) (texts : List (List Char)) :
    ∃ rest, bracketed opening closing texts = opening :: rest := ⟨_, rfl⟩

mutual

/-- **What is rendered** is read back, where there are levels enough and its keys can be read. -/
theorem Renders.item {v : Value} {text : List Char} (h : Renders numberOf v text) (levels : Nat) (hlevels : v.depth ≤ levels)
    (hkeys : KeysOk v) : Item src (value numberOf src levels) v text := by
  cases h with
  | null => exact letters_item ['n', 'u', 'l', 'l'] rfl (by simp) (by decide) levels
  | true => exact letters_item ['t', 'r', 'u', 'e'] rfl (by simp) (by decide) levels
  | false => exact letters_item ['f', 'a', 'l', 's', 'e'] rfl (by simp) (by decide) levels
  | @number _ n hnumber hread =>
    refine word_item _ ?_ hnumber.ne_nil (fun c hc => ?_) levels
    · rw [wordValue, hnumber.isJsonNumber, if_pos rfl, hread]
    · have hnumeric := hnumber.numeric c hc
      obtain ⟨hwhite, hdelimiter⟩ := isWhitespace_of_isNumeric hnumeric
      refine ⟨hwhite, hdelimiter, ?_, ?_, ?_⟩
      all_goals
        rintro rfl
        cases hnumeric
  | string hquote =>
    obtain ⟨dict, array, hvalue⟩ := value_eq numberOf src levels
    refine ⟨fun tail _ => ?_, '<', _, rfl, by decide, by decide⟩
    rw [hvalue]
    exact valueWith_string hquote
  | @array elements texts helements =>
    obtain ⟨levels, rfl, hdepth⟩ := value_succ hlevels
    have hitems := helements.items levels hdepth hkeys
    obtain ⟨rest, hrest⟩ := bracketed_starts '[' ']' texts
    refine ⟨fun tail _ => ?_, '[', rest, hrest, by decide, by decide⟩
    have harray := array_yields hitems tail
    rw [hrest] at harray ⊢
    exact valueWith_array harray
  | @object members texts hnodup hmembers =>
    obtain ⟨levels, rfl, hdepth⟩ := value_succ hlevels
    have hitems := hmembers.members levels hdepth hkeys
    obtain ⟨rest, hrest⟩ := bracketed_starts '\x7b' '\x7d' texts
    refine ⟨fun tail _ => ?_, '\x7b', rest, hrest, by decide, by decide⟩
    have hdict := dict_yields hitems hnodup tail
    rw [hrest] at hdict ⊢
    exact valueWith_dict hdict

theorem RendersElements.items {vs : List Value} {texts : List (List Char)} (h : RendersElements numberOf vs texts) (levels : Nat)
    (hlevels : Value.depthElements vs ≤ levels) (hkeys : ElementsOk vs) :
    List.Forall₂ (Item src (value numberOf src levels)) vs texts := by
  cases h with
  | nil => exact .nil
  | cons hv hvs =>
    exact .cons (hv.item levels ((Nat.le_max_left ..).trans hlevels) hkeys.1)
      (hvs.items levels ((Nat.le_max_right ..).trans hlevels) hkeys.2)

theorem RendersMembers.members {ms : List (String × Value)} {texts : List (List Char)} (h : RendersMembers numberOf ms texts)
    (levels : Nat) (hlevels : Value.depthMembers ms ≤ levels) (hkeys : MembersOk ms) :
    List.Forall₂ (Member src (value numberOf src levels)) ms texts := by
  cases h with
  | nil => exact .nil
  | cons hkey hv hms =>
    have hitem := hv.item levels ((Nat.le_max_left ..).trans hlevels) hkeys.1.2
    exact .cons ⟨_, _, rfl, hkey.keyText hkeys.1.1, hkeys.1.1, hitem⟩
      (hms.members levels ((Nat.le_max_right ..).trans hlevels) hkeys.2)

end

end

/-! ## Calls -/

def NameOk (name : List Char) : Prop := name ≠ [] ∧ '\x7b' ∉ name ∧ trim name = name

def callText (name arguments : List Char) : List Char := ['c', 'a', 'l', 'l', ':'] ++ (name ++ arguments)

section
variable {numberOf : List Char → Option Number}

theorem arguments_sound (numberOf : List Char → Option Number) (src s : List Char) :
    Sound src s (arguments numberOf src) fun v _ => Fits (maxDepth + 1) v := by
  refine (dict_sound (value_sound maxDepth) s).bind fun v s₁ hv => (skipWs_yields src s₁).sound_bind (Sound.get fun pos => ?_)
  split
  · exact (Yields.pure v).sound hv.fits
  · exact .throw _

theorem trimEnd_eq (s : List Char) : trimEnd s = s.rdropWhile isWhitespace := rfl

theorem trim_trim (s : List Char) : trim (trim s) = trim s := by
  have hend : trimEnd (trim s) = trim s := by
    rw [trim, trimEnd_eq, trimEnd_eq, List.rdropWhile_idempotent]
  have hstart : trimStart (trim s) = trim s := by
    rcases htrim : trim s with _ | ⟨c, rest⟩
    · rfl
    · obtain ⟨more, hmore⟩ := List.rdropWhile_prefix isWhitespace (l := trimStart s)
      rw [← trimEnd_eq, ← trim, htrim] at hmore
      have hdrop : s.dropWhile isWhitespace = c :: (rest ++ more) := hmore.symm
      have hhead := List.head_dropWhile_not isWhitespace (l := s) (by rw [hdrop]; exact List.cons_ne_nil _ _)
      have hc : isWhitespace c = false := by simpa [hdrop] using hhead
      exact List.dropWhile_cons_of_neg (by simp [hc])
  rw [trim, hstart, hend]

/-- **The parser answers** every text: it errs, or gives a name and arguments that a call can have. -/
theorem parseToolCall_answers (numberOf : List Char → Option Number) (text : List Char) :
    (∃ e, parseToolCall numberOf text = some (.error e)) ∨
      ∃ name v, parseToolCall numberOf text = some (.ok (String.ofList name, v)) ∧ NameOk name ∧ Fits (maxDepth + 1) v := by
  rw [parseToolCall]
  rcases (trimStart text).dropPrefix? ['c', 'a', 'l', 'l', ':'] with _ | rest
  · exact .inl ⟨_, rfl⟩
  dsimp only
  rcases hbrace : findChar (· == '\x7b') rest with _ | brace
  · exact .inl ⟨_, rfl⟩
  obtain ⟨before, c, b, rfl, hbefore, hc, rfl⟩ := findChar_eq_some hbrace
  have hat : At (before ++ c :: b) (size before) (c :: b) := ⟨before, rfl, rfl⟩
  dsimp only
  rw [upTo_append, Option.bind_some]
  split
  case isTrue => exact .inl ⟨_, rfl⟩
  case isFalse hname =>
    have hok : NameOk (trim before) := by
      refine ⟨by rwa [List.isEmpty_iff] at hname, fun hmem => ?_, trim_trim before⟩
      have hnot := hbefore _ (mem_of_mem_trim hmem)
      cases hnot
    obtain ⟨r, hrun, hpost⟩ := arguments_sound numberOf (before ++ c :: b) (c :: b) _ hat
    rw [hrun, Option.map_some]
    rcases r with e | ⟨v, pos⟩
    · exact .inl ⟨e, rfl⟩
    · obtain ⟨-, -, hv⟩ := hpost v pos rfl
      exact .inr ⟨trim before, v, rfl, hok, hv⟩

theorem parseToolCall_reads {name text : List Char} {members : List (String × Value)} (hname : NameOk name)
    (h : Renders numberOf (.object members) text) (hdepth : (Value.object members).depth ≤ maxDepth + 1)
    (hkeys : KeysOk (.object members)) :
    parseToolCall numberOf (callText name text) = some (.ok (String.ofList name, .object members)) := by
  obtain ⟨hne, hbrace, htrim⟩ := hname
  cases h with
  | @object _ texts hnodup hmembers =>
    obtain ⟨rest, hrest⟩ := bracketed_starts '\x7b' '\x7d' texts
    rw [Value.depth, Nat.add_le_add_iff_right] at hdepth
    have hread : Yields (name ++ bracketed '\x7b' '\x7d' texts) (bracketed '\x7b' '\x7d' texts ++ [])
        (dict _ (value numberOf _ maxDepth)) (.object members) [] :=
      dict_yields (hmembers.members maxDepth hdepth hkeys) hnodup []
    have hend : Yields (name ++ bracketed '\x7b' '\x7d' texts) (bracketed '\x7b' '\x7d' texts)
        (arguments numberOf (name ++ bracketed '\x7b' '\x7d' texts)) (.object members) [] := by
      rw [List.append_nil] at hread
      refine hread.bind ((skipWs_yields _ []).bind fun pos hat => ?_)
      have hsize : pos = size (name ++ bracketed '\x7b' '\x7d' texts) := hat.size_eq
      refine ⟨pos, ?_, hat⟩
      change outcome (if pos = size (name ++ bracketed '\x7b' '\x7d' texts) then pure (Value.object members) else throw _) pos = _
      rw [if_pos hsize]
      rfl
    obtain ⟨pos, hrun, -⟩ := hend (size name) ⟨name, rfl, rfl⟩
    have hprefix : (trimStart (callText name (bracketed '\x7b' '\x7d' texts))).dropPrefix? ['c', 'a', 'l', 'l', ':'] =
        some (name ++ bracketed '\x7b' '\x7d' texts) :=
      List.dropPrefix?_append_of_beq _ (beq_self_eq_true _)
    have hfind : findChar (· == '\x7b') (name ++ bracketed '\x7b' '\x7d' texts) = some (size name) := by
      rw [hrest]
      refine findChar_append (fun c hc => ?_) rfl
      rw [beq_eq_false_iff_ne]
      rintro rfl
      exact hbrace hc
    rw [parseToolCall, hprefix]
    dsimp only
    rw [hfind]
    dsimp only
    rw [upTo_append, Option.bind_some, htrim, if_neg (by rwa [List.isEmpty_iff]), hrun]
    rfl

/-- **The calls that come back** from their text: their name and all their keys are ones that a call can have. And whatever the
text, the parser errs or gives a value that is not deeper than its limit. -/
theorem parseToolCall_reads_back_iff (numberOf : List Char → Option Number) :
    (∀ text, (∃ e, parseToolCall numberOf text = some (.error e)) ∨
      ∃ name v, parseToolCall numberOf text = some (.ok (name, v)) ∧ v.depth ≤ maxDepth + 1) ∧
    ∀ name members text, Renders numberOf (.object members) text → (Value.object members).depth ≤ maxDepth + 1 →
      (parseToolCall numberOf (callText name text) = some (.ok (String.ofList name, .object members)) ↔
        NameOk name ∧ KeysOk (.object members)) := by
  constructor
  · intro text
    rcases parseToolCall_answers numberOf text with herr | ⟨name, v, hok, -, hfits⟩
    · exact .inl herr
    · exact .inr ⟨_, v, hok, hfits.2⟩
  · intro name members text h hdepth
    constructor
    · intro hparse
      rcases parseToolCall_answers numberOf (callText name text) with ⟨e, herr⟩ | ⟨name', v, hok, hname, hfits⟩
      · rw [hparse] at herr
        cases herr
      · rw [hparse] at hok
        obtain ⟨hsame, rfl⟩ := Prod.mk.inj (Except.ok.inj (Option.some.inj hok))
        rw [String.ofList_inj] at hsame
        exact ⟨hsame ▸ hname, hfits.1⟩
    · rintro ⟨hname, hkeys⟩
      exact parseToolCall_reads hname h hdepth hkeys

theorem parseToolCall_reads_back_iff_quoted :
    parseToolCall (fun _ => none) (callText ['f'] (bracketed '\x7b' '\x7d' [stringQuote ++ ['k', ','] ++ stringQuote ++
      ':' :: ['t', 'r', 'u', 'e']])) = some (.ok (String.ofList ['f'], .object [("k,", .bool true)])) :=
  ((parseToolCall_reads_back_iff fun _ => none).2 ['f'] [("k,", .bool true)] _
    (.object (by decide) (.cons (.quoted (by decide)) .true .nil)) (by decide)).mpr
      ⟨⟨by decide, by decide, by decide⟩, ⟨⟨by decide, by decide, by decide, by decide⟩, trivial⟩, trivial⟩

/-- A colon in a key ends it, quotes or not. -/
theorem colon_in_key :
    Renders (fun _ => none) (.object [("a:b", .bool true)])
      (bracketed '\x7b' '\x7d' [stringQuote ++ ['a', ':', 'b'] ++ stringQuote ++ ':' :: ['t', 'r', 'u', 'e']]) ∧
    (Value.object [("a:b", .bool true)]).depth ≤ maxDepth + 1 ∧ NameOk ['f'] ∧
    parseToolCall (fun _ => none) (callText ['f'] (bracketed '\x7b' '\x7d' [stringQuote ++ ['a', ':', 'b'] ++ stringQuote ++
      ':' :: ['t', 'r', 'u', 'e']])) = some (.ok ("f", .object [("<|\"|>a", .string "b<|\"|>:true")])) ∧
    (.object [("<|\"|>a", .string "b<|\"|>:true")] : Value) ≠ .object [("a:b", .bool true)] := by
  refine ⟨.object (by decide) (.cons (.quoted (by decide)) .true .nil), by decide, ⟨by decide, by decide, by decide⟩, ?_, ?_⟩
  · rfl
  · simp

end

end Cuca.Local.Calls
