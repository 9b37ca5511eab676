import Cuca.Json
import Cuca.Lib.PrefixCode
import Mathlib.Data.List.Sort
import Mathlib.Data.String.Basic

/-!
# Canonical JSON text

`sortedText` is the compact JSON text of a value with the keys of every object sorted: `serde_json::to_string` of
`SortedKeys`.

`numberText` is the text `serde_json` gives a number.

* `Value.Reordered`, `Value.DistinctKeys` : equal up to the order of members, and no key twice;
* `unescape_escape`, `delimits_string` : the text of a string;
* `NumberTexts` : what is relied on of the text of a number;
* `sortedText_determines` : the text of any value, where the text behind it does not go on with a number;
* `sortedText_reordered` : reordering does not change the text.
-/

namespace Cuca.Canonical

def hexDigits : List Char := "0123456789abcdef".toList

def hexDigit (n : Nat) : Char := hexDigits.getD n '0'

/-- The text of a character within a string: `format_escaped_str`. -/
def escape (c : Char) : List Char :=
  if c = '"' then ['\\', '"']
  else if c = '\\' then ['\\', '\\']
  else if c.toNat = 0x08 then ['\\', 'b']
  else if c.toNat = 0x09 then ['\\', 't']
  else if c.toNat = 0x0a then ['\\', 'n']
  else if c.toNat = 0x0c then ['\\', 'f']
  else if c.toNat = 0x0d then ['\\', 'r']
  else if c.toNat < 0x20 then ['\\', 'u', '0', '0', hexDigit (c.toNat / 16), hexDigit (c.toNat % 16)]
  else [c]

def quoted (s : String) : List Char := '"' :: s.toList.flatMap escape ++ ['"']

def bracketed (opening closing : Char) (texts : List (List Char)) : List Char :=
  opening :: [','].intercalate texts ++ [closing]

variable (numberText : Number → List Char)

mutual

/-- The text of `SortedKeys`. -/
def sortedText : Value → List Char
  | .null => "null".toList
  | .bool true => "true".toList
  | .bool false => "false".toList
  | .number n => numberText n
  | .string s => quoted s
  | .array elements => bracketed '[' ']' (elementTexts elements)
  | .object members =>
    bracketed '\x7b' '\x7d' (((memberTexts members).insertionSort (·.1 ≤ ·.1)).map fun m => quoted m.1 ++ ':' :: m.2)

def elementTexts : List Value → List (List Char)
  | [] => []
  | element :: elements => sortedText element :: elementTexts elements

def memberTexts : List (String × Value) → List (String × List Char)
  | [] => []
  | (key, value) :: members => (key, sortedText value) :: memberTexts members

end

/-- The string a `CanonicalValue` serializes as. -/
def canonicalValue (value : Value) : String := String.ofList (sortedText numberText value)

end Cuca.Canonical

/-! ## Canonical text determines the value

Two values have the same canonical text exactly if one becomes the other by reordering the members of objects.
-/

namespace Cuca

namespace Value

/-- Equal up to the order of the members of objects, at any depth. -/
inductive Reordered : Value → Value → Prop
  | refl (v : Value) : Reordered v v
  | trans {u v w : Value} : Reordered u v → Reordered v w → Reordered u w
  | members {l l' : List (String × Value)} : l.Perm l' → Reordered (.object l) (.object l')
  | element {v w : Value} (l r : List Value) : Reordered v w → Reordered (.array (l ++ v :: r)) (.array (l ++ w :: r))
  | member {v w : Value} (l r : List (String × Value)) (key : String) :
      Reordered v w → Reordered (.object (l ++ (key, v) :: r)) (.object (l ++ (key, w) :: r))

mutual

/-- The keys of every object within are distinct. -/
def DistinctKeys : Value → Prop
  | .array elements => DistinctElements elements
  | .object members => (members.map Prod.fst).Nodup ∧ DistinctMembers members
  | _ => True

def DistinctElements : List Value → Prop
  | [] => True
  | element :: elements => DistinctKeys element ∧ DistinctElements elements

def DistinctMembers : List (String × Value) → Prop
  | [] => True
  | (_, value) :: members => DistinctKeys value ∧ DistinctMembers members

end

theorem distinctElements_iff (elements : List Value) :
    DistinctElements elements ↔ ∀ element ∈ elements, DistinctKeys element := by
  induction elements with
  | nil => simp [DistinctElements]
  | cons element elements ih => rw [DistinctElements, ih, List.forall_mem_cons]

theorem distinctMembers_iff (members : List (String × Value)) :
    DistinctMembers members ↔ ∀ member ∈ members, DistinctKeys member.2 := by
  induction members with
  | nil => simp [DistinctMembers]
  | cons member members ih => rw [DistinctMembers, ih, List.forall_mem_cons]

section
variable {P : Value → Prop} (scalar : ∀ v : Value, (∀ l, v ≠ .array l) → (∀ l, v ≠ .object l) → P v)
  (array : ∀ elements, (∀ element ∈ elements, P element) → P (.array elements))
  (object : ∀ members : List (String × Value), (∀ member ∈ members, P member.2) → P (.object members))
include scalar array object

mutual

/-- **Induction** on values: the elements of an array, and the members of an object. -/
theorem induct : ∀ v : Value, P v
  | .null => scalar _ (fun _ => nofun) fun _ => nofun
  | .bool _ => scalar _ (fun _ => nofun) fun _ => nofun
  | .number _ => scalar _ (fun _ => nofun) fun _ => nofun
  | .string _ => scalar _ (fun _ => nofun) fun _ => nofun
  | .array elements => array elements (inductElements elements)
  | .object members => object members (inductMembers members)

theorem inductElements : ∀ elements : List Value, ∀ element ∈ elements, P element
  | [], _, h => (List.not_mem_nil h).elim
  | first :: elements, element, h => (List.mem_cons.mp h).elim (fun heq => heq ▸ induct first)
      (inductElements elements element)

theorem inductMembers : ∀ members : List (String × Value), ∀ member ∈ members, P member.2
  | [], _, h => (List.not_mem_nil h).elim
  | (_, value) :: members, member, h => (List.mem_cons.mp h).elim (fun heq => heq ▸ induct value)
      (inductMembers members member)

end
end

theorem Reordered.elements {l l' : List Value} (h : List.Forall₂ Reordered l l') (done : List Value) :
    Reordered (.array (done ++ l)) (.array (done ++ l')) := by
  induction h generalizing done with
  | nil => exact .refl _
  | @cons v w l l' hvw _ ih =>
    refine .trans (.element done l hvw) ?_
    simpa using ih (done ++ [w])

theorem Reordered.eachMember {l l' : List (String × Value)}
    (h : List.Forall₂ (fun a b => a.1 = b.1 ∧ Reordered a.2 b.2) l l') (done : List (String × Value)) :
    Reordered (.object (done ++ l)) (.object (done ++ l')) := by
  induction h generalizing done with
  | nil => exact .refl _
  | @cons a b l l' hab _ ih =>
    obtain ⟨key, v⟩ := a
    obtain ⟨key', w⟩ := b
    obtain ⟨rfl, hvw⟩ := hab
    refine .trans (.member done l key hvw) ?_
    simpa using ih (done ++ [(key, w)])

end Value

namespace Canonical
open PrefixCode Value

/-! ## Strings -/

def hexValue (c : Char) : Nat := hexDigits.idxOf c

/-- Reads one character of a string. -/
def unescape : List Char → Option (Char × List Char)
  | '\\' :: 'u' :: _ :: _ :: high :: low :: rest => some (Char.ofNat (16 * hexValue high + hexValue low), rest)
  | '\\' :: 'b' :: rest => some (Char.ofNat 0x08, rest)
  | '\\' :: 't' :: rest => some (Char.ofNat 0x09, rest)
  | '\\' :: 'n' :: rest => some (Char.ofNat 0x0a, rest)
  | '\\' :: 'f' :: rest => some (Char.ofNat 0x0c, rest)
  | '\\' :: 'r' :: rest => some (Char.ofNat 0x0d, rest)
  | '\\' :: c :: rest => some (c, rest)
  | c :: rest => some (c, rest)
  | [] => none

theorem hexValue_hexDigit : ∀ n < 16, hexValue (hexDigit n) = n := by decide

theorem unescape_escape (c : Char) (rest : List Char) : unescape (escape c ++ rest) = some (c, rest) := by
  have hchar (n : Nat) (h : c.toNat = n) : c = Char.ofNat n := by rw [← h, Char.ofNat_toNat]
  unfold escape
  split_ifs with hquote hback h8 h9 ha hc hd hcontrol
  · rw [hquote]
    rfl
  · rw [hback]
    rfl
  · rw [hchar _ h8]
    rfl
  · rw [hchar _ h9]
    rfl
  · rw [hchar _ ha]
    rfl
  · rw [hchar _ hc]
    rfl
  · rw [hchar _ hd]
    rfl
  · show some (Char.ofNat (16 * hexValue (hexDigit (c.toNat / 16)) + hexValue (hexDigit (c.toNat % 16))), rest) = _
    rw [hexValue_hexDigit _ (by omega), hexValue_hexDigit _ (by omega), Nat.div_add_mod, Char.ofNat_toNat]
  · show unescape (c :: rest) = _
    unfold unescape
    split <;> simp_all

theorem delimits_escape : Delimits Eq escape := by
  intro c d x y h
  have := congrArg unescape h
  rw [unescape_escape, unescape_escape] at this
  exact ⟨(Prod.mk.inj (Option.some.inj this)).1, (Prod.mk.inj (Option.some.inj this)).2⟩

theorem escape_head (c : Char) : ∃ d rest, escape c = d :: rest ∧ d ≠ '"' := by
  unfold escape
  split_ifs with hquote
  all_goals first | exact ⟨_, _, rfl, by decide⟩ | exact ⟨_, _, rfl, hquote⟩

theorem delimits_characters (cs : List Char) : ∀ (ds x y : List Char),
    cs.flatMap escape ++ '"' :: x = ds.flatMap escape ++ '"' :: y → cs = ds ∧ x = y := by
  induction cs with
  | nil =>
    intro ds x y h
    cases ds with
    | nil => exact ⟨rfl, (List.cons.inj h).2⟩
    | cons d ds =>
      obtain ⟨c, rest, hescape, hne⟩ := escape_head d
      rw [List.flatMap_cons, hescape] at h
      exact absurd (List.cons.inj h).1.symm hne
  | cons c cs ih =>
    intro ds x y h
    cases ds with
    | nil =>
      obtain ⟨d, rest, hescape, hne⟩ := escape_head c
      rw [List.flatMap_cons, hescape] at h
      exact absurd (List.cons.inj h).1 hne
    | cons d ds =>
      rw [List.flatMap_cons, List.flatMap_cons, List.append_assoc, List.append_assoc] at h
      obtain ⟨rfl, hrest⟩ := delimits_escape c d _ _ h
      obtain ⟨rfl, hend⟩ := ih ds x y hrest
      exact ⟨rfl, hend⟩

theorem delimits_quoted : Delimits Eq quoted := by
  intro s t x y h
  unfold quoted at h
  simp only [List.cons_append, List.append_assoc, List.singleton_append] at h
  obtain ⟨hchars, hend⟩ := delimits_characters _ _ _ _ (List.cons.inj h).2
  exact ⟨String.toList_inj.mp hchars, hend⟩

/-! ## Numbers -/

def isNumeric (c : Char) : Bool := c.isDigit || ['-', '+', '.', 'e', 'E'].contains c

/-- What is relied on of the texts of numbers: no two are the same, and they consist of digits, signs, a point and an
exponent mark. -/
structure NumberTexts (numberText : Number → List Char) : Prop where
  injective : Function.Injective numberText
  numeric : ∀ n, ∀ c ∈ numberText n, isNumeric c = true
  nonempty : ∀ n, numberText n ≠ []

def Stops (x : List Char) : Prop := ∀ c ∈ x.head?, isNumeric c = false

theorem stops_nil : Stops [] := nofun

theorem stops_cons {c : Char} (h : isNumeric c = false) (x : List Char) : Stops (c :: x) := by
  intro d hd
  rw [List.head?_cons, Option.mem_some_iff] at hd
  exact hd ▸ h

theorem takeWhile_numeric {t x : List Char} (ht : ∀ c ∈ t, isNumeric c = true) (hx : Stops x) :
    (t ++ x).takeWhile isNumeric = t := by
  have hrest : x.takeWhile isNumeric = [] := by
    cases x with
    | nil => rfl
    | cons c x => rw [List.takeWhile_cons, hx c rfl, if_neg Bool.false_ne_true]
  rw [List.takeWhile_append_of_pos ht, hrest, List.append_nil]

/-! ## Sequences -/

def separated {α : Type*} (encode : α → List Char) (closing : Char) (as : List α) : List Char :=
  as.flatMap (fun a => ',' :: encode a) ++ [closing]

theorem bracketed_cons {α : Type*} (encode : α → List Char) (opening closing : Char) (a : α) (as : List α) :
    bracketed opening closing ((a :: as).map encode) = opening :: (encode a ++ separated encode closing as) := by
  have hjoin : ∀ (a : α) (as : List α), [','].intercalate ((a :: as).map encode) =
      encode a ++ as.flatMap fun a => ',' :: encode a := by
    intro a as
    induction as generalizing a with
    | nil => simp
    | cons b as ih =>
      rw [List.map_cons, List.map_cons, List.intercalate_cons_cons, ← List.map_cons, ih b]
      simp
  unfold bracketed separated
  rw [hjoin, List.cons_append, List.append_assoc]

section
variable {α : Type*} {encode : α → List Char} {r : α → α → Prop} {closing : Char}

theorem stops_separated (hclosing : isNumeric closing = false) (as : List α) (x : List Char) :
    Stops (separated encode closing as ++ x) := by
  cases as with
  | nil => exact stops_cons hclosing x
  | cons a as => exact stops_cons (by decide) _

theorem separated_determines (hclosing : isNumeric closing = false) (hcomma : closing ≠ ',') (as : List α)
    (hread : ∀ a ∈ as, ∀ b x y, Stops x → Stops y → encode a ++ x = encode b ++ y → r a b ∧ x = y) :
    ∀ (bs : List α) (x y : List Char), separated encode closing as ++ x = separated encode closing bs ++ y →
      List.Forall₂ r as bs ∧ x = y := by
  induction as with
  | nil =>
    intro bs x y h
    cases bs with
    | nil => exact ⟨.nil, (List.cons.inj h).2⟩
    | cons b bs => exact absurd (List.cons.inj h).1 hcomma
  | cons a as ih =>
    intro bs x y h
    cases bs with
    | nil => exact absurd (List.cons.inj h).1.symm hcomma
    | cons b bs =>
      unfold separated at h
      simp only [List.flatMap_cons, List.cons_append, List.append_assoc] at h
      have hitem := (List.cons.inj h).2
      rw [← List.append_assoc, ← List.append_assoc] at hitem
      obtain ⟨hfirst, hrest⟩ := hread a (List.mem_cons_self ..) b _ _
        (stops_separated hclosing as x) (stops_separated hclosing bs y) (by simpa [separated] using hitem)
      obtain ⟨hothers, hend⟩ := ih (fun a ha => hread a (List.mem_cons_of_mem _ ha)) bs x y hrest
      exact ⟨.cons hfirst hothers, hend⟩

/-- **A sequence between brackets**: its items are determined, where none begins with the closing bracket. -/
theorem bracketed_determines {opening : Char} (hclosing : isNumeric closing = false) (hcomma : closing ≠ ',')
    (hhead : ∀ a, ∃ c rest, encode a = c :: rest ∧ c ≠ closing) (as : List α)
    (hread : ∀ a ∈ as, ∀ b x y, Stops x → Stops y → encode a ++ x = encode b ++ y → r a b ∧ x = y)
    (bs : List α) (x y : List Char)
    (h : bracketed opening closing (as.map encode) ++ x = bracketed opening closing (bs.map encode) ++ y) :
    List.Forall₂ r as bs ∧ x = y := by
  cases as with
  | nil =>
    cases bs with
    | nil => exact ⟨.nil, List.append_cancel_left h⟩
    | cons b bs =>
      obtain ⟨c, rest, hb, hne⟩ := hhead b
      rw [bracketed_cons, hb] at h
      exact absurd (List.cons.inj (List.cons.inj h).2).1.symm hne
  | cons a as =>
    cases bs with
    | nil =>
      obtain ⟨c, rest, ha, hne⟩ := hhead a
      rw [bracketed_cons, ha] at h
      exact absurd (List.cons.inj (List.cons.inj h).2).1 hne
    | cons b bs =>
      rw [bracketed_cons, bracketed_cons, List.cons_append, List.cons_append, List.append_assoc,
        List.append_assoc] at h
      obtain ⟨hfirst, hrest⟩ := hread a (List.mem_cons_self ..) b _ _ (stops_separated hclosing as x)
        (stops_separated hclosing bs y) (List.cons.inj h).2
      obtain ⟨hothers, hend⟩ := separated_determines hclosing hcomma as
        (fun a ha => hread a (List.mem_cons_of_mem _ ha)) bs x y hrest
      exact ⟨.cons hfirst hothers, hend⟩

end

/-! ## Values -/

section
variable (numberText : Number → List Char)

theorem elementTexts_eq (elements : List Value) : elementTexts numberText elements = elements.map (sortedText numberText) := by
  induction elements with
  | nil => rfl
  | cons element elements ih => rw [elementTexts, ih, List.map_cons]

def sortedMembers (members : List (String × Value)) : List (String × Value) := members.insertionSort (·.1 ≤ ·.1)

def memberText (member : String × Value) : List Char := quoted member.1 ++ ':' :: sortedText numberText member.2

theorem memberTexts_eq (members : List (String × Value)) :
    memberTexts numberText members = members.map fun m => (m.1, sortedText numberText m.2) := by
  induction members with
  | nil => rfl
  | cons member members ih => rw [memberTexts, ih, List.map_cons]

theorem sortedText_array (elements : List Value) :
    sortedText numberText (.array elements) = bracketed '[' ']' (elements.map (sortedText numberText)) := by
  rw [sortedText, elementTexts_eq]

theorem sortedText_object (members : List (String × Value)) :
    sortedText numberText (.object members) =
      bracketed '\x7b' '\x7d' ((sortedMembers members).map (memberText numberText)) := by
  have hsort : (members.map fun m => (m.1, sortedText numberText m.2)).insertionSort (·.1 ≤ ·.1) =
      (sortedMembers members).map fun m => (m.1, sortedText numberText m.2) :=
    (List.map_insertionSort (fun a b : String × Value => a.1 ≤ b.1) (fun a b : String × List Char => a.1 ≤ b.1)
      (fun m => (m.1, sortedText numberText m.2)) members fun _ _ _ _ => Iff.rfl).symm
  rw [sortedText, memberTexts_eq, hsort, List.map_map]
  rfl

end

section
variable {numberText : Number → List Char} (hnumbers : NumberTexts numberText)
include hnumbers

/-- The first character of the text of a value; a digit stands for any character of a number. -/
def firstChar : Value → Char
  | .null => 'n'
  | .bool true => 't'
  | .bool false => 'f'
  | .number _ => '0'
  | .string _ => '"'
  | .array _ => '['
  | .object _ => '\x7b'

theorem sortedText_head (v : Value) :
    ∃ c rest, sortedText numberText v = c :: rest ∧ (if isNumeric c then '0' else c) = firstChar v := by
  cases v with
  | null => exact ⟨_, _, rfl, rfl⟩
  | bool b => cases b <;> exact ⟨_, _, rfl, rfl⟩
  | number n =>
    obtain ⟨c, rest, htext⟩ := List.exists_cons_of_ne_nil (hnumbers.nonempty n)
    refine ⟨c, rest, by rw [sortedText, htext], if_pos (hnumbers.numeric n c ?_)⟩
    rw [htext]
    exact List.mem_cons_self ..
  | string s => exact ⟨_, _, rfl, rfl⟩
  | array elements => exact ⟨_, _, sortedText_array numberText elements, rfl⟩
  | object members => exact ⟨_, _, sortedText_object numberText members, rfl⟩

theorem firstChar_eq {v w : Value} {x y : List Char} (h : sortedText numberText v ++ x = sortedText numberText w ++ y) :
    firstChar v = firstChar w := by
  obtain ⟨c, rest, hv, hc⟩ := sortedText_head hnumbers v
  obtain ⟨d, rest', hw, hd⟩ := sortedText_head hnumbers w
  rw [hv, hw] at h
  rw [← hc, ← hd, (List.cons.inj h).1]

theorem sortedText_ne_bracket (v : Value) : ∃ c rest, sortedText numberText v = c :: rest ∧ c ≠ ']' := by
  obtain ⟨c, rest, htext, hc⟩ := sortedText_head hnumbers v
  refine ⟨c, rest, htext, ?_⟩
  rintro rfl
  rw [if_neg (by decide)] at hc
  cases v with
  | bool b => cases b <;> exact absurd hc (by decide)
  | _ => exact absurd hc (by simp [firstChar])

/-- **The text of a value determines it**, up to the order of members, where what follows does not go on with a
number. -/
theorem sortedText_determines (v : Value) : ∀ (w : Value) (x y : List Char), Stops x → Stops y →
    sortedText numberText v ++ x = sortedText numberText w ++ y → Reordered v w ∧ x = y := by
  induction v using Value.induct with
  | scalar v harray hobject =>
    intro w x y hx hy h
    have hfirst := firstChar_eq hnumbers h
    cases v with
    | null =>
      cases w with
      | null => exact ⟨.refl _, List.append_cancel_left h⟩
      | bool b => cases b <;> exact absurd hfirst (by decide)
      | _ => exact absurd hfirst (by simp [firstChar])
    | bool b =>
      cases w with
      | bool b' =>
        obtain rfl : b = b' := by cases b <;> cases b' <;> first | rfl | exact absurd hfirst (by decide)
        exact ⟨.refl _, List.append_cancel_left h⟩
      | _ => cases b <;> exact absurd hfirst (by simp [firstChar])
    | number n =>
      cases w with
      | number m =>
        rw [sortedText, sortedText] at h
        have htext := congrArg (List.takeWhile isNumeric) h
        rw [takeWhile_numeric (hnumbers.numeric n) hx, takeWhile_numeric (hnumbers.numeric m) hy] at htext
        obtain rfl := hnumbers.injective htext
        exact ⟨.refl _, List.append_cancel_left h⟩
      | bool b => cases b <;> exact absurd hfirst (by simp [firstChar])
      | _ => exact absurd hfirst (by simp [firstChar])
    | string s =>
      cases w with
      | string t =>
        rw [sortedText, sortedText] at h
        obtain ⟨rfl, hend⟩ := delimits_quoted s t x y h
        exact ⟨.refl _, hend⟩
      | bool b => cases b <;> exact absurd hfirst (by simp [firstChar])
      | _ => exact absurd hfirst (by simp [firstChar])
    | array elements => exact absurd rfl (harray elements)
    | object members => exact absurd rfl (hobject members)
  | array elements ih =>
    intro w x y hx hy h
    have hfirst := firstChar_eq hnumbers h
    cases w with
    | array elements' =>
      rw [sortedText_array, sortedText_array] at h
      obtain ⟨heach, hend⟩ := bracketed_determines (by decide) (by decide) (sortedText_ne_bracket hnumbers) elements
        ih elements' x y h
      exact ⟨Reordered.elements heach [], hend⟩
    | bool b => cases b <;> exact absurd hfirst (by simp [firstChar])
    | _ => exact absurd hfirst (by simp [firstChar])
  | object members ih =>
    intro w x y hx hy h
    have hfirst := firstChar_eq hnumbers h
    cases w with
    | object members' =>
      rw [sortedText_object, sortedText_object] at h
      have hread : ∀ m ∈ sortedMembers members, ∀ (m' : String × Value) x y, Stops x → Stops y →
          memberText numberText m ++ x = memberText numberText m' ++ y →
          (m.1 = m'.1 ∧ Reordered m.2 m'.2) ∧ x = y := by
        intro m hm m' x y hx hy h
        unfold memberText at h
        rw [List.append_assoc, List.append_assoc] at h
        obtain ⟨hkey, hrest⟩ := delimits_quoted m.1 m'.1 _ _ h
        obtain ⟨hvalue, hend⟩ := ih m ((List.mem_insertionSort _).mp hm) m'.2 x y hx hy (List.cons.inj hrest).2
        exact ⟨⟨hkey, hvalue⟩, hend⟩
      obtain ⟨heach, hend⟩ := bracketed_determines (by decide) (by decide)
        (fun m => ⟨'"', _, rfl, by decide⟩) (sortedMembers members) hread (sortedMembers members') x y h
      refine ⟨?_, hend⟩
      exact .trans (.members (List.perm_insertionSort _ members).symm)
        (.trans (Reordered.eachMember heach []) (.members (List.perm_insertionSort _ members')))
    | bool b => cases b <;> exact absurd hfirst (by simp [firstChar])
    | _ => exact absurd hfirst (by simp [firstChar])

end

/-! ## Reordering -/

theorem sortedMembers_perm {l l' : List (String × Value)} (hperm : l.Perm l') (h : (l.map Prod.fst).Nodup) :
    sortedMembers l = sortedMembers l' := by
  have hsorted (l : List (String × Value)) : (sortedMembers l).Pairwise fun a b => a.1 ≤ b.1 := by
    have : Std.Total fun a b : String × Value => a.1 ≤ b.1 := ⟨fun a b => le_total _ _⟩
    have : IsTrans (String × Value) fun a b => a.1 ≤ b.1 := ⟨fun a b c => le_trans⟩
    exact List.pairwise_insertionSort _ l
  have hmem (l : List (String × Value)) (m : String × Value) : m ∈ sortedMembers l ↔ m ∈ l := List.mem_insertionSort _
  refine List.Perm.eq_of_pairwise (fun a b ha hb hab hba => ?_) (hsorted l) (hsorted l')
    ((List.perm_insertionSort _ l).trans (hperm.trans (List.perm_insertionSort _ l').symm))
  exact List.inj_on_of_nodup_map h ((hmem l a).mp ha) (hperm.mem_iff.mpr ((hmem l' b).mp hb)) (le_antisymm hab hba)

theorem distinctKeys_reordered {v w : Value} (h : Reordered v w) : DistinctKeys v ↔ DistinctKeys w := by
  induction h with
  | refl v => exact Iff.rfl
  | trans _ _ ih ih' => exact ih.trans ih'
  | members hperm =>
    rw [DistinctKeys, DistinctKeys, distinctMembers_iff, distinctMembers_iff, (hperm.map Prod.fst).nodup_iff]
    exact and_congr_right fun _ => forall_congr' fun m => imp_congr_left hperm.mem_iff
  | element l r _ ih =>
    rw [DistinctKeys, DistinctKeys, distinctElements_iff, distinctElements_iff]
    simp only [List.mem_append, List.mem_cons, or_imp, forall_and, forall_eq, ih]
  | member l r key _ ih =>
    rw [DistinctKeys, DistinctKeys, distinctMembers_iff, distinctMembers_iff]
    simp only [List.map_append, List.map_cons, List.mem_append, List.mem_cons, or_imp, forall_and, forall_eq, ih]

theorem reordered_congr {α : Type*} {f : Value → α}
    (hobject : ∀ l l', sortedMembers l = sortedMembers l' → f (.object l) = f (.object l'))
    (helement : ∀ v w l r, f v = f w → f (.array (l ++ v :: r)) = f (.array (l ++ w :: r)))
    (hmember : ∀ v w l r key, f v = f w → f (.object (l ++ (key, v) :: r)) = f (.object (l ++ (key, w) :: r)))
    {v w : Value} (h : Value.Reordered v w) (hv : DistinctKeys v) : f v = f w := by
  induction h with
  | refl v => rfl
  | trans huv _ ih ih' => rw [ih hv, ih' ((distinctKeys_reordered huv).mp hv)]
  | members hperm =>
    rw [DistinctKeys] at hv
    exact hobject _ _ (sortedMembers_perm hperm hv.1)
  | @element v w l r _ ih =>
    rw [DistinctKeys, distinctElements_iff] at hv
    exact helement v w l r (ih (hv _ (List.mem_append_right _ (List.mem_cons_self ..))))
  | @member v w l r key _ ih =>
    rw [DistinctKeys, distinctMembers_iff] at hv
    exact hmember v w l r key (ih (hv.2 (key, v) (List.mem_append_right _ (List.mem_cons_self ..))))

/-- **Reordering does not change the text**, where keys are distinct. -/
theorem sortedText_reordered (numberText : Number → List Char) {v w : Value} (h : Value.Reordered v w) (hv : DistinctKeys v) :
    sortedText numberText v = sortedText numberText w := by
  refine reordered_congr (fun l l' hsorted => ?_) (fun v w l r hsame => ?_) (fun v w l r key hsame => ?_) h hv
  · rw [sortedText_object, sortedText_object, hsorted]
  · simp only [sortedText_array, List.map_append, List.map_cons, hsame]
  · rw [sortedText, sortedText, memberTexts_eq, memberTexts_eq]
    simp only [List.map_append, List.map_cons, hsame]

end Canonical
end Cuca
