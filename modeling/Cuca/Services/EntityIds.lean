import Cuca.Lib.Offsets
import Cuca.Services.PromptDigest

/-!
# The ids of extracted rows

The id of an entity is made of its table and its identity columns, that of a relationship of its table, the ids of its two ends and its
properties. Every text is written with its length in bytes, every value with its kind, and the members of an object by key.

* `canonicalText`, `entityId`, `relationshipId`;
* `delimits_canonicalText` : the text of a value can be read from the front, up to the order of members;
* `ids_canonical` : ids are the same exactly for the same rows.
-/

namespace Cuca.EntityExtraction
open PrefixCode Value Canonical

/-- `serde_json::Map`: keys are distinct, and so are those of every object within. -/
structure Properties where
  members : List (String × Value)
  distinct : (Value.object members).DistinctKeys

def Properties.Reordered (a b : Properties) : Prop := (Value.object a.members).Reordered (.object b.members)

/-! ## The text of a value -/

/-- `append_len` -/
def lenText (n : Nat) : List Char := Nat.toDigits 10 n ++ [':']

/-- `append_length_prefixed`; the length is that of the UTF-8 text. -/
def lengthPrefixed (text : List Char) : List Char := lenText (Offsets.size text) ++ text

def sortByKey (texts : List (String × List Char)) : List (String × List Char) := texts.insertionSort (·.1 ≤ ·.1)

/-- `append_canonical_map`, of members with the texts of their values. -/
def mapText (texts : List (String × List Char)) : List Char :=
  ['o', 'b', 'j', 'e', 'c', 't', ':'] ++ (lenText texts.length ++ (sortByKey texts).flatMap fun m => lengthPrefixed m.1.toList ++ m.2)

variable (numberText : Number → List Char)

mutual

/-- `append_canonical_value` -/
def canonicalText : Value → List Char
  | .null => ['n', 'u', 'l', 'l']
  | .bool true => ['t', 'r', 'u', 'e']
  | .bool false => ['f', 'a', 'l', 's', 'e']
  | .number n => ['n', 'u', 'm', 'b', 'e', 'r', ':'] ++ lengthPrefixed (numberText n)
  | .string s => ['s', 't', 'r', 'i', 'n', 'g', ':'] ++ lengthPrefixed s.toList
  | .array elements => ['a', 'r', 'r', 'a', 'y', ':'] ++ (lenText elements.length ++ elementsText elements)
  | .object members => mapText (memberTexts members)

def elementsText : List Value → List Char
  | [] => []
  | element :: elements => canonicalText element ++ elementsText elements

def memberTexts : List (String × Value) → List (String × List Char)
  | [] => []
  | (key, value) :: members => (key, canonicalText value) :: memberTexts members

end

def canonicalMap (values : Properties) : List Char := mapText (memberTexts numberText values.members)

def entityId (table : String) (identity : Properties) : String :=
  String.ofList ("entity:".toList ++ (lengthPrefixed table.toList ++ ':' :: canonicalMap numberText identity))

def relationshipId (table fromId toId : String) (properties : Properties) : String :=
  String.ofList ("relationship:".toList ++ (lengthPrefixed table.toList ++ (lengthPrefixed fromId.toList ++
    (lengthPrefixed toId.toList ++ canonicalMap numberText properties))))

/-! ## Lengths -/

theorem delimits_lenText : Delimits Eq lenText := by
  intro m n x y h
  unfold lenText at h
  rw [List.append_assoc, List.append_assoc] at h
  have hdigits (n : Nat) (x : List Char) : (Nat.toDigits 10 n ++ ([':'] ++ x)).takeWhile Char.isDigit = Nat.toDigits 10 n := by
    rw [List.takeWhile_append_of_pos fun c hc => Nat.isDigit_of_mem_toDigits (by decide) (by decide) hc]
    exact List.append_nil _
  have hsame : Nat.toDigits 10 m = Nat.toDigits 10 n := by
    rw [← hdigits m x, h, hdigits n y]
  have hnumber : m = n := by
    rw [← @Nat.ofDigitChars_ten_toDigits m, hsame, Nat.ofDigitChars_ten_toDigits]
  rw [hsame] at h
  exact ⟨hnumber, (List.cons.inj (List.append_cancel_left h)).2⟩

theorem delimits_lengthPrefixed : Delimits Eq lengthPrefixed := by
  intro a b x y h
  unfold lengthPrefixed at h
  rw [List.append_assoc, List.append_assoc] at h
  obtain ⟨hsize, hrest⟩ := delimits_lenText _ _ _ _ h
  have htaken := congrArg (Offsets.upTo · (Offsets.size a)) hrest
  have hleft := congrArg (Offsets.fromOffset · (Offsets.size a)) hrest
  rw [Offsets.upTo_append, hsize, Offsets.upTo_append] at htaken
  rw [Offsets.fromOffset_append, hsize, Offsets.fromOffset_append] at hleft
  exact ⟨Option.some.inj htaken, Option.some.inj hleft⟩

theorem delimits_string : Delimits Eq fun s : String => lengthPrefixed s.toList :=
  (delimits_lengthPrefixed.comap String.toList).imp fun _ _ => String.toList_inj.mp

/-! ## Values -/

theorem elementsText_eq (elements : List Value) : elementsText numberText elements = elements.flatMap (canonicalText numberText) := by
  induction elements with
  | nil => rfl
  | cons element elements ih => rw [elementsText, ih, List.flatMap_cons]

theorem memberTexts_eq (members : List (String × Value)) :
    memberTexts numberText members = members.map fun m => (m.1, canonicalText numberText m.2) := by
  induction members with
  | nil => rfl
  | cons member members ih => rw [memberTexts, ih, List.map_cons]

def memberText (member : String × Value) : List Char := lengthPrefixed member.1.toList ++ canonicalText numberText member.2

theorem canonicalText_object (members : List (String × Value)) : canonicalText numberText (.object members) =
    ['o', 'b', 'j', 'e', 'c', 't', ':'] ++ (lenText members.length ++ (sortedMembers members).flatMap (memberText numberText)) := by
  have hsort : sortByKey (members.map fun m => (m.1, canonicalText numberText m.2)) =
      (sortedMembers members).map fun m => (m.1, canonicalText numberText m.2) :=
    (List.map_insertionSort (fun a b : String × Value => a.1 ≤ b.1) (fun a b : String × List Char => a.1 ≤ b.1)
      (fun m => (m.1, canonicalText numberText m.2)) members fun _ _ _ _ => Iff.rfl).symm
  rw [canonicalText, memberTexts_eq, mapText, hsort, List.length_map, List.flatMap_map]
  rfl

/-- The word that tells the kind of a value. -/
def kindWord : Value → List Char
  | .null => ['n', 'u', 'l', 'l']
  | .bool true => ['t', 'r', 'u', 'e']
  | .bool false => ['f', 'a', 'l', 's', 'e']
  | .number _ => ['n', 'u', 'm', 'b', 'e', 'r', ':']
  | .string _ => ['s', 't', 'r', 'i', 'n', 'g', ':']
  | .array _ => ['a', 'r', 'r', 'a', 'y', ':']
  | .object _ => ['o', 'b', 'j', 'e', 'c', 't', ':']

def kindWords : List (List Char) :=
  [['n', 'u', 'l', 'l'], ['t', 'r', 'u', 'e'], ['f', 'a', 'l', 's', 'e'], ['n', 'u', 'm', 'b', 'e', 'r', ':'],
    ['s', 't', 'r', 'i', 'n', 'g', ':'], ['a', 'r', 'r', 'a', 'y', ':'], ['o', 'b', 'j', 'e', 'c', 't', ':']]

theorem delimits_kindWord : Delimits (fun v w => kindWord v = kindWord w) kindWord := by
  refine delimits_words (show ∀ v ∈ kindWords, ∀ w ∈ kindWords, v <+: w → v = w by decide) (fun v => ?_) fun _ _ h => h
  cases v with
  | bool b => cases b <;> decide
  | _ => simp only [kindWord]; decide

/-- What is behind the word. -/
def payload (numberText : Number → List Char) : Value → List Char
  | .number n => lengthPrefixed (numberText n)
  | .string s => lengthPrefixed s.toList
  | .array elements => lenText elements.length ++ elements.flatMap (canonicalText numberText)
  | .object members => lenText members.length ++ (sortedMembers members).flatMap (memberText numberText)
  | _ => []

theorem canonicalText_eq (v : Value) : canonicalText numberText v = kindWord v ++ payload numberText v := by
  cases v with
  | null => rw [canonicalText, kindWord, payload, List.append_nil] <;> simp
  | bool b => cases b <;> (rw [canonicalText, kindWord, payload, List.append_nil] <;> simp)
  | number n => rw [canonicalText, kindWord, payload]
  | string s => rw [canonicalText, kindWord, payload]
  | array elements => rw [canonicalText, kindWord, payload, elementsText_eq]
  | object members => rw [canonicalText_object, kindWord, payload]

section
variable {numberText : Number → List Char} (hnumbers : Function.Injective numberText)
include hnumbers

/-- **The text of a value** determines it, up to the order of members, whatever follows. -/
theorem delimits_canonicalText : Delimits Reordered (canonicalText numberText) := by
  intro v
  induction v using Value.induct with
  | scalar v harray hobject =>
    intro w x y h
    rw [canonicalText_eq, canonicalText_eq, List.append_assoc, List.append_assoc] at h
    obtain ⟨hkind, hrest⟩ := delimits_kindWord _ _ _ _ h
    cases v with
    | null =>
      cases w with
      | null => exact ⟨.refl _, hrest⟩
      | bool b => cases b <;> exact absurd hkind (by simp [kindWord])
      | _ => exact absurd hkind (by simp [kindWord])
    | bool b =>
      cases w with
      | bool b' =>
        obtain rfl : b = b' := by cases b <;> cases b' <;> first | rfl | exact absurd hkind (by simp [kindWord])
        exact ⟨.refl _, hrest⟩
      | _ => cases b <;> exact absurd hkind (by simp [kindWord])
    | number n =>
      cases w with
      | number m =>
        obtain ⟨hnumber, hend⟩ := delimits_lengthPrefixed _ _ _ _ hrest
        obtain rfl := hnumbers hnumber
        exact ⟨.refl _, hend⟩
      | bool b => cases b <;> exact absurd hkind (by simp [kindWord])
      | _ => exact absurd hkind (by simp [kindWord])
    | string s =>
      cases w with
      | string t =>
        obtain ⟨rfl, hend⟩ := delimits_string s t _ _ hrest
        exact ⟨.refl _, hend⟩
      | bool b => cases b <;> exact absurd hkind (by simp [kindWord])
      | _ => exact absurd hkind (by simp [kindWord])
    | array elements => exact absurd rfl (harray elements)
    | object members => exact absurd rfl (hobject members)
  | array elements ih =>
    intro w x y h
    rw [canonicalText_eq, canonicalText_eq, List.append_assoc, List.append_assoc] at h
    obtain ⟨hkind, hrest⟩ := delimits_kindWord _ _ _ _ h
    cases w with
    | array elements' =>
      rw [payload, payload, List.append_assoc, List.append_assoc] at hrest
      obtain ⟨hlength, helements⟩ := delimits_lenText _ _ _ _ hrest
      obtain ⟨heach, hend⟩ := flatMap_determines elements ih elements' x y hlength helements
      exact ⟨Reordered.elements heach [], hend⟩
    | bool b => cases b <;> exact absurd hkind (by simp [kindWord])
    | _ => exact absurd hkind (by simp [kindWord])
  | object members ih =>
    intro w x y h
    rw [canonicalText_eq, canonicalText_eq, List.append_assoc, List.append_assoc] at h
    obtain ⟨hkind, hrest⟩ := delimits_kindWord _ _ _ _ h
    cases w with
    | object members' =>
      rw [payload, payload, List.append_assoc, List.append_assoc] at hrest
      obtain ⟨hlength, hmembers⟩ := delimits_lenText _ _ _ _ hrest
      have hread : ∀ m ∈ sortedMembers members, ∀ (m' : String × Value) x y,
          memberText numberText m ++ x = memberText numberText m' ++ y → (m.1 = m'.1 ∧ Reordered m.2 m'.2) ∧ x = y := by
        intro m hm m' x y h
        unfold memberText at h
        rw [List.append_assoc, List.append_assoc] at h
        obtain ⟨hkey, hvalue⟩ := delimits_string m.1 m'.1 _ _ h
        obtain ⟨hsame, hend⟩ := ih m ((List.mem_insertionSort _).mp hm) m'.2 x y hvalue
        exact ⟨⟨hkey, hsame⟩, hend⟩
      have hsorted (l : List (String × Value)) : (sortedMembers l).length = l.length := List.length_insertionSort _ l
      obtain ⟨heach, hend⟩ := flatMap_determines (sortedMembers members) hread (sortedMembers members') x y
        (by rw [hsorted, hsorted, hlength]) hmembers
      refine ⟨?_, hend⟩
      exact .trans (.members (List.perm_insertionSort _ members).symm)
        (.trans (Reordered.eachMember heach []) (.members (List.perm_insertionSort _ members')))
    | bool b => cases b <;> exact absurd hkind (by simp [kindWord])
    | _ => exact absurd hkind (by simp [kindWord])

theorem delimits_canonicalMap : Delimits Properties.Reordered (canonicalMap numberText) := by
  have h := (delimits_canonicalText hnumbers).comap fun values : Properties => Value.object values.members
  intro a b x y heq
  refine h a b x y ?_
  dsimp only
  rw [canonicalText, canonicalText]
  exact heq

end

theorem canonicalText_reordered {v w : Value} (h : Reordered v w) (hv : v.DistinctKeys) :
    canonicalText numberText v = canonicalText numberText w := by
  refine reordered_congr (fun l l' hsorted => ?_) (fun v w l r hsame => ?_) (fun v w l r key hsame => ?_) h hv
  · have hlength := congrArg List.length hsorted
    unfold sortedMembers at hlength
    rw [List.length_insertionSort, List.length_insertionSort] at hlength
    rw [canonicalText_object, canonicalText_object, hsorted, hlength]
  · rw [canonicalText, canonicalText, elementsText_eq, elementsText_eq]
    simp only [List.length_append, List.length_cons, List.flatMap_append, List.flatMap_cons, hsame]
  · rw [canonicalText, canonicalText, memberTexts_eq, memberTexts_eq]
    simp only [List.map_append, List.map_cons, hsame]

theorem canonicalMap_reordered {a b : Properties} (h : a.Reordered b) : canonicalMap numberText a = canonicalMap numberText b := by
  have hsame := canonicalText_reordered numberText h a.distinct
  rw [canonicalText, canonicalText] at hsame
  exact hsame

/-! ## Ids -/

/-- **Ids are canonical**: they are the same exactly for rows of one table, with the same ends, whose identity columns and properties are
the same up to the order of members; and an entity has no id of a relationship. -/
theorem ids_canonical (hnumbers : Function.Injective numberText) :
    (∀ (table table' : String) (identity identity' : Properties),
      entityId numberText table identity = entityId numberText table' identity' ↔ table = table' ∧ identity.Reordered identity') ∧
    (∀ (table table' fromId fromId' toId toId' : String) (properties properties' : Properties),
      relationshipId numberText table fromId toId properties = relationshipId numberText table' fromId' toId' properties' ↔
        (table = table' ∧ fromId = fromId' ∧ toId = toId') ∧ properties.Reordered properties') ∧
    ∀ (table table' fromId toId : String) (identity properties : Properties),
      entityId numberText table identity ≠ relationshipId numberText table' fromId toId properties := by
  refine ⟨fun table table' identity identity' => ⟨fun h => ?_, ?_⟩, fun table table' fromId fromId' toId toId' properties properties' =>
    ⟨fun h => ?_, ?_⟩, fun table table' fromId toId identity properties h => ?_⟩
  · obtain ⟨htable, hrest⟩ := delimits_string _ _ _ _ (List.append_cancel_left (String.ofList_injective h))
    exact ⟨htable, (delimits_canonicalMap hnumbers).injective (List.cons.inj hrest).2⟩
  · rintro ⟨rfl, hidentity⟩
    unfold entityId
    rw [canonicalMap_reordered numberText hidentity]
  · obtain ⟨htable, hrest⟩ := delimits_string _ _ _ _ (List.append_cancel_left (String.ofList_injective h))
    obtain ⟨hfrom, hrest⟩ := delimits_string _ _ _ _ hrest
    obtain ⟨hto, hrest⟩ := delimits_string _ _ _ _ hrest
    exact ⟨⟨htable, hfrom, hto⟩, (delimits_canonicalMap hnumbers).injective hrest⟩
  · rintro ⟨⟨rfl, rfl, rfl⟩, hproperties⟩
    unfold relationshipId
    rw [canonicalMap_reordered numberText hproperties]
  · have hhead := congrArg List.head? (String.ofList_injective h)
    exact absurd hhead (by simp)

theorem ids_canonical_person :
    entityId PromptDigest.plainText "person" ⟨[("name", .string "3:null"), ("year", .number (.posInt 1815))],
        ⟨by decide, trivial, trivial, trivial⟩⟩ =
      entityId PromptDigest.plainText "person" ⟨[("year", .number (.posInt 1815)), ("name", .string "3:null")],
        ⟨by decide, trivial, trivial, trivial⟩⟩ :=
  ((ids_canonical PromptDigest.plainText PromptDigest.numberTexts_plainText.injective).1 _ _ _ _).mpr ⟨rfl, .members (.swap ..)⟩

end Cuca.EntityExtraction
