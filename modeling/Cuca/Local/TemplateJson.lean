import Cuca.JsonText
import Cuca.Services.PromptDigest

/-!
# JSON of chat templates

The `tojson` filter writes a value of a template as Python's `json.dumps` does. Objects are lists of entries, which keep their order.

`numberText` is the text `serde_json` gives a number.

* `TemplateValue`, `jsonToValue`, `toolValue` : values of templates;
* `JsonDumper`, `tojson` : the filter;
* `written`, `dump_eq` : what is written of a value;
* `reads_written`, `written_ascii` : it can be read, and its characters;
* `tojson_json` : every JSON value.
-/

namespace Cuca.Local.Template
open Canonical JsonText

/-! ## Values -/

inductive TemplateValue where
  | undefined
  | none
  | bool (b : Bool)
  | number (n : Number)
  | string (s : String)
  | seq (items : List TemplateValue)
  /-- `OrderedMap` -/
  | map (entries : List (String × TemplateValue))
  /-- A function, say. -/
  | other

mutual

/-- `json_to_value` -/
def jsonToValue : Value → TemplateValue
  | .null => .none
  | .bool b => .bool b
  | .number n => .number n
  | .string s => .string s
  | .array items => .seq (itemsToValues items)
  | .object members => .map (membersToEntries members)

def itemsToValues : List Value → List TemplateValue
  | [] => []
  | item :: items => jsonToValue item :: itemsToValues items

def membersToEntries : List (String × Value) → List (String × TemplateValue)
  | [] => []
  | (key, value) :: members => (key, jsonToValue value) :: membersToEntries members

end

/-- The keys of `head` first, those that there are. -/
def headFirst (head : List String) (members : List (String × Value)) : List (String × Value) :=
  (head.filterMap fun key => (members.lookup key).map fun value => (key, value)) ++ members.filter fun m => !head.contains m.1

def orderedObject (head : List String) (child : String → Value → TemplateValue) : Value → TemplateValue
  | .object members => .map ((headFirst head members).map fun m => (m.1, child m.1 m.2))
  | json => jsonToValue json

def toolValue : Value → TemplateValue := orderedObject ["type", "function"] fun key child =>
  if key = "function" then orderedObject ["name", "description", "parameters"] (fun _ => jsonToValue) child else jsonToValue child

/-! ## The filter -/

structure JsonDumper where
  /-- Spaces per nesting level; one line without. -/
  indent : Option Nat
  sortKeys : Bool
  ensureAscii : Bool

def encodeUtf16 (c : Char) : List Nat :=
  if c.toNat < 65536 then [c.toNat] else [0xd800 + (c.toNat - 65536) / 1024, 0xdc00 + (c.toNat - 65536) % 1024]

variable (numberText : Number → List Char)

namespace JsonDumper
variable (d : JsonDumper)

def escape (c : Char) : List Char :=
  if c = '"' then ['\\', '"']
  else if c = '\\' then ['\\', '\\']
  else if c = '\n' then ['\\', 'n']
  else if c = '\r' then ['\\', 'r']
  else if c = '\t' then ['\\', 't']
  else if c.toNat = 0x08 then ['\\', 'b']
  else if c.toNat = 0x0c then ['\\', 'f']
  else if c.toNat < 0x20 ∨ (d.ensureAscii = true ∧ 128 ≤ c.toNat) then (encodeUtf16 c).flatMap fun unit => '\\' :: 'u' :: unitText unit
  else [c]

def string (text : String) : List Char := '"' :: (text.toList.flatMap d.escape ++ ['"'])

def separator (first : Bool) (level : Nat) : List Char :=
  match d.indent with
  | some width => (if first then [] else [',']) ++ '\n' :: List.replicate (width * level) ' '
  | none => if first then [] else [',', ' ']

def close (level : Nat) : List Char :=
  match d.indent with
  | some width => '\n' :: List.replicate (width * level) ' '
  | none => []

/-- Each with the separator before it. -/
def separated (level : Nat) : Bool → List (List Char) → List Char
  | _, [] => []
  | first, text :: texts => d.separator first level ++ text ++ separated level false texts

def bracketed (opening closing : Char) (level : Nat) (texts : List (List Char)) : List Char :=
  if texts.isEmpty then [opening, closing] else opening :: d.separated (level + 1) true texts ++ d.close level ++ [closing]

def entryText (entry : String × List Char) : List Char := d.string entry.1 ++ [':', ' '] ++ entry.2

def arrange {α : Type} (entries : List (String × α)) : List (String × α) :=
  if d.sortKeys then entries.insertionSort (·.1 ≤ ·.1) else entries

mutual

def dump (level : Nat) : TemplateValue → Except String (List Char)
  | .undefined | .none => .ok ['n', 'u', 'l', 'l']
  | .bool b => .ok (if b then ['t', 'r', 'u', 'e'] else ['f', 'a', 'l', 's', 'e'])
  | .number n => .ok (numberText n)
  | .string s => .ok (d.string s)
  | .seq items => ((dumpItems (level + 1) items).mapM id).map (d.bracketed '[' ']' level)
  | .map entries =>
    let texts := dumpEntries (level + 1) entries
    -- each key is looked up again
    let entries : List (String × Except String (List Char)) := d.arrange (texts.map fun e => (e.1, (texts.lookup e.1).getD e.2))
    (entries.mapM fun (e : String × Except String (List Char)) => e.2.map fun text => d.entryText (e.1, text)).map (d.bracketed '\x7b' '\x7d' level)
  | .other => .error "cannot serialize value to JSON: not a JSON value"

def dumpItems (level : Nat) : List TemplateValue → List (Except String (List Char))
  | [] => []
  | item :: items => dump level item :: dumpItems level items

def dumpEntries (level : Nat) : List (String × TemplateValue) → List (String × Except String (List Char))
  | [] => []
  | (key, item) :: entries => (key, dump level item) :: dumpEntries level entries

end

end JsonDumper

def tojson (indent : Option Nat) (sortKeys ensureAscii : Option Bool) (value : TemplateValue) : Except String (List Char) :=
  JsonDumper.dump numberText ⟨indent, sortKeys.getD false, ensureAscii.getD false⟩ 0 value

/-! ## What the values stand for -/

namespace TemplateValue

mutual

/-- The JSON value; some are none. -/
def toJson : TemplateValue → Option Value
  | .undefined | .none => some .null
  | .bool b => some (.bool b)
  | .number n => some (.number n)
  | .string s => some (.string s)
  | .seq items => (itemsToJson items).map .array
  | .map entries => (entriesToJson entries).map .object
  | .other => Option.none

def itemsToJson : List TemplateValue → Option (List Value)
  | [] => some []
  | item :: items => (toJson item).bind fun v => (itemsToJson items).map (v :: ·)

def entriesToJson : List (String × TemplateValue) → Option (List (String × Value))
  | [] => some []
  | (key, item) :: entries => (toJson item).bind fun v => (entriesToJson entries).map ((key, v) :: ·)

end

end TemplateValue

mutual

theorem toJson_jsonToValue : ∀ v : Value, (jsonToValue v).toJson = some v
  | .null | .bool _ | .number _ | .string _ => rfl
  | .array items => congrArg (Option.map Value.array) (itemsToJson_values items)
  | .object members => congrArg (Option.map Value.object) (entriesToJson_values members)

theorem itemsToJson_values : ∀ items : List Value, TemplateValue.itemsToJson (itemsToValues items) = some items
  | [] => rfl
  | item :: items => by rw [itemsToValues, TemplateValue.itemsToJson, toJson_jsonToValue item, itemsToJson_values items]; rfl

theorem entriesToJson_values : ∀ members : List (String × Value), TemplateValue.entriesToJson (membersToEntries members) = some members
  | [] => rfl
  | (key, value) :: members => by
    rw [membersToEntries, TemplateValue.entriesToJson, toJson_jsonToValue value, entriesToJson_values members]
    rfl

end

/-! ## What is written -/

mutual

/-- The members of every object by key. -/
def sortKeys : Value → Value
  | .array items => .array (sortItems items)
  | .object members => .object ((sortMembers members).insertionSort (·.1 ≤ ·.1))
  | v => v

def sortItems : List Value → List Value
  | [] => []
  | item :: items => sortKeys item :: sortItems items

def sortMembers : List (String × Value) → List (String × Value)
  | [] => []
  | (key, value) :: members => (key, sortKeys value) :: sortMembers members

end

namespace JsonDumper
variable (d : JsonDumper)

def ordered (v : Value) : Value := if d.sortKeys then Template.sortKeys v else v

mutual

/-- The text of a value, member by member. -/
def written (level : Nat) : Value → List Char
  | .null => ['n', 'u', 'l', 'l']
  | .bool b => if b then ['t', 'r', 'u', 'e'] else ['f', 'a', 'l', 's', 'e']
  | .number n => numberText n
  | .string s => d.string s
  | .array items => d.bracketed '[' ']' level (writtenItems (level + 1) items)
  | .object members => d.bracketed '\x7b' '\x7d' level ((writtenMembers (level + 1) members).map d.entryText)

def writtenItems (level : Nat) : List Value → List (List Char)
  | [] => []
  | item :: items => written level item :: writtenItems level items

def writtenMembers (level : Nat) : List (String × Value) → List (String × List Char)
  | [] => []
  | (key, value) :: members => (key, written level value) :: writtenMembers level members

end

theorem writtenItems_eq (level : Nat) (items : List Value) : d.writtenItems numberText level items = items.map (d.written numberText level) := by
  induction items with
  | nil => rfl
  | cons item items ih => rw [writtenItems, ih, List.map_cons]

theorem writtenMembers_eq (level : Nat) (members : List (String × Value)) :
    d.writtenMembers numberText level members = members.map fun m => (m.1, d.written numberText level m.2) := by
  induction members with
  | nil => rfl
  | cons m members ih => rw [writtenMembers, ih, List.map_cons]

theorem sortItems_eq (items : List Value) : sortItems items = items.map Template.sortKeys := by
  induction items with
  | nil => rfl
  | cons item items ih => rw [sortItems, ih, List.map_cons]

theorem sortMembers_eq (members : List (String × Value)) : sortMembers members = members.map fun m => (m.1, Template.sortKeys m.2) := by
  induction members with
  | nil => rfl
  | cons m members ih => rw [sortMembers, ih, List.map_cons]

theorem ordered_array (items : List Value) : d.ordered (.array items) = .array (items.map d.ordered) := by
  unfold ordered
  by_cases h : d.sortKeys = true
  · simp only [h, if_true, Template.sortKeys, sortItems_eq]
  · simp only [h, if_false, List.map_id', Bool.false_eq_true]

theorem ordered_object (members : List (String × Value)) :
    d.ordered (.object members) = .object (d.arrange (members.map fun m => (m.1, d.ordered m.2))) := by
  unfold ordered arrange
  by_cases h : d.sortKeys = true
  · simp only [h, if_true, Template.sortKeys, sortMembers_eq]
  · simp only [h, if_false, Bool.false_eq_true, Prod.mk.eta, List.map_id']

theorem arrange_map {α β : Type} (f : String → α → β) (entries : List (String × α)) :
    d.arrange (entries.map fun e => (e.1, f e.1 e.2)) = (d.arrange entries).map fun e => (e.1, f e.1 e.2) := by
  unfold arrange
  split
  · exact (List.map_insertionSort (fun a b : String × α => a.1 ≤ b.1) (fun a b : String × β => a.1 ≤ b.1) (fun e => (e.1, f e.1 e.2)) entries
      fun _ _ _ _ => Iff.rfl).symm
  · rfl

theorem mapM_ok {α β : Type} (f : α → β) (l : List α) : (l.map fun a => (Except.ok (f a) : Except String β)).mapM id = .ok (l.map f) := by
  induction l with
  | nil => rfl
  | cons a l ih =>
    rw [List.map_cons, List.mapM_cons, ih]
    rfl

theorem mapM_entries {α β γ : Type} (f : α → β) (g : String × β → γ) (l : List (String × α)) :
    (l.map fun m => (m.1, (Except.ok (f m.2) : Except String β))).mapM (fun e => e.2.map fun b => g (e.1, b)) =
      .ok (l.map fun m => g (m.1, f m.2)) := by
  induction l with
  | nil => rfl
  | cons m l ih =>
    rw [List.map_cons, List.mapM_cons, ih]
    rfl

theorem lookup_again {α : Type} {l : List (String × α)} (h : (l.map Prod.fst).Nodup) :
    (l.map fun e => (e.1, (l.lookup e.1).getD e.2)) = l := by
  have hfind : ∀ e ∈ l, l.lookup e.1 = some e.2 := by
    induction l with
    | nil => intro e he; exact absurd he List.not_mem_nil
    | cons m l ih =>
      obtain ⟨hfresh, hnodup⟩ := List.nodup_cons.mp h
      intro e he
      rcases List.mem_cons.mp he with rfl | he
      · rw [List.lookup_cons, beq_self_eq_true]
      · have hne : (e.1 == m.1) = false := by
          rw [beq_eq_false_iff_ne]
          intro heq
          exact hfresh (heq ▸ List.mem_map_of_mem he)
        rw [List.lookup_cons, hne]
        exact ih hnodup e he
  calc (l.map fun e => (e.1, (l.lookup e.1).getD e.2)) = l.map id := List.map_congr_left fun e he => by rw [hfind e he]; rfl
    _ = l := List.map_id l

mutual

/-- **What is written** of a template's value is the text of the JSON value, in its order. -/
theorem dump_eq : ∀ (t : TemplateValue) (v : Value), t.toJson = some v → v.DistinctKeys → ∀ level,
    d.dump numberText level t = .ok (d.written numberText level (d.ordered v))
  | .undefined, v, ht, _, level | .none, v, ht, _, level => by
    rw [← Option.some.inj ht]
    unfold ordered
    split <;> rfl
  | .bool _, v, ht, _, level | .number _, v, ht, _, level | .string _, v, ht, _, level => by
    rw [← Option.some.inj ht]
    unfold ordered
    split <;> rfl
  | .seq items, v, ht, hv, level => by
    rw [TemplateValue.toJson, Option.map_eq_some_iff] at ht
    obtain ⟨vs, hitems, rfl⟩ := ht
    rw [dump, dumpItems_eq items vs hitems hv (level + 1), ordered_array, written, writtenItems_eq, mapM_ok, List.map_map]
    rfl
  | .map entries, v, ht, hv, level => by
    rw [TemplateValue.toJson, Option.map_eq_some_iff] at ht
    obtain ⟨ms, hentries, rfl⟩ := ht
    have htexts := dumpEntries_eq entries ms hentries hv.2 (level + 1)
    have hkeys : ((d.dumpEntries numberText (level + 1) entries).map Prod.fst).Nodup := by
      rw [htexts, List.map_map]
      exact hv.1
    rw [dump]
    rw [lookup_again hkeys, htexts,
      d.arrange_map (fun _ v => (Except.ok (d.written numberText (level + 1) (d.ordered v)) : Except String (List Char))) ms,
      mapM_entries (fun v => d.written numberText (level + 1) (d.ordered v)), ordered_object, written, writtenMembers_eq,
      d.arrange_map (fun _ v => d.ordered v), List.map_map, List.map_map]
    rfl

theorem dumpItems_eq : ∀ (items : List TemplateValue) (vs : List Value), TemplateValue.itemsToJson items = some vs → Value.DistinctElements vs →
    ∀ level, d.dumpItems numberText level items = vs.map fun v => .ok (d.written numberText level (d.ordered v))
  | [], vs, ht, _, level => by
    rw [← Option.some.inj ht]
    rfl
  | item :: items, vs, ht, hv, level => by
    rw [TemplateValue.itemsToJson, Option.bind_eq_some_iff] at ht
    obtain ⟨v, hitem, hrest⟩ := ht
    obtain ⟨vs', hitems, rfl⟩ := Option.map_eq_some_iff.mp hrest
    rw [dumpItems, dump_eq item v hitem hv.1 level, dumpItems_eq items vs' hitems hv.2 level, List.map_cons]

theorem dumpEntries_eq : ∀ (entries : List (String × TemplateValue)) (ms : List (String × Value)),
    TemplateValue.entriesToJson entries = some ms → Value.DistinctMembers ms →
    ∀ level, d.dumpEntries numberText level entries = ms.map fun m => (m.1, .ok (d.written numberText level (d.ordered m.2)))
  | [], ms, ht, _, level => by
    rw [← Option.some.inj ht]
    rfl
  | (key, item) :: entries, ms, ht, hv, level => by
    rw [TemplateValue.entriesToJson, Option.bind_eq_some_iff] at ht
    obtain ⟨v, hitem, hrest⟩ := ht
    obtain ⟨ms', hentries, rfl⟩ := Option.map_eq_some_iff.mp hrest
    rw [dumpEntries, dump_eq item v hitem hv.1 level, dumpEntries_eq entries ms' hentries hv.2 level, List.map_cons]

end

/-! ## Reading what is written -/

theorem character_unit (u : Nat) (rest : List Char) : character ('\\' :: 'u' :: (unitText u ++ rest)) = unicode (unitText u ++ rest) := rfl

theorem character_units (c : Char) (rest : List Char) :
    character (((encodeUtf16 c).flatMap fun unit => '\\' :: 'u' :: unitText unit) ++ rest) = some (c, rest) := by
  unfold encodeUtf16
  split
  case isTrue h =>
    rw [List.flatMap_singleton, List.cons_append, List.cons_append, character_unit]
    exact unicode_single h rest
  case isFalse h =>
    rw [List.flatMap_cons, List.flatMap_singleton, List.append_assoc, List.cons_append, List.cons_append, character_unit]
    exact unicode_pair (by omega) rest

theorem escape_cases (c : Char) :
    (∃ e, d.escape c = ['\\', e] ∧ simpleEscape e = some c ∧ e ≠ 'u' ∧ e.toNat < 128) ∨
      (d.escape c = (encodeUtf16 c).flatMap fun unit => '\\' :: 'u' :: unitText unit) ∨
      d.escape c = [c] ∧ c ≠ '"' ∧ c ≠ '\\' ∧ ¬c.toNat < 0x20 ∧ (d.ensureAscii = true → c.toNat < 128) := by
  unfold escape
  split_ifs with hquote hback hnewline hreturn htab hbell hfeed hunits
  · exact .inl ⟨'"', rfl, by rw [hquote]; rfl, by decide, by decide⟩
  · exact .inl ⟨'\\', rfl, by rw [hback]; rfl, by decide, by decide⟩
  · exact .inl ⟨'n', rfl, by rw [hnewline]; rfl, by decide, by decide⟩
  · exact .inl ⟨'r', rfl, by rw [hreturn]; rfl, by decide, by decide⟩
  · exact .inl ⟨'t', rfl, by rw [htab]; rfl, by decide, by decide⟩
  · refine .inl ⟨'b', rfl, ?_, by decide, by decide⟩
    rw [← Char.ofNat_toNat c, hbell]
    rfl
  · refine .inl ⟨'f', rfl, ?_, by decide, by decide⟩
    rw [← Char.ofNat_toNat c, hfeed]
    rfl
  · exact .inr (.inl rfl)
  · refine .inr (.inr ⟨rfl, hquote, hback, fun h => hunits (.inl h), fun h => ?_⟩)
    exact Nat.lt_of_not_le fun hc => hunits (.inr ⟨h, hc⟩)

theorem escapes : Escapes d.escape where
  reads c rest := by
    rcases d.escape_cases c with ⟨e, htext, hmeans, hu, _⟩ | htext | ⟨htext, _, hback, hcontrol, _⟩
    · rw [htext, List.cons_append, List.singleton_append, character.eq_def]
      dsimp only
      rw [if_pos rfl, if_neg hu, hmeans]
      rfl
    · rw [htext]
      exact character_units c rest
    · rw [htext, List.singleton_append, character.eq_def]
      dsimp only
      rw [if_neg hback, if_neg hcontrol]
  starts c := by
    rcases d.escape_cases c with ⟨e, htext, _⟩ | htext | ⟨htext, hquote, _⟩
    · exact ⟨'\\', [e], htext, by decide⟩
    · rw [htext]
      unfold encodeUtf16
      split <;> exact ⟨'\\', _, rfl, by decide⟩
    · exact ⟨c, [], htext, hquote⟩

def gap (level : Nat) : List Char := if d.indent.isSome then d.close level else [' ']

theorem separator_true (level : Nat) : d.separator true level = d.close level := by
  unfold separator close
  cases d.indent <;> rfl

theorem separator_false (level : Nat) : d.separator false level = ',' :: d.gap level := by
  unfold separator gap close
  cases d.indent <;> rfl

theorem blank_close (level : Nat) : Blank (d.close level) := by
  unfold close
  cases d.indent with
  | none => exact List.forall_mem_nil _
  | some width =>
    intro c hc
    rcases List.mem_cons.mp hc with rfl | hspace
    · rfl
    · rw [List.eq_of_mem_replicate hspace]
      rfl

theorem blank_space : Blank [' '] := by
  intro c hc
  rw [List.mem_singleton.mp hc]
  rfl

theorem blank_gap (level : Nat) : Blank (d.gap level) := by
  unfold gap
  split
  · exact d.blank_close level
  · exact blank_space

theorem separated_following (closing : Char) (level : Nat) (texts : List (List Char)) :
    d.separated (level + 1) false texts ++ d.close level ++ [closing] = following (d.gap (level + 1)) (d.close level) closing texts := by
  induction texts with
  | nil => rfl
  | cons text texts ih =>
    rw [separated, separator_false, following, ← ih]
    simp only [List.cons_append, List.append_assoc]

theorem bracketed_between (opening closing : Char) (level : Nat) (texts : List (List Char)) :
    d.bracketed opening closing level texts = between opening closing (d.close (level + 1)) (d.gap (level + 1)) (d.close level) texts := by
  unfold bracketed
  cases texts with
  | nil => rfl
  | cons text texts =>
    rw [List.isEmpty_cons, if_neg Bool.false_ne_true, between, separated, separator_true, ← separated_following]
    simp only [List.cons_append, List.append_assoc]

theorem entryText_eq (key : String) (text : List Char) : d.entryText (key, text) = JsonText.memberText d.escape [' '] key text := by
  unfold entryText string JsonText.memberText
  simp only [List.cons_append, List.append_assoc, List.nil_append]

/-- **The text of a value** is read back as the value. -/
theorem reads_written {numberText : Number → List Char} {readNumber : List Char → Option Number} (hnumbers : NumberTexts numberText)
    (hread : ∀ n, readNumber (numberText n) = some n) (v : Value) : ∀ level, Reads readNumber (d.written numberText level v) v := by
  induction v using Value.induct with
  | scalar v harray hobject =>
    intro level
    cases v with
    | null => exact reads_null
    | bool b =>
      cases b
      · exact reads_false
      · exact reads_true
    | number n => exact reads_number (hread n) (hnumbers.numeric n) (hnumbers.nonempty n)
    | string s => exact reads_string d.escapes s
    | array items => exact absurd rfl (harray items)
    | object members => exact absurd rfl (hobject members)
  | array items ih =>
    intro level
    rw [written, writtenItems_eq, bracketed_between]
    apply reads_array (d.blank_close _) (d.blank_gap _) (d.blank_close _)
    rw [List.forall₂_map_left_iff, List.forall₂_same]
    exact fun item hitem => ih item hitem (level + 1)
  | object members ih =>
    intro level
    rw [written, writtenMembers_eq, bracketed_between, List.map_map]
    apply reads_object d.escapes blank_space (d.blank_close _) (d.blank_gap _) (d.blank_close _)
    rw [List.forall₂_map_left_iff, List.forall₂_same]
    exact fun m hm => ⟨d.written numberText (level + 1) m.2, d.entryText_eq m.1 _, ih m hm (level + 1)⟩

/-! ## Its characters -/

def Ascii (text : List Char) : Prop := ∀ c ∈ text, c.toNat < 128

theorem ascii_of_all {text : List Char} (h : text.all (fun c => c.toNat < 128) = true) : Ascii text := by
  intro c hc
  exact of_decide_eq_true (List.all_eq_true.mp h c hc)

theorem ascii_append {s t : List Char} (hs : Ascii s) (ht : Ascii t) : Ascii (s ++ t) := by
  intro c hc
  exact (List.mem_append.mp hc).elim (hs c) (ht c)

theorem ascii_cons {c : Char} {s : List Char} (hc : c.toNat < 128) (hs : Ascii s) : Ascii (c :: s) := List.forall_mem_cons.mpr ⟨hc, hs⟩

theorem ascii_blank {w : List Char} (hw : Blank w) : Ascii w := by
  intro c hc
  have hspace := hw c hc
  unfold isSpace at hspace
  simp only [Bool.or_eq_true, beq_iff_eq] at hspace
  rcases hspace with ((rfl | rfl) | rfl) | rfl <;> decide

theorem ascii_numeric {text : List Char} (h : ∀ c ∈ text, isNumeric c = true) : Ascii text := by
  intro c hc
  have hnumeric := h c hc
  unfold isNumeric at hnumeric
  rcases Bool.or_eq_true_iff.mp hnumeric with hdigit | hmark
  · have hnine : c.toNat ≤ 57 := (Char.isDigit_iff_toNat.mp hdigit).2
    omega
  · rw [List.contains_iff_mem] at hmark
    simp only [List.mem_cons, List.not_mem_nil, or_false] at hmark
    rcases hmark with rfl | rfl | rfl | rfl | rfl <;> decide

theorem ascii_unitText (u : Nat) : Ascii (unitText u) := by
  have hdigit (n : Nat) : (hexDigit n).toNat < 128 := by
    have hdigits : Ascii hexDigits := ascii_of_all (by decide)
    unfold hexDigit
    rw [List.getD_eq_getElem?_getD]
    rcases h : hexDigits[n]? with _ | c
    · decide
    · exact hdigits c (List.mem_of_getElem? h)
  unfold unitText
  exact ascii_cons (hdigit _) (ascii_cons (hdigit _) (ascii_cons (hdigit _) (ascii_cons (hdigit _) (List.forall_mem_nil _))))

variable {d} in
theorem ascii_escape (h : d.ensureAscii = true) (c : Char) : Ascii (d.escape c) := by
  have hnil : Ascii [] := List.forall_mem_nil _
  rcases d.escape_cases c with ⟨e, htext, _, _, hascii⟩ | htext | ⟨htext, _, _, _, hascii⟩
  · rw [htext]
    exact ascii_cons (by decide) (ascii_cons hascii hnil)
  · rw [htext]
    intro e he
    obtain ⟨unit, _, hunit⟩ := List.mem_flatMap.mp he
    exact ascii_cons (by decide) (ascii_cons (by decide) (ascii_unitText unit)) e hunit
  · rw [htext]
    exact ascii_cons (hascii h) hnil

variable {d} in
theorem ascii_string (h : d.ensureAscii = true) (s : String) : Ascii (d.string s) := by
  unfold string
  refine ascii_cons (by decide) (ascii_append (fun c hc => ?_) (ascii_cons (by decide) (List.forall_mem_nil _)))
  obtain ⟨e, _, he⟩ := List.mem_flatMap.mp hc
  exact ascii_escape h e c he

theorem ascii_following {other close : List Char} (hother : Ascii other) (hclose : Ascii close) {closing : Char} (hclosing : closing.toNat < 128)
    {texts : List (List Char)} (h : ∀ text ∈ texts, Ascii text) : Ascii (following other close closing texts) := by
  induction texts with
  | nil => exact ascii_append hclose (ascii_cons hclosing (List.forall_mem_nil _))
  | cons text texts ih =>
    obtain ⟨htext, htexts⟩ := List.forall_mem_cons.mp h
    exact ascii_cons (by decide) (ascii_append hother (ascii_append htext (ih htexts)))

theorem ascii_bracketed {opening closing : Char} (hopening : opening.toNat < 128) (hclosing : closing.toNat < 128) (level : Nat)
    {texts : List (List Char)} (h : ∀ text ∈ texts, Ascii text) : Ascii (d.bracketed opening closing level texts) := by
  rw [bracketed_between]
  cases texts with
  | nil => exact ascii_cons hopening (ascii_cons hclosing (List.forall_mem_nil _))
  | cons text texts =>
    obtain ⟨htext, htexts⟩ := List.forall_mem_cons.mp h
    exact ascii_cons hopening (ascii_append (ascii_blank (d.blank_close _)) (ascii_append htext
      (ascii_following (ascii_blank (d.blank_gap _)) (ascii_blank (d.blank_close _)) hclosing htexts)))

variable {d} in
theorem written_ascii {numberText : Number → List Char} (hnumbers : NumberTexts numberText) (h : d.ensureAscii = true) (v : Value) :
    ∀ level, Ascii (d.written numberText level v) := by
  induction v using Value.induct with
  | scalar v harray hobject =>
    intro level
    cases v with
    | null => exact ascii_of_all rfl
    | bool b =>
      cases b
      · exact ascii_of_all rfl
      · exact ascii_of_all rfl
    | number n => exact ascii_numeric (hnumbers.numeric n)
    | string s => exact ascii_string h s
    | array items => exact absurd rfl (harray items)
    | object members => exact absurd rfl (hobject members)
  | array items ih =>
    intro level
    rw [written, writtenItems_eq]
    apply d.ascii_bracketed (by decide) (by decide)
    intro text htext
    obtain ⟨item, hitem, rfl⟩ := List.mem_map.mp htext
    exact ih item hitem (level + 1)
  | object members ih =>
    intro level
    rw [written, writtenMembers_eq, List.map_map]
    apply d.ascii_bracketed (by decide) (by decide)
    intro text htext
    obtain ⟨m, hm, rfl⟩ := List.mem_map.mp htext
    exact ascii_append (ascii_append (ascii_string h m.1) (ascii_of_all (by decide))) (ih m hm (level + 1))

end JsonDumper

/-! ## One line -/

mutual

/-- `json.dumps` with its default separators. -/
def oneLine (string : String → List Char) : Value → List Char
  | .null => ['n', 'u', 'l', 'l']
  | .bool b => if b then ['t', 'r', 'u', 'e'] else ['f', 'a', 'l', 's', 'e']
  | .number n => numberText n
  | .string s => string s
  | .array items => '[' :: [',', ' '].intercalate (oneLineItems string items) ++ [']']
  | .object members => '\x7b' :: [',', ' '].intercalate (oneLineMembers string members) ++ ['\x7d']

def oneLineItems (string : String → List Char) : List Value → List (List Char)
  | [] => []
  | item :: items => oneLine string item :: oneLineItems string items

def oneLineMembers (string : String → List Char) : List (String × Value) → List (List Char)
  | [] => []
  | (key, value) :: members => (string key ++ [':', ' '] ++ oneLine string value) :: oneLineMembers string members

end

theorem oneLineItems_eq (string : String → List Char) (items : List Value) :
    oneLineItems numberText string items = items.map (oneLine numberText string) := by
  induction items with
  | nil => rfl
  | cons item items ih => rw [oneLineItems, ih, List.map_cons]

theorem oneLineMembers_eq (string : String → List Char) (members : List (String × Value)) :
    oneLineMembers numberText string members = members.map fun m => string m.1 ++ [':', ' '] ++ oneLine numberText string m.2 := by
  induction members with
  | nil => rfl
  | cons m members ih => rw [oneLineMembers, ih, List.map_cons]

namespace JsonDumper
variable {d : JsonDumper}

theorem bracketed_inline (h : d.indent = none) (opening closing : Char) (level : Nat) (texts : List (List Char)) :
    d.bracketed opening closing level texts = opening :: [',', ' '].intercalate texts ++ [closing] := by
  have hclose (level : Nat) : d.close level = [] := by rw [close, h]
  have hgap (level : Nat) : d.gap level = [' '] := by rw [gap, h]; rfl
  rw [bracketed_between, hclose, hclose, hgap]
  cases texts with
  | nil => rfl
  | cons text texts =>
    rw [between, List.nil_append, List.cons_append]
    congr 1
    induction texts generalizing text with
    | nil => simp [following]
    | cons text' texts ih =>
      rw [following, List.singleton_append, ih text']
      simp [List.intercalate, List.intersperse]

/-- **Without an indent**, the text is that of `json.dumps`. -/
theorem written_inline (h : d.indent = none) (v : Value) : ∀ level, d.written numberText level v = oneLine numberText d.string v := by
  induction v using Value.induct with
  | scalar v harray hobject =>
    intro level
    cases v with
    | array items => exact absurd rfl (harray items)
    | object members => exact absurd rfl (hobject members)
    | _ => rfl
  | array items ih =>
    intro level
    rw [written, writtenItems_eq, bracketed_inline h, oneLine, oneLineItems_eq, List.map_congr_left fun item hitem => ih item hitem (level + 1)]
  | object members ih =>
    intro level
    have htexts : (members.map fun m => (m.1, d.written numberText (level + 1) m.2)).map d.entryText =
        members.map fun m => d.string m.1 ++ [':', ' '] ++ oneLine numberText d.string m.2 := by
      rw [List.map_map]
      exact List.map_congr_left fun m hm => congrArg (d.string m.1 ++ [':', ' '] ++ ·) (ih m hm (level + 1))
    rw [written, writtenMembers_eq, bracketed_inline h, oneLine, oneLineMembers_eq, htexts]

end JsonDumper

/-! ## Orders of keys -/

theorem reordered_sortKeys (v : Value) : v.Reordered (sortKeys v) := by
  induction v using Value.induct with
  | scalar v harray hobject =>
    cases v with
    | array items => exact absurd rfl (harray items)
    | object members => exact absurd rfl (hobject members)
    | _ => exact .refl _
  | array items ih =>
    rw [sortKeys, JsonDumper.sortItems_eq]
    apply Value.Reordered.elements _ []
    rw [List.forall₂_map_right_iff, List.forall₂_same]
    exact ih
  | object members ih =>
    rw [sortKeys, JsonDumper.sortMembers_eq]
    have heach : List.Forall₂ (fun a b => a.1 = b.1 ∧ Value.Reordered a.2 b.2) members (members.map fun m => (m.1, sortKeys m.2)) := by
      rw [List.forall₂_map_right_iff, List.forall₂_same]
      exact fun m hm => ⟨rfl, ih m hm⟩
    exact .trans (Value.Reordered.eachMember heach []) (.members (List.perm_insertionSort _ _).symm)

theorem reordered_ordered (d : JsonDumper) (v : Value) : v.Reordered (d.ordered v) := by
  unfold JsonDumper.ordered
  split
  · exact reordered_sortKeys v
  · exact .refl v

theorem mem_lookup {members : List (String × Value)} (h : (members.map Prod.fst).Nodup) {key : String} {value : Value} :
    members.lookup key = some value ↔ (key, value) ∈ members := by
  induction members with
  | nil => exact iff_of_false (Option.some_ne_none _).symm List.not_mem_nil
  | cons m members ih =>
    obtain ⟨hfresh, hnodup⟩ := List.nodup_cons.mp h
    rw [List.lookup_cons, List.mem_cons]
    by_cases hkey : key = m.1
    · have hnone : (key, value) ∉ members := fun hmem => hfresh (hkey ▸ List.mem_map_of_mem (f := Prod.fst) hmem)
      rw [beq_iff_eq.mpr hkey, or_iff_left hnone, Prod.ext_iff]
      simp [hkey, eq_comm]
    · rw [beq_false_of_ne hkey, ih hnodup, or_iff_right]
      exact fun heq => hkey (congrArg Prod.fst heq)

theorem headFirst_perm {head : List String} (hhead : head.Nodup) {members : List (String × Value)} (h : (members.map Prod.fst).Nodup) :
    (headFirst head members).Perm members := by
  have hfirst (m : String × Value) : m ∈ (head.filterMap fun key => (members.lookup key).map fun value => (key, value)) ↔ m ∈ members ∧ m.1 ∈ head := by
    rw [List.mem_filterMap]
    constructor
    · rintro ⟨key, hkey, hfound⟩
      obtain ⟨value, hvalue, rfl⟩ := Option.map_eq_some_iff.mp hfound
      exact ⟨(mem_lookup h).mp hvalue, hkey⟩
    · rintro ⟨hm, hkey⟩
      exact ⟨m.1, hkey, by rw [(mem_lookup h).mpr hm]; rfl⟩
  have hrest (m : String × Value) : m ∈ (members.filter fun m => !head.contains m.1) ↔ m ∈ members ∧ m.1 ∉ head := by
    simp [List.mem_filter]
  refine (List.perm_ext_iff_of_nodup ?_ h.of_map).mpr fun m => ?_
  · refine List.Nodup.append (hhead.filterMap ?_) (h.of_map.filter _) ?_
    · intro a b m ha hb
      obtain ⟨_, _, rfl⟩ := Option.map_eq_some_iff.mp ha
      obtain ⟨_, _, heq⟩ := Option.map_eq_some_iff.mp hb
      exact (congrArg Prod.fst heq).symm
    · intro m hm hm'
      exact ((hrest m).mp hm').2 ((hfirst m).mp hm).2
  · unfold headFirst
    rw [List.mem_append, hfirst, hrest, ← and_or_left, and_iff_left (Classical.em _)]

theorem orderedObject_toJson {head : List String} (hhead : head.Nodup) {child : String → Value → TemplateValue}
    (hchild : ∀ key v, v.DistinctKeys → ∃ w, (child key v).toJson = some w ∧ v.Reordered w) {v : Value} (hv : v.DistinctKeys) :
    ∃ w, (orderedObject head child v).toJson = some w ∧ v.Reordered w := by
  cases v with
  | object members =>
    have hperm := headFirst_perm hhead hv.1
    have hentries (l : List (String × Value)) (hl : ∀ m ∈ l, m.2.DistinctKeys) :
        ∃ ms, TemplateValue.entriesToJson (l.map fun m => (m.1, child m.1 m.2)) = some ms ∧
          List.Forall₂ (fun a b => a.1 = b.1 ∧ Value.Reordered a.2 b.2) l ms := by
      induction l with
      | nil => exact ⟨[], rfl, .nil⟩
      | cons m l ih =>
        obtain ⟨hm, hl⟩ := List.forall_mem_cons.mp hl
        obtain ⟨w, hw, hsame⟩ := hchild m.1 m.2 hm
        obtain ⟨ms, hms, hrest⟩ := ih hl
        refine ⟨(m.1, w) :: ms, ?_, .cons ⟨rfl, hsame⟩ hrest⟩
        rw [List.map_cons, TemplateValue.entriesToJson, hw, hms]
        rfl
    obtain ⟨ms, hms, hsame⟩ := hentries (headFirst head members) fun m hm =>
      (Value.distinctMembers_iff members).mp hv.2 m (hperm.mem_iff.mp hm)
    refine ⟨.object ms, ?_, .trans (.members hperm.symm) (Value.Reordered.eachMember hsame [])⟩
    rw [orderedObject, TemplateValue.toJson, hms]
    rfl
  | _ => exact ⟨_, toJson_jsonToValue _, .refl _⟩

/-- **A tool** is the same JSON value in its documented order. -/
theorem toolValue_toJson {tool : Value} (h : tool.DistinctKeys) : ∃ w, (toolValue tool).toJson = some w ∧ tool.Reordered w ∧ w.DistinctKeys := by
  have hplain (v : Value) : ∃ w, (jsonToValue v).toJson = some w ∧ v.Reordered w := ⟨v, toJson_jsonToValue v, .refl v⟩
  have htool : ∃ w, (toolValue tool).toJson = some w ∧ tool.Reordered w := by
    refine orderedObject_toJson (by decide) (fun key v hv => ?_) h
    split
    · exact orderedObject_toJson (by decide) (fun _ v _ => hplain v) hv
    · exact hplain v
  obtain ⟨w, hw, hsame⟩ := htool
  exact ⟨w, hw, hsame, (distinctKeys_reordered hsame).mp h⟩

/-! ## Every JSON value -/

/-- **The text of `tojson`** is read back as the value, in the order of its keys or sorted, has only ASCII where that is asked for, and on one
line is laid out as `json.dumps` does. -/
theorem tojson_json {numberText : Number → List Char} {readNumber : List Char → Option Number} (hnumbers : NumberTexts numberText)
    (hread : ∀ n, readNumber (numberText n) = some n) (indent : Option Nat) (sortKeys ensureAscii : Option Bool) {v : Value}
    (hv : v.DistinctKeys) :
    (jsonToValue v).toJson = some v ∧ (∃ w, (toolValue v).toJson = some w ∧ v.Reordered w ∧ w.DistinctKeys) ∧
      ∀ t : TemplateValue, t.toJson = some v → ∃ text w,
        tojson numberText indent sortKeys ensureAscii t = .ok text ∧ parse readNumber text = some w ∧ v.Reordered w ∧
          w = (if sortKeys = some true then Template.sortKeys v else v) ∧ (ensureAscii = some true → ∀ c ∈ text, c.toNat < 128) ∧
          (indent = none → text = oneLine numberText (JsonDumper.string ⟨indent, sortKeys.getD false, ensureAscii.getD false⟩) w) := by
  refine ⟨toJson_jsonToValue v, toolValue_toJson hv, fun t ht => ?_⟩
  let d : JsonDumper := ⟨indent, sortKeys.getD false, ensureAscii.getD false⟩
  refine ⟨d.written numberText 0 (d.ordered v), d.ordered v, d.dump_eq numberText t v ht hv 0,
    parse_reads (d.reads_written hnumbers hread _ 0), reordered_ordered d v, ?_, fun hascii => ?_, fun hindent => ?_⟩
  · have hsort : d.sortKeys = true ↔ sortKeys = some true := by
      rw [show d.sortKeys = sortKeys.getD false from rfl]
      rcases sortKeys with _ | _ | _ <;> decide
    unfold JsonDumper.ordered
    simp only [hsort]
  · have hset : d.ensureAscii = true := by
      rw [show d.ensureAscii = ensureAscii.getD false from rfl, hascii]
      rfl
    exact JsonDumper.written_ascii hnumbers hset _ 0
  · exact JsonDumper.written_inline numberText hindent _ 0

/-- Reads `plainText`. -/
def plainNumber (text : List Char) : Option Number :=
  let digits := Nat.ofDigitChars 10 text.tail 0
  if text.head? = some '-' then some (.negInt (-(digits : Int)))
  else if text.head? = some '+' then some (.negInt digits)
  else if text.head? = some 'e' then some (.float (UInt64.ofNat digits))
  else some (.posInt (Nat.ofDigitChars 10 text 0))

theorem plainNumber_plainText (n : Number) : plainNumber (PromptDigest.plainText n) = some n := by
  cases n with
  | posInt n =>
    obtain ⟨c, tail, hdigits⟩ := List.exists_cons_of_ne_nil (Nat.toDigits_ne_nil (b := 10) (n := n))
    have hc : c.isDigit = true := Nat.isDigit_of_mem_toDigits (b := 10) (n := n) (by decide) (by decide) (hdigits ▸ List.mem_cons_self)
    have hother {e : Char} (he : e.isDigit = false) : some c ≠ some e := by
      intro heq
      rw [Option.some.inj heq, he] at hc
      exact Bool.false_ne_true hc
    have hread : Nat.ofDigitChars 10 (c :: tail) 0 = n := by rw [← hdigits, Nat.ofDigitChars_ten_toDigits]
    unfold plainNumber
    rw [PromptDigest.plainText, hdigits, List.head?_cons, if_neg (hother (by decide)), if_neg (hother (by decide)), if_neg (hother (by decide)),
      hread]
  | negInt n =>
    unfold plainNumber
    rw [PromptDigest.plainText]
    by_cases h : n < 0
    · have hn : -(n.natAbs : Int) = n := by omega
      rw [if_pos h, List.head?_cons, List.tail_cons, Nat.ofDigitChars_ten_toDigits, if_pos rfl, hn]
    · have hn : (n.natAbs : Int) = n := by omega
      rw [if_neg h, List.head?_cons, List.tail_cons, Nat.ofDigitChars_ten_toDigits, if_neg (by decide), if_pos rfl, hn]
  | float bits =>
    unfold plainNumber
    rw [PromptDigest.plainText, List.head?_cons, List.tail_cons, Nat.ofDigitChars_ten_toDigits, if_neg (by decide), if_neg (by decide), if_pos rfl,
      UInt64.ofNat_toNat]

theorem tojson_nested :
    let v : Value := .object [("b", .string "\n\"𝄞"), ("a", .array [.number (.posInt 7), .object []])]
    (jsonToValue v).toJson = some v ∧ (∃ w, (toolValue v).toJson = some w ∧ v.Reordered w ∧ w.DistinctKeys) ∧
      ∀ t : TemplateValue, t.toJson = some v → ∃ text w,
        tojson PromptDigest.plainText none none (some true) t = .ok text ∧ parse plainNumber text = some w ∧ v.Reordered w ∧
          w = (if (none : Option Bool) = some true then Template.sortKeys v else v) ∧ (some true = some true → ∀ c ∈ text, c.toNat < 128) ∧
          ((none : Option Nat) = none → text = oneLine PromptDigest.plainText (JsonDumper.string ⟨none, false, true⟩) w) := by
  intro v
  have hv : v.DistinctKeys := ⟨by decide, trivial, ⟨trivial, ⟨List.nodup_nil, trivial⟩, trivial⟩, trivial⟩
  exact tojson_json PromptDigest.numberTexts_plainText plainNumber_plainText none none (some true) hv

end Cuca.Local.Template
