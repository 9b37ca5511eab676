import Cuca.Lib.Probing
import Cuca.Local.Tokenizer.Vocab
import Mathlib.Data.List.Induction
import Mathlib.Data.Nat.Log

/-!
# The lookup table of the vocabulary

The texts stand one behind the other and are addressed by their offsets; a text is looked up in a table of ids that is probed slot by slot. The
loops take a bound on their rounds, and have no result where it does not suffice. The hash is any function of the bytes.

* `CompactVocab`, `CompactVocab.new` : the vocabulary as it is stored, and how it is built;
* `CompactVocab.get`, `CompactVocab.piece` : the lookups;
* `Built` : the table after the first ids;
* `new_eq`, `refines` : every vocabulary that is accepted is built, and finds what `Vocab` does;
* `get_lowest` : the lowest id with a text, whatever the hash.
-/

namespace Cuca.Local.Tokenizer
open Offsets Probing

def EMPTY : Nat := 2 ^ 32 - 1

/-- `n as u32` -/
def asU32 (n : Nat) : Nat := n % 2 ^ 32

/-- `usize::next_power_of_two` : the least power of two that is not less. -/
def nextPowerOfTwo (n : Nat) : Nat := 2 ^ Nat.clog 2 n

/-- FNV-1a over the bytes, folded so that the low bits carry the whole hash. -/
def hash (bytes : List UInt8) : Nat :=
  let h : UInt64 := bytes.foldl (fun h b => (h ^^^ b.toUInt64) * 0x100000001b3) 0xcbf29ce484222325
  (h ^^^ (h >>> 32)).toNat

structure CompactVocab where
  text : List Char
  /-- `offsets[id]..offsets[id + 1]` is the text of `id`. -/
  offsets : List Nat
  types : List Int
  table : List Nat
  byteIds : List (Option Nat)

namespace CompactVocab

def piece (v : CompactVocab) (id : Nat) : List Char :=
  match v.offsets[id]?, v.offsets[id + 1]? with
  | some start, some stop => (slice v.text ⟨start, stop⟩).getD []
  | _, _ => []

/-- A probe for a text ends at a slot that is not used, and at one that holds the text; also at one that there is not. -/
def ends (v : CompactVocab) (text : List Char) (slot : Nat) : Bool :=
  match v.table[slot]? with
  | none => true
  | some id => id == EMPTY || v.piece id == text

section
variable (hash : List UInt8 → Nat) (fuel : Nat)

/-- The slot where the probe for a text ends. -/
def slotOf (v : CompactVocab) (text : List Char) : Option Nat :=
  let mask := v.table.length - 1
  Rounds.rounds (fun slot => if v.ends text slot then none else some ((slot + 1) &&& mask)) fuel (hash (utf8 text) &&& mask)

/-- The id of a text goes to the free slot where its probe ends; where that holds the text already, the first id stays. -/
def enter (v : CompactVocab) (id : Nat) : Option CompactVocab :=
  let piece := v.piece (asU32 id)
  if piece.isEmpty then some v
  else do
    let slot ← v.slotOf hash fuel piece
    let other ← v.table[slot]?
    if other = EMPTY then some { v with table := v.table.set slot (asU32 id) } else some v

def get (v : CompactVocab) (text : List Char) : Option (Option Nat) :=
  if text.isEmpty then some none
  else do
    let slot ← v.slotOf hash fuel text
    let id ← v.table[slot]?
    some (if id = EMPTY then none else some id)

/-- One more text behind the others. -/
def pushPiece (stored : List Char × List Nat) (piece : List Char) : List Char × List Nat :=
  let text := stored.1 ++ piece
  (text, stored.2 ++ [asU32 (size text)])

def slots (tokens : Nat) : Nat := max (nextPowerOfTwo ((tokens + 1) * 2)) 8

/-- The vocabulary before its first id is entered. -/
def unfilled (pieces : List (List Char)) (types : List Int) : CompactVocab :=
  let stored := pieces.foldl pushPiece ([], [0])
  ⟨stored.1, stored.2, types, List.replicate (max (nextPowerOfTwo (stored.2.length * 2)) 8) EMPTY, List.replicate 256 none⟩

/-- Every id in turn, then the byte tokens. -/
def fill (v : CompactVocab) : Option CompactVocab := do
  let filled ← (List.range v.types.length).foldlM (enter hash fuel) v
  let byteIds ← (List.range 256).mapM fun byte => filled.get hash fuel (byteText (UInt8.ofNat byte))
  return { filled with byteIds }

def new (pieces : List (List Char)) (types : List Int) : Except CucaError (Option CompactVocab) :=
  if pieces.length ≠ types.length then
    let tokens := pieces.length
    let given := types.length
    .error (localErr s!"tokenizer has {tokens} tokens but {given} token types")
  else if (pieces.map fun piece => (utf8 piece).length).sum > 2 ^ 32 - 1 || pieces.length ≥ EMPTY then
    .error (localErr "tokenizer vocabulary is too large")
  else .ok ((unfilled pieces types).fill hash fuel)

end

def byteToken (v : CompactVocab) (byte : UInt8) : Option Nat := v.byteIds.getD byte.toNat none

/-! ## The texts -/

theorem stored_eq (pieces : List (List Char)) (h : size pieces.flatten < 2 ^ 32) :
    (pieces.foldl pushPiece ([], [0])).1 = pieces.flatten ∧
      (pieces.foldl pushPiece ([], [0])).2 = (List.range (pieces.length + 1)).map fun n => size (pieces.take n).flatten := by
  induction pieces using List.reverseRecOn with
  | nil => exact ⟨rfl, rfl⟩
  | append_singleton pieces piece ih =>
    have hflatten : (pieces ++ [piece]).flatten = pieces.flatten ++ piece := by
      rw [List.flatten_append, List.flatten_singleton]
    rw [hflatten] at h ⊢
    rw [size_append] at h
    obtain ⟨htext, hoffsets⟩ := ih (by omega)
    rw [List.foldl_concat, pushPiece, htext, hoffsets]
    refine ⟨rfl, ?_⟩
    rw [List.length_append, List.length_singleton, List.range_succ (n := pieces.length + 1), List.map_append, List.map_singleton]
    apply congrArg₂
    · refine List.map_congr_left fun n hn => ?_
      rw [List.take_append_of_le_length (Nat.le_of_lt_succ (List.mem_range.mp hn))]
    · rw [asU32, size_append, Nat.mod_eq_of_lt h, List.take_of_length_le (by rw [List.length_append, List.length_singleton]), hflatten,
        size_append]

/-- A vocabulary that holds these texts. -/
structure Stores (v : CompactVocab) (pieces : List (List Char)) : Prop where
  text : v.text = pieces.flatten
  offsets : v.offsets = (List.range (pieces.length + 1)).map fun n => size (pieces.take n).flatten

theorem Stores.piece {v : CompactVocab} {pieces : List (List Char)} (h : v.Stores pieces) (id : Nat) : v.piece id = pieces.getD id [] := by
  have hoffset (n : Nat) (hn : n < pieces.length + 1) : v.offsets[n]? = some (size (pieces.take n).flatten) := by
    rw [h.offsets, List.getElem?_map, List.getElem?_range hn, Option.map_some]
  unfold CompactVocab.piece
  by_cases hid : id < pieces.length
  · have hsplit : pieces = pieces.take id ++ pieces[id] :: pieces.drop (id + 1) := by
      rw [List.getElem_cons_drop, List.take_append_drop]
    have hat : At v.text (size (pieces.take id).flatten) (pieces[id] ++ (pieces.drop (id + 1)).flatten) := by
      refine ⟨(pieces.take id).flatten, ?_, rfl⟩
      rw [h.text, ← List.flatten_cons, ← List.flatten_append, ← hsplit]
    have hstop : size (pieces.take (id + 1)).flatten = size (pieces.take id).flatten + size pieces[id] := by
      rw [List.take_succ_eq_append_getElem hid, List.flatten_append, List.flatten_singleton, size_append]
    rw [hoffset id (by omega), hoffset (id + 1) (by omega), hstop]
    show (slice v.text _).getD [] = _
    rw [hat.slice, Option.getD_some, List.getD_eq_getElem _ _ hid]
  · have hbeyond : v.offsets[id + 1]? = none := by
      rw [List.getElem?_eq_none_iff, h.offsets, List.length_map, List.length_range]
      omega
    rw [hbeyond, List.getD_eq_default _ _ (Nat.le_of_not_lt hid)]
    cases v.offsets[id]? <;> rfl

/-! ## Slots -/

theorem slots_eq (tokens : Nat) : ∃ n, slots tokens = 2 ^ n := by
  rcases Nat.le_total (nextPowerOfTwo ((tokens + 1) * 2)) 8 with h | h
  · exact ⟨3, max_eq_right h⟩
  · exact ⟨_, max_eq_left h⟩

theorem lt_slots (tokens : Nat) : tokens < slots tokens := by
  have hpow : (tokens + 1) * 2 ≤ nextPowerOfTwo ((tokens + 1) * 2) := Nat.le_pow_clog (by decide) _
  have hmax : nextPowerOfTwo ((tokens + 1) * 2) ≤ slots tokens := le_max_left ..
  omega

theorem and_mask {tokens : Nat} (n : Nat) : n &&& (slots tokens - 1) = n % slots tokens := by
  obtain ⟨k, hk⟩ := slots_eq tokens
  rw [hk, Nat.and_two_pow_sub_one_eq_mod]

section
variable {hash : List UInt8 → Nat} {fuel : Nat} {pieces : List (List Char)} {v : CompactVocab} {n : Nat}

/-- The table that the first `n` ids are entered in: each text that is not empty has one entry, its first id. -/
structure Built (hash : List UInt8 → Nat) (pieces : List (List Char)) (n : Nat) (table : List Nat) : Prop where
  length : table.length = slots pieces.length
  unbroken : Unbroken (· = EMPTY) (pieces.getD · []) (fun text => hash (utf8 text)) table
  first : ∀ id ∈ table, id ≠ EMPTY → id < n ∧ pieces.getD id [] ≠ [] ∧ ∀ j < id, pieces.getD j [] ≠ pieces.getD id []
  entered : ∀ id < n, pieces.getD id [] ≠ [] → ∃ b ∈ table, b ≠ EMPTY ∧ pieces.getD b [] = pieces.getD id []
  count : table.countP (· != EMPTY) ≤ n

theorem built_zero : Built hash pieces 0 (List.replicate (slots pieces.length) EMPTY) where
  length := List.length_replicate
  unbroken := unbroken_replicate _ rfl
  first id hid hused := absurd (List.eq_of_mem_replicate hid) hused
  entered id hid := absurd hid (Nat.not_lt_zero id)
  count := by
    rw [List.countP_replicate, if_neg (by simp)]

/-- **The loop ends**: where a probe for a text comes to its end. -/
theorem Built.slotOf (h : Built hash pieces n v.table) (hv : v.Stores pieces) (hn : n ≤ pieces.length) (hfuel : slots pieces.length ≤ fuel)
    (text : List Char) : ∃ k, First (· = EMPTY) (pieces.getD · []) (fun text => hash (utf8 text)) v.table text k ∧
      v.slotOf hash fuel text = some ((hash (utf8 text) + k) % v.table.length) := by
  have hfree : ∃ id ∈ v.table, id = EMPTY := by
    refine exists_free (fun id => (bne_iff_ne : (id != EMPTY) = true ↔ id ≠ EMPTY)) ?_
    have hcount := h.count
    have hslots := lt_slots pieces.length
    rw [h.length]
    omega
  have hends (i : Nat) (hi : i < v.table.length) : v.ends text i = true ↔ ¬ Passes (· = EMPTY) (pieces.getD · []) v.table text i := by
    rw [ends, List.getElem?_eq_getElem hi]
    show (v.table[i] == EMPTY || v.piece v.table[i] == text) = true ↔ _
    rw [Bool.or_eq_true, beq_iff_eq, beq_iff_eq, hv.piece]
    constructor
    · rintro hend ⟨a, ha, hused, hother⟩
      obtain rfl := Option.some.inj ((List.getElem?_eq_getElem hi).symm.trans ha)
      exact hend.elim hused hother
    · intro hpasses
      by_contra hend
      rw [not_or] at hend
      exact hpasses ⟨_, List.getElem?_eq_getElem hi, hend⟩
  obtain ⟨k, hk⟩ : ∃ k, First (· = EMPTY) (pieces.getD · []) (fun text => hash (utf8 text)) v.table text k := exists_first hfree text
  refine ⟨k, hk, ?_⟩
  have hprobe := probe_first hends hk (h.length ▸ hfuel)
  unfold CompactVocab.slotOf
  simp only [h.length, and_mask] at hprobe ⊢
  exact hprobe

theorem mem_set_of_mem {table : List Nat} {i a b : Nat} (hi : table[i]? = some EMPTY) (hb : b ∈ table) (hused : b ≠ EMPTY) : b ∈ table.set i a := by
  obtain ⟨j, hj⟩ := List.mem_iff_getElem?.mp hb
  have hne : i ≠ j := by
    rintro rfl
    exact hused (Option.some.inj (hj.symm.trans hi))
  exact List.mem_iff_getElem?.mpr ⟨j, by rw [List.getElem?_set_ne hne, hj]⟩

theorem Built.set (h : Built hash pieces n v.table) (hpiece : pieces.getD n [] ≠ []) {k : Nat} (hused : n ≠ EMPTY)
    (hk : First (· = EMPTY) (pieces.getD · []) (fun text => hash (utf8 text)) v.table (pieces.getD n []) k)
    (hi : v.table[(hash (utf8 (pieces.getD n [])) + k) % v.table.length]? = some EMPTY) :
    Built hash pieces (n + 1) (v.table.set ((hash (utf8 (pieces.getD n [])) + k) % v.table.length) n) where
  length := by rw [List.length_set, h.length]
  unbroken := h.unbroken.set hk hi rfl
  first id hid hidUsed := by
    rcases List.mem_or_eq_of_mem_set hid with hid | rfl
    · obtain ⟨hlt, hrest⟩ := h.first id hid hidUsed
      exact ⟨Nat.lt_succ_of_lt hlt, hrest⟩
    · refine ⟨Nat.lt_succ_self id, hpiece, fun j hj hsame => ?_⟩
      obtain ⟨b, hb, hbUsed, hbPiece⟩ := h.entered j hj (hsame ▸ hpiece)
      exact h.unbroken.missing hk hi rfl hb hbUsed (hbPiece.trans hsame)
  entered id hid hidPiece := by
    rcases Nat.lt_succ_iff_lt_or_eq.mp hid with hid | rfl
    · obtain ⟨b, hb, hbUsed, hbPiece⟩ := h.entered id hid hidPiece
      exact ⟨b, mem_set_of_mem hi hb hbUsed, hbUsed, hbPiece⟩
    · exact ⟨id, List.mem_set (List.getElem?_eq_some_iff.mp hi).1 _, hused, rfl⟩
  count := Nat.le_trans (countP_set_le _ _) (Nat.succ_le_succ h.count)

theorem Built.skip (h : Built hash pieces n v.table)
    (hentered : pieces.getD n [] ≠ [] → ∃ b ∈ v.table, b ≠ EMPTY ∧ pieces.getD b [] = pieces.getD n []) : Built hash pieces (n + 1) v.table where
  length := h.length
  unbroken := h.unbroken
  first id hid hused := by
    obtain ⟨hlt, hrest⟩ := h.first id hid hused
    exact ⟨Nat.lt_succ_of_lt hlt, hrest⟩
  entered id hid hpiece := by
    rcases Nat.lt_succ_iff_lt_or_eq.mp hid with hid | rfl
    · exact h.entered id hid hpiece
    · exact hentered hpiece
  count := Nat.le_succ_of_le h.count

theorem Built.enter (h : Built hash pieces n v.table) (hv : v.Stores pieces) (hn : n < pieces.length) (hlarge : pieces.length < EMPTY)
    (hfuel : slots pieces.length ≤ fuel) :
    ∃ table, v.enter hash fuel n = some { v with table } ∧ Built hash pieces (n + 1) table := by
  have hempty : n < EMPTY := Nat.lt_trans hn hlarge
  have hid : asU32 n = n := Nat.mod_eq_of_lt (Nat.lt_trans hempty (by decide))
  unfold CompactVocab.enter
  rw [hid, hv.piece]
  by_cases hpiece : pieces.getD n [] = []
  · exact ⟨v.table, by rw [hpiece]; rfl, h.skip fun hne => absurd hpiece hne⟩
  · obtain ⟨k, hk, hslot⟩ := h.slotOf hv (Nat.le_of_lt hn) hfuel (pieces.getD n [])
    obtain ⟨a, ha, hends⟩ := hk.getElem?
    dsimp only
    rw [if_neg (by rwa [List.isEmpty_iff]), hslot, Option.bind_eq_bind, Option.bind_some, ha, Option.bind_some]
    by_cases haEmpty : a = EMPTY
    · subst haEmpty
      rw [if_pos rfl]
      exact ⟨_, rfl, h.set hpiece (Nat.ne_of_lt hempty) hk ha⟩
    · rw [if_neg haEmpty]
      exact ⟨v.table, rfl, h.skip fun _ => ⟨a, List.mem_of_getElem? ha, haEmpty, hends.resolve_left haEmpty⟩⟩

theorem Stores.withTable (hv : v.Stores pieces) (table : List Nat) : Stores { v with table } pieces := ⟨hv.text, hv.offsets⟩

theorem built_all (h : Built hash pieces 0 v.table) (hv : v.Stores pieces) (hlarge : pieces.length < EMPTY)
    (hfuel : slots pieces.length ≤ fuel) (hn : n ≤ pieces.length) :
    ∃ table, (List.range n).foldlM (CompactVocab.enter hash fuel) v = some { v with table } ∧ Built hash pieces n table := by
  induction n with
  | zero => exact ⟨v.table, rfl, h⟩
  | succ n ih =>
    obtain ⟨table, hfold, hbuilt⟩ := ih (Nat.le_of_succ_le hn)
    obtain ⟨table', henter, hbuilt'⟩ := Built.enter (v := { v with table }) hbuilt (hv.withTable table) hn hlarge hfuel
    refine ⟨table', ?_, hbuilt'⟩
    rw [List.range_succ, List.foldlM_append, hfold, Option.bind_eq_bind, Option.bind_some, List.foldlM_cons, henter]
    rfl

theorem Built.get (h : Built hash pieces pieces.length v.table) (hv : v.Stores pieces) (hfuel : slots pieces.length ≤ fuel) {text : List Char}
    (htext : text ≠ []) : v.get hash fuel text = some (pieces.findIdx? (· == text)) := by
  obtain ⟨k, hk, hslot⟩ := h.slotOf hv (Nat.le_refl _) hfuel text
  obtain ⟨a, ha, hends⟩ := hk.getElem?
  unfold CompactVocab.get
  rw [if_neg (by rwa [List.isEmpty_iff]), hslot, Option.bind_eq_bind, Option.bind_some, ha, Option.bind_some]
  apply congrArg
  by_cases haEmpty : a = EMPTY
  · rw [if_pos haEmpty]
    symm
    rw [List.findIdx?_eq_none_iff]
    intro piece hmem
    rw [beq_eq_false_iff_ne]
    rintro rfl
    obtain ⟨id, hid, hpiece⟩ := List.mem_iff_getElem.mp hmem
    have hget : pieces.getD id [] = piece := by rw [List.getD_eq_getElem _ _ hid, hpiece]
    obtain ⟨b, hb, hused, hbPiece⟩ := h.entered id hid (by rwa [hget])
    exact h.unbroken.missing hk ha haEmpty hb hused (hbPiece.trans hget)
  · rw [if_neg haEmpty]
    symm
    obtain ⟨hlt, -, hfirst⟩ := h.first a (List.mem_of_getElem? ha) haEmpty
    have hpiece : pieces.getD a [] = text := hends.resolve_left haEmpty
    rw [List.findIdx?_eq_some_iff_getElem]
    refine ⟨hlt, ?_, fun j hj => ?_⟩
    · rw [beq_iff_eq, ← hpiece, List.getD_eq_getElem _ _ hlt]
    · have hother := hfirst j hj
      rw [hpiece, List.getD_eq_getElem _ _ (Nat.lt_trans hj hlt)] at hother
      simpa using hother

theorem Built.fill (h : Built hash pieces 0 v.table) (hv : v.Stores pieces) (htypes : pieces.length = v.types.length)
    (hlarge : pieces.length < EMPTY) (hfuel : slots pieces.length ≤ fuel) : ∃ w, v.fill hash fuel = some w ∧ w.Stores pieces ∧
      Built hash pieces pieces.length w.table ∧ w.types = v.types ∧
      w.byteIds = (List.range 256).map fun byte => pieces.findIdx? (· == byteText (UInt8.ofNat byte)) := by
  obtain ⟨table, hfold, hbuilt⟩ := built_all h hv hlarge hfuel (Nat.le_refl pieces.length)
  have hget (byte : Nat) : CompactVocab.get hash fuel { v with table } (byteText (UInt8.ofNat byte)) =
      some (pieces.findIdx? (· == byteText (UInt8.ofNat byte))) :=
    Built.get (v := { v with table }) hbuilt (hv.withTable table) hfuel (by simp [byteText])
  refine ⟨{ v with table, byteIds := _ }, ?_, ⟨hv.text, hv.offsets⟩, hbuilt, rfl, rfl⟩
  unfold CompactVocab.fill
  have hbytes : ((List.range 256).mapM fun byte => CompactVocab.get hash fuel { v with table } (byteText (UInt8.ofNat byte))) =
      some ((List.range 256).map fun byte => pieces.findIdx? (· == byteText (UInt8.ofNat byte))) := by
    rw [funext hget]
    exact List.mapM_pure
  rw [← htypes, hfold, Option.bind_eq_bind, Option.bind_some, hbytes]
  rfl

end

/-! ## Vocabularies that are accepted -/

section
variable (hash : List UInt8 → Nat) {fuel : Nat} (pieces : List (List Char)) (types : List Int)

theorem size_flatten (pieces : List (List Char)) : (pieces.map fun piece => (utf8 piece).length).sum = size pieces.flatten := by
  induction pieces with
  | nil => rfl
  | cons piece pieces ih => rw [List.map_cons, List.sum_cons, ih, length_utf8, List.flatten_cons, size_append]

/-- **The same vocabularies** are accepted as by `Vocab.new`, the others are rejected with the same errors, and no loop goes on for ever. -/
theorem new_eq (hfuel : slots pieces.length ≤ fuel) : (∃ e, Vocab.new pieces types = .error e ∧ new hash fuel pieces types = .error e) ∨
    ∃ v, Vocab.new pieces types = .ok ⟨pieces, types⟩ ∧ new hash fuel pieces types = .ok (some v) ∧ v.Stores pieces ∧
      Built hash pieces pieces.length v.table ∧ v.types = types ∧
      v.byteIds = (List.range 256).map fun byte => pieces.findIdx? (· == byteText (UInt8.ofNat byte)) := by
  unfold Vocab.new new
  by_cases hlength : pieces.length = types.length
  case neg => exact .inl ⟨_, if_pos hlength, if_pos hlength⟩
  rw [if_neg (not_not.mpr hlength), if_neg (not_not.mpr hlength)]
  by_cases hlarge : ((pieces.map fun piece => (utf8 piece).length).sum > 2 ^ 32 - 1 || pieces.length ≥ EMPTY) = true
  case pos => exact .inl ⟨_, if_pos hlarge, if_pos hlarge⟩
  have hbounds := hlarge
  rw [Bool.or_eq_true, not_or, decide_eq_true_eq, decide_eq_true_eq, size_flatten] at hbounds
  obtain ⟨htext, hoffsets⟩ := stored_eq pieces (by omega)
  have hstores : (unfilled pieces types).Stores pieces := ⟨htext, hoffsets⟩
  have hbuilt : Built hash pieces 0 (unfilled pieces types).table := by
    show Built hash pieces 0 (List.replicate (max (nextPowerOfTwo ((pieces.foldl pushPiece ([], [0])).2.length * 2)) 8) EMPTY)
    rw [hoffsets, List.length_map, List.length_range]
    exact built_zero
  obtain ⟨v, hfill, hv⟩ := hbuilt.fill hstores hlength (by omega) hfuel
  exact .inr ⟨v, if_neg hlarge, (if_neg hlarge).trans (congrArg Except.ok hfill), hv⟩

/-- **The stored vocabulary** finds what the list of its texts does. -/
theorem refines (hfuel : slots pieces.length ≤ fuel) : (∃ e, Vocab.new pieces types = .error e ∧ new hash fuel pieces types = .error e) ∨
    ∃ v vocab, Vocab.new pieces types = .ok vocab ∧ new hash fuel pieces types = .ok (some v) ∧ (∀ id, v.piece id = vocab.piece id) ∧
      (∀ text, v.get hash fuel text = some (vocab.get text)) ∧ ∀ byte, v.byteToken byte = vocab.byteToken byte := by
  rcases new_eq hash pieces types hfuel with herror | ⟨v, hvocab, hnew, hstores, hbuilt, -, hbytes⟩
  · exact .inl herror
  · refine .inr ⟨v, _, hvocab, hnew, hstores.piece, fun text => ?_, fun byte => ?_⟩
    · by_cases htext : text = []
      · rw [htext]
        rfl
      · rw [hbuilt.get hstores hfuel htext, Vocab.get, if_neg (by rwa [List.isEmpty_iff])]
    · have hlt : byte.toNat < 256 := byte.toNat_lt
      rw [byteToken, hbytes, Vocab.byteToken, Vocab.get, if_neg (by simp [byteText]), List.getD_eq_getElem?_getD, List.getElem?_map,
        List.getElem?_range hlt, Option.map_some, Option.getD_some, UInt8.ofNat_toNat]

/-- **The lookup table**: whatever the hash, every loop ends within a round of the table, and each text that is not empty has the lowest id with
that text, or none where there is none. -/
theorem get_lowest (hfuel : slots pieces.length ≤ fuel) : (∃ e, new hash fuel pieces types = .error e) ∨
    ∃ v, new hash fuel pieces types = .ok (some v) ∧ ∀ text, text ≠ [] → ∃ answer, v.get hash fuel text = some answer ∧
      ∀ id, answer = some id ↔ pieces[id]? = some text ∧ ∀ j < id, pieces[j]? ≠ some text := by
  rcases new_eq hash pieces types hfuel with ⟨e, -, herror⟩ | ⟨v, -, hnew, hstores, hbuilt, -⟩
  · exact .inl ⟨e, herror⟩
  · refine .inr ⟨v, hnew, fun text htext => ⟨_, hbuilt.get hstores hfuel htext, fun id => ?_⟩⟩
    rw [List.findIdx?_eq_some_iff_getElem]
    constructor
    · rintro ⟨hid, hpiece, hfirst⟩
      rw [beq_iff_eq] at hpiece
      refine ⟨by rw [List.getElem?_eq_getElem hid, hpiece], fun j hj hsame => ?_⟩
      rw [List.getElem?_eq_getElem (Nat.lt_trans hj hid), Option.some_inj] at hsame
      exact hfirst j hj (beq_iff_eq.mpr hsame)
    · rintro ⟨hpiece, hfirst⟩
      obtain ⟨hid, hpiece⟩ := List.getElem?_eq_some_iff.mp hpiece
      refine ⟨hid, beq_iff_eq.mpr hpiece, fun j hj hsame => hfirst j hj ?_⟩
      rw [List.getElem?_eq_getElem (Nat.lt_trans hj hid), Option.some_inj]
      exact beq_iff_eq.mp hsame

end

def letters : List (List Char) := [['a'], ['b'], ['a'], []]

theorem get_lowest_letters : ∃ v, new Tokenizer.hash (slots letters.length) letters [1, 1, 1, 1] = .ok (some v) ∧
    v.get Tokenizer.hash (slots letters.length) ['a'] = some (some 0) := by
  rcases get_lowest Tokenizer.hash letters [1, 1, 1, 1] (Nat.le_refl _) with ⟨e, herror⟩ | ⟨v, hnew, hget⟩
  · cases herror
  · obtain ⟨answer, hanswer, hlowest⟩ := hget ['a'] (by decide)
    exact ⟨v, hnew, hanswer.trans (congrArg some ((hlowest 0).mpr ⟨rfl, fun j hj => absurd hj (Nat.not_lt_zero j)⟩))⟩

end CompactVocab

end Cuca.Local.Tokenizer
