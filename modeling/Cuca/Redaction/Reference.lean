import Cuca.Redaction.Scrub
import Cuca.Lib.Ranking

/-!
# Scrubbing against a search from scratch

The reference searches every rule again behind each match, and takes the first of what it finds: the leftmost, of those at one
place the longest, and of those the one of the earliest rule.

* `leftmostLongest`, `RedactionPlugin.offered`, `RedactionPlugin.first` : which match is first;
* `RedactionPlugin.reference` : the matches of a text;
* `bestOf_offered` : the candidate that is taken is the first one;
* `atHead_bytes` : the bytes of a match are text by themselves;
* `RedactionPlugin.scrub_reference` : scrubbing takes the matches of the reference, each within two character boundaries.
-/

namespace Cuca.Redaction
open Rewriting Ranking Std

def leftmostLongest (a b : Match) : Ordering :=
  (compare a.start b.start).then ((compare b.stop a.stop).then (compare a.rule b.rule))

def offeredOf (pending : List (Option (Nat × Nat))) (rule : Nat) : List Match :=
  (pending.zipIdx rule).filterMap fun slot => slot.1.map fun span => ⟨span.1, span.2, slot.2⟩

namespace RedactionPlugin
variable (p : RedactionPlugin)

def offered (text : Bytes) (cursor : Nat) : List Match :=
  offeredOf (p.rules.map fun rule => rule.matcher.findFrom text cursor) 0

def first (text : Bytes) (cursor : Nat) : Option Match := (sortBy leftmostLongest (p.offered text cursor)).head?

/-- The matches from the cursor on, each searched for from the end of the one before it. -/
def reference (text : Bytes) : Nat → Nat → List Match
  | 0, _ => []
  | fuel + 1, cursor =>
    match p.first text cursor with
    | none => []
    | some m => m :: reference text fuel m.stop

end RedactionPlugin

/-! ## The first match -/

instance : TransCmp leftmostLongest := by
  have hstart : TransCmp fun a b : Match => compare a.start b.start := inferInstanceAs (TransCmp (compareOn Match.start))
  have hstop : TransCmp fun a b : Match => compare b.stop a.stop := transCmp_descending Match.stop
  have hrule : TransCmp fun a b : Match => compare a.rule b.rule := inferInstanceAs (TransCmp (compareOn Match.rule))
  have hrest : TransCmp fun a b : Match => (compare b.stop a.stop).then (compare a.rule b.rule) :=
    inferInstanceAs (TransCmp (compareLex _ _))
  exact inferInstanceAs (TransCmp (compareLex _ _))

theorem leftmostLongest_eq {a b : Match} (h : leftmostLongest a b = .eq) : a = b := by
  obtain ⟨hstart, hrest⟩ := Ordering.then_eq_eq.mp h
  obtain ⟨hstop, hrule⟩ := Ordering.then_eq_eq.mp hrest
  obtain ⟨start, stop, rule⟩ := a
  obtain ⟨start', stop', rule'⟩ := b
  obtain rfl : start = start' := Nat.compare_eq_eq.mp hstart
  obtain rfl : stop' = stop := Nat.compare_eq_eq.mp hstop
  obtain rfl : rule = rule' := Nat.compare_eq_eq.mp hrule
  rfl

theorem leftmostLongest_isLE {a b : Match} : (leftmostLongest a b).isLE ↔
    a.start < b.start ∨ a.start = b.start ∧ (b.stop < a.stop ∨ a.stop = b.stop ∧ a.rule ≤ b.rule) := by
  rw [leftmostLongest, Ordering.isLE_then_iff_or, Ordering.isLE_then_iff_or, Nat.compare_eq_lt, Nat.compare_eq_eq,
    Nat.compare_eq_lt, Nat.compare_eq_eq, Nat.isLE_compare, eq_comm (a := b.stop)]

theorem preferred_isLE {best : Match} {span : Nat × Nat} {rule : Nat} (hrule : best.rule < rule) :
    (leftmostLongest (preferred (some best) span rule) best).isLE ∧
      (leftmostLongest (preferred (some best) span rule) ⟨span.1, span.2, rule⟩).isLE := by
  rw [leftmostLongest_isLE, leftmostLongest_isLE, preferred]
  dsimp only
  split_ifs
  · omega
  · dsimp only
    omega

theorem mem_offeredOf_cons {slot : Option (Nat × Nat)} {pending : List (Option (Nat × Nat))} {rule : Nat} {m : Match} :
    m ∈ offeredOf (slot :: pending) rule ↔
      (∃ span, slot = some span ∧ m = ⟨span.1, span.2, rule⟩) ∨ m ∈ offeredOf pending (rule + 1) := by
  rw [offeredOf, List.zipIdx_cons, List.filterMap_cons, offeredOf]
  rcases slot with _ | span
  · simp only [Option.map_none, reduceCtorEq, false_and, exists_false, false_or]
  · simp only [Option.map_some, List.mem_cons, Option.some.injEq, exists_eq_left']

/-- **The candidate that is taken** is no later than the best one so far and all that are offered. -/
theorem bestOf_offered {pending : List (Option (Nat × Nat))} {rule : Nat} {best m : Match} (hrule : best.rule < rule)
    (h : bestOf pending rule (some best) = some m) :
    (m = best ∨ m ∈ offeredOf pending rule) ∧ (leftmostLongest m best).isLE ∧
      ∀ y ∈ offeredOf pending rule, (leftmostLongest m y).isLE := by
  induction pending generalizing rule best with
  | nil =>
    obtain rfl := Option.some.inj h
    exact ⟨.inl rfl, ReflCmp.isLE_rfl, fun _ hy => absurd hy List.not_mem_nil⟩
  | cons slot pending ih =>
    rcases slot with _ | span
    · obtain ⟨hmem, hbest, hall⟩ := ih (Nat.lt_succ_of_lt hrule) h
      refine ⟨hmem.imp_right fun hm => mem_offeredOf_cons.mpr (.inr hm), hbest, fun y hy => ?_⟩
      rcases mem_offeredOf_cons.mp hy with ⟨span, hspan, _⟩ | hy
      · exact absurd hspan (by simp)
      · exact hall y hy
    · rw [bestOf] at h
      obtain ⟨hbetter, hspan⟩ : (leftmostLongest (preferred (some best) span rule) best).isLE ∧
          (leftmostLongest (preferred (some best) span rule) ⟨span.1, span.2, rule⟩).isLE := preferred_isLE hrule
      have hchoice : preferred (some best) span rule = best ∨ preferred (some best) span rule = ⟨span.1, span.2, rule⟩ := by
        rw [preferred]
        dsimp only
        split_ifs
        · exact .inl rfl
        · exact .inr rfl
      generalize preferred (some best) span rule = better at h hbetter hspan hchoice
      have hlater : better.rule < rule + 1 := by
        rcases hchoice with rfl | rfl
        · exact Nat.lt_succ_of_lt hrule
        · exact Nat.lt_succ_self rule
      obtain ⟨hmem, hfirst, hall⟩ := ih hlater h
      refine ⟨?_, TransCmp.isLE_trans hfirst hbetter, fun y hy => ?_⟩
      · rcases hmem with rfl | hmem
        · exact hchoice.imp_right fun heq => mem_offeredOf_cons.mpr (.inl ⟨span, rfl, heq⟩)
        · exact .inr (mem_offeredOf_cons.mpr (.inr hmem))
      · rcases mem_offeredOf_cons.mp hy with ⟨span', heq, rfl⟩ | hy
        · obtain rfl := Option.some.inj heq
          exact TransCmp.isLE_trans hfirst hspan
        · exact hall y hy

theorem bestOf_eq_first {pending : List (Option (Nat × Nat))} {rule : Nat} :
    bestOf pending rule none = (sortBy leftmostLongest (offeredOf pending rule)).head? := by
  induction pending generalizing rule with
  | nil => rfl
  | cons slot pending ih =>
    rcases slot with _ | span
    · have hskip : offeredOf (none :: pending) rule = offeredOf pending (rule + 1) := rfl
      rw [bestOf, ih, hskip]
    · obtain ⟨m, hm⟩ := bestOf_isSome pending (rule + 1) (preferred none span rule)
      obtain ⟨hmem, hfirst, hall⟩ := bestOf_offered (Nat.lt_succ_self rule) hm
      rw [bestOf, hm]
      symm
      apply head?_sortBy fun _ _ _ _ => leftmostLongest_eq
      · rcases hmem with rfl | hmem
        · exact mem_offeredOf_cons.mpr (.inl ⟨span, rfl, rfl⟩)
        · exact mem_offeredOf_cons.mpr (.inr hmem)
      · intro y hy
        rcases mem_offeredOf_cons.mp hy with ⟨span', heq, rfl⟩ | hy
        · obtain rfl := Option.some.inj heq
          exact hfirst
        · exact hall y hy

namespace RedactionPlugin
variable {p : RedactionPlugin}

theorem first_eq (text : Bytes) (cursor : Nat) : p.first text cursor = bestOf (p.candidates text cursor) 0 none :=
  bestOf_eq_first.symm

theorem first_bounds (hvalid : p.Valid) {text : Bytes} {cursor : Nat} {m : Match} (h : p.first text cursor = some m) :
    cursor ≤ m.start ∧ m.start < m.stop ∧ m.stop ≤ text.length := by
  rw [first_eq] at h
  obtain ⟨hstart, hstop, hlong, _⟩ := candidate_bounds hvalid h
  exact ⟨hstart, hstop, hlong⟩

theorem reference_forall {text : Bytes} {P : Match → Prop} (hP : ∀ cursor m, p.first text cursor = some m → P m) (fuel cursor : Nat) :
    ∀ m ∈ p.reference text fuel cursor, P m := by
  induction fuel generalizing cursor with
  | zero => exact fun _ h => absurd h List.not_mem_nil
  | succ fuel ih =>
    rw [reference]
    rcases hfirst : p.first text cursor with _ | m
    · exact fun _ h => absurd h List.not_mem_nil
    · exact List.forall_mem_cons.mpr ⟨hP cursor m hfirst, ih m.stop⟩

theorem reference_disjoint (hvalid : p.Valid) (text : Bytes) (fuel cursor : Nat) :
    (p.reference text fuel cursor).Pairwise (fun a b => a.stop ≤ b.start) ∧ ∀ m ∈ p.reference text fuel cursor, cursor ≤ m.start := by
  induction fuel generalizing cursor with
  | zero => exact ⟨List.Pairwise.nil, fun _ h => absurd h List.not_mem_nil⟩
  | succ fuel ih =>
    rw [reference]
    rcases hfirst : p.first text cursor with _ | m
    · exact ⟨List.Pairwise.nil, fun _ h => absurd h List.not_mem_nil⟩
    · obtain ⟨hdisjoint, hbehind⟩ := ih m.stop
      obtain ⟨hstart, hstop, _⟩ := first_bounds hvalid hfirst
      refine ⟨List.pairwise_cons.mpr ⟨hbehind, hdisjoint⟩, List.forall_mem_cons.mpr ⟨hstart, fun y hy => ?_⟩⟩
      have := hbehind y hy
      omega

theorem consume_reference (hvalid : p.Valid) {text : Bytes} {left cursor fuel : Nat} {selected : Match}
    (hselected : p.first text cursor = some selected) (hfuel : text.length - cursor < fuel) :
    p.consume text left (p.candidates text cursor) selected =
      if (p.reference text fuel cursor).length > left then .error p.tooMany else .ok (p.reference text fuel cursor) := by
  induction left generalizing cursor fuel selected with
  | zero =>
    obtain ⟨fuel, rfl⟩ : ∃ fuel', fuel = fuel' + 1 := ⟨fuel - 1, by omega⟩
    rw [reference, hselected, consume]
    dsimp only
    rw [if_pos (by rw [List.length_cons]; omega)]
  | succ left ih =>
    obtain ⟨hstart, hstop, hlong⟩ := first_bounds hvalid hselected
    obtain ⟨fuel, rfl⟩ : ∃ fuel', fuel = fuel' + 1 := ⟨fuel - 1, by omega⟩
    rw [consume, research_candidates hvalid (by omega), reference, hselected]
    dsimp only
    rw [← first_eq, List.length_cons]
    rcases hnext : p.first text selected.stop with _ | candidate
    · have hnone : p.reference text fuel selected.stop = [] := by
        cases fuel with
        | zero => rfl
        | succ fuel => rw [reference, hnext]
      rw [hnone, if_neg (by rw [List.length_nil]; omega)]
    · dsimp only
      rw [ih hnext (show text.length - selected.stop < fuel by omega)]
      by_cases hmany : (p.reference text fuel selected.stop).length > left
      · rw [if_pos hmany, if_pos (Nat.succ_lt_succ hmany)]
      · rw [if_neg hmany, if_neg fun h => hmany (Nat.lt_of_succ_lt_succ h)]

end RedactionPlugin

/-! ## Character boundaries -/

theorem validUTF8_ascii {bytes : Bytes} (h : ∀ b ∈ bytes, b < 128) : bytes.toByteArray.IsValidUTF8 := by
  induction bytes using List.reverseRecOn with
  | nil => exact ByteArray.isValidUTF8_empty
  | append_singleton bytes b ih =>
    have hb : b < 128 := h b (List.mem_append_right _ List.mem_cons_self)
    have hsize : (Char.ofUInt8 b).utf8Size = 1 := by
      rw [Char.utf8Size_eq_one_iff]
      show b.toUInt32 ≤ 127
      rw [UInt32.le_iff_toNat_le, UInt8.toNat_toUInt32]
      exact Nat.le_of_lt_succ hb
    have hbyte : (Char.ofUInt8 b).toUInt8 = b := by
      show b.toUInt32.toUInt8 = b
      exact UInt8.toUInt8_toUInt32 b
    have hpush : (bytes ++ [b]).toByteArray = bytes.toByteArray.push (Char.ofUInt8 b).toUInt8 := by
      rw [List.toByteArray_append, ByteArray.append_toByteArray_singleton, hbyte]
    rw [hpush]
    exact (ih fun x hx => h x (List.mem_append_left _ hx)).push hsize

theorem lt_of_isAlphanumeric {b : UInt8} (h : isAlphanumeric b = true) : b < 128 := by
  simp only [isAlphanumeric, isDigit, isLower, Bool.or_eq_true, Bool.and_eq_true, decide_eq_true_eq, UInt8.le_iff_toNat_le,
    UInt8.reduceToNat] at h
  rw [UInt8.lt_iff_toNat_lt]
  show b.toNat < 128
  omega

theorem lt_of_byte {b : UInt8} (h : isAlphanumeric b = true ∨ b ∈ [45, 95, 46, 37, 43, 32, 64]) : b < 128 := by
  rcases h with halphanumeric | hmem
  · exact lt_of_isAlphanumeric halphanumeric
  · simp only [List.mem_cons, List.not_mem_nil, or_false] at hmem
    rcases hmem with rfl | rfl | rfl | rfl | rfl | rfl | rfl <;> decide

theorem lt_of_isTokenByte {b : UInt8} (h : isTokenByte b = true) : b < 128 := by
  apply lt_of_byte
  simp only [isTokenByte, Bool.or_eq_true, beq_iff_eq] at h
  grind

theorem lt_of_isEmailLocalByte {b : UInt8} (h : isEmailLocalByte b = true) : b < 128 := by
  apply lt_of_byte
  simp only [isEmailLocalByte, Bool.or_eq_true, beq_iff_eq] at h
  grind

theorem lt_of_isEmailDomainByte {b : UInt8} (h : isEmailDomainByte b = true) : b < 128 := by
  apply lt_of_byte
  simp only [isEmailDomainByte, Bool.or_eq_true, beq_iff_eq] at h
  grind

theorem lt_of_isRunByte {b : UInt8} (h : isRunByte b = true) : b < 128 := by
  apply lt_of_byte
  simp only [isRunByte, Bool.or_eq_true, beq_iff_eq] at h
  rcases h with (hdigit | rfl) | rfl
  · refine .inl ?_
    rw [isAlphanumeric, hdigit, Bool.true_or, Bool.true_or]
  · exact .inr (by decide)
  · exact .inr (by decide)

theorem prefixedAt_bytes {needle text : Bytes} {minLen maxLen n : Nat} (h : prefixedAt needle minLen maxLen text = some n) :
    ∃ run, text.take n = needle ++ run ∧ ∀ b ∈ run, b < 128 := by
  obtain ⟨run, rest, rfl, rfl, _, _, hall⟩ := prefixedAt_eq_some h
  refine ⟨run, ?_, fun b hb => lt_of_isTokenByte (hall b hb)⟩
  rw [List.take_length_add_append, List.take_left]

theorem emailAt_bytes {text : Bytes} {n : Nat} (h : emailAt text = some n) : ∀ b ∈ text.take n, b < 128 := by
  obtain ⟨localPart, behind, rfl, hall, _, _, rfl⟩ := emailAt_eq_some_iff.mp h
  obtain ⟨rest, hrest⟩ := emailDomain_begins behind
  have htake : (localPart ++ 64 :: behind).take (localPart.length + 1 + (emailDomain behind).length) =
      localPart ++ 64 :: emailDomain behind := by
    conv_lhs => rw [← hrest, Nat.add_assoc, List.take_length_add_append, Nat.add_comm 1, List.take_succ_cons]
    rw [hrest, ← List.prefix_iff_eq_take.mp (emailDomain_begins behind)]
  rw [htake]
  intro b hb
  rcases List.mem_append.mp hb with hlocal | hrest
  · exact lt_of_isEmailLocalByte (hall b hlocal)
  · rcases List.mem_cons.mp hrest with rfl | hdomain
    · decide
    · exact lt_of_isEmailDomainByte (mem_emailDomain hdomain)

theorem digitAt_bytes {text : Bytes} {minDigits maxDigits n : Nat} (h : digitAt minDigits maxDigits text = some n) :
    ∀ b ∈ text.take n, b < 128 := by
  obtain ⟨_, _, rfl⟩ := digitAt_eq_some_iff.mp h
  have hall := (digitWalk_end maxDigits text 0 (Nat.le_refl 0)).2.2
  rw [Nat.sub_zero] at hall
  exact fun b hb => lt_of_isRunByte (hall b hb)

theorem atHead_bytes {m : CompiledMatcher} {text : Bytes} {n : Nat} (h : m.atHead text = some n) :
    ∃ run, text.take n = m.pattern ++ run ∧ ∀ b ∈ run, b < 128 := by
  cases m with
  | literal needle => exact prefixedAt_bytes h
  | prefixed needle minLen maxLen => exact prefixedAt_bytes h
  | emailLike => exact ⟨_, rfl, emailAt_bytes h⟩
  | digitRun minDigits maxDigits => exact ⟨_, rfl, digitAt_bytes h⟩

theorem toByteArray_bytesOf (s : String) : (bytesOf s).toByteArray = s.toByteArray := by
  apply ByteArray.ext
  rw [List.data_toByteArray, bytesOf]
  rfl

theorem validUTF8_pattern (rule : RedactionRule) : (CompiledRule.compile rule).matcher.pattern.toByteArray.IsValidUTF8 := by
  cases rule with
  | literal kind value =>
    show (bytesOf value).toByteArray.IsValidUTF8
    rw [toByteArray_bytesOf]
    exact value.isValidUTF8
  | prefixed kind pattern minLen maxLen =>
    show (bytesOf pattern).toByteArray.IsValidUTF8
    rw [toByteArray_bytesOf]
    exact pattern.isValidUTF8
  | emailLike kind => exact ByteArray.isValidUTF8_empty
  | digitRun kind minDigits maxDigits => exact ByteArray.isValidUTF8_empty

theorem boundaries_of_validUTF8 {text : String} {start stop : Nat} (hlt : start < stop) (hle : stop ≤ (bytesOf text).length)
    (h : (((bytesOf text).drop start).take (stop - start)).toByteArray.IsValidUTF8) :
    (String.Pos.Raw.mk start).IsValid text ∧ (String.Pos.Raw.mk stop).IsValid text := by
  have hextract : (((bytesOf text).drop start).take (stop - start)).toByteArray = text.toByteArray.extract start stop := by
    apply ByteArray.ext
    rw [List.data_toByteArray, ByteArray.data_extract]
    apply Array.toList_inj.mp
    rw [Array.toList_extract]
    rfl
  rw [hextract] at h
  have hend : stop ≤ text.utf8ByteSize := hle
  rcases (String.Pos.Raw.isValidUTF8_extract_iff ⟨start⟩ ⟨stop⟩ (Nat.le_of_lt hlt) hend).mp h with heq | hvalid
  · exact absurd (congrArg String.Pos.Raw.byteIdx heq) (Nat.ne_of_lt hlt)
  · exact hvalid

namespace RedactionPlugin
variable {p : RedactionPlugin}

theorem validUTF8_of_new {debug : String → String} {config : RedactionConfig} (h : RedactionPlugin.new debug config = .ok p) :
    ∀ rule ∈ p.rules, rule.matcher.pattern.toByteArray.IsValidUTF8 := by
  rw [RedactionPlugin.new] at h
  split at h
  · cases h
  · obtain rfl := Except.ok.inj h
    intro rule hrule
    obtain ⟨source, _, rfl⟩ := List.mem_map.mp hrule
    exact validUTF8_pattern source

theorem first_atHead (hvalid : p.Valid) {text : Bytes} {cursor : Nat} {m : Match} (h : p.first text cursor = some m) :
    ∃ rule ∈ p.rules, rule.matcher.atHead (text.drop m.start) = some (m.stop - m.start) := by
  rw [first_eq] at h
  rcases bestOf_eq_some h with hnone | ⟨i, hi, _⟩
  · cases hnone
  · rw [candidates, List.getElem?_map, Option.map_eq_some_iff] at hi
    obtain ⟨rule, hget, hfind⟩ := hi
    have hmem := List.mem_of_getElem? hget
    rw [CompiledMatcher.findFrom, CompiledMatcher.find_eq (hvalid rule hmem), Option.map_map, Option.map_eq_some_iff] at hfind
    obtain ⟨⟨j, n⟩, hscan, heq⟩ := hfind
    obtain ⟨_, hmatch, _⟩ := scan_eq_some_iff.mp hscan
    simp only [Function.comp, Prod.mk.injEq] at heq
    refine ⟨rule, hmem, ?_⟩
    rw [← heq.1, ← heq.2, ← List.drop_drop, hmatch]
    congr 1
    omega

/-- **Both ends of a match** are character boundaries of the text. -/
theorem first_boundaries {debug : String → String} {config : RedactionConfig} (hnew : RedactionPlugin.new debug config = .ok p)
    {text : String} {cursor : Nat} {m : Match} (h : p.first (bytesOf text) cursor = some m) :
    (String.Pos.Raw.mk m.start).IsValid text ∧ (String.Pos.Raw.mk m.stop).IsValid text := by
  have hvalid := valid_of_new hnew
  obtain ⟨_, hlt, hle⟩ := first_bounds hvalid h
  obtain ⟨rule, hrule, hmatch⟩ := first_atHead hvalid h
  obtain ⟨run, htake, hascii⟩ := atHead_bytes hmatch
  apply boundaries_of_validUTF8 hlt hle
  rw [htake, List.toByteArray_append]
  exact (validUTF8_of_new hnew rule hrule).append (validUTF8_ascii hascii)

/-- **Scrubbing is the reference.** The matches are those that a search of every rule from the end of the match before finds,
the leftmost, longest, earliest first; they are disjoint, both ends of each are character boundaries, and the text is refused
exactly where there are more than the policy allows. -/
theorem scrub_reference {debug : String → String} {config : RedactionConfig} (hnew : RedactionPlugin.new debug config = .ok p)
    (text : String) (fuel : Nat) (hfuel : (bytesOf text).length < fuel) :
    let hits := p.reference (bytesOf text) fuel 0
    p.scrub (bytesOf text) =
        (if hits = [] then .ok none
        else if hits.length > p.maxMatchesPerText then .error p.tooMany
        else .ok (some ⟨p.rebuild (bytesOf text) 0 hits, hits⟩)) ∧
      hits.Pairwise (fun a b => a.stop ≤ b.start) ∧
      ∀ m ∈ hits, m.start < m.stop ∧ m.stop ≤ (bytesOf text).length ∧
        (String.Pos.Raw.mk m.start).IsValid text ∧ (String.Pos.Raw.mk m.stop).IsValid text := by
  have hvalid := valid_of_new hnew
  refine ⟨?_, (reference_disjoint hvalid _ fuel 0).1, reference_forall (fun cursor m hfirst => ?_) fuel 0⟩
  · rw [scrub, show (p.rules.map fun rule => rule.matcher.findFrom (bytesOf text) 0) = p.candidates (bytesOf text) 0 from rfl,
      ← first_eq]
    rcases hfirst : p.first (bytesOf text) 0 with _ | selected
    · obtain ⟨fuel, rfl⟩ : ∃ fuel', fuel = fuel' + 1 := ⟨fuel - 1, by omega⟩
      have hnone : p.reference (bytesOf text) (fuel + 1) 0 = [] := by rw [reference, hfirst]
      rw [hnone, if_pos rfl]
    · have hsome : p.reference (bytesOf text) fuel 0 ≠ [] := by
        obtain ⟨fuel, rfl⟩ : ∃ fuel', fuel = fuel' + 1 := ⟨fuel - 1, by omega⟩
        rw [reference, hfirst]
        exact List.cons_ne_nil _ _
      dsimp only
      rw [consume_reference hvalid hfirst (show (bytesOf text).length - 0 < fuel by omega), if_neg hsome]
      by_cases hmany : (p.reference (bytesOf text) fuel 0).length > p.maxMatchesPerText
      · rw [if_pos hmany, if_pos hmany]
      · rw [if_neg hmany, if_neg hmany]
  · obtain ⟨_, hlt, hle⟩ := first_bounds hvalid hfirst
    exact ⟨hlt, hle, first_boundaries hnew hfirst⟩

def overlapping : RedactionConfig := ⟨[.literal "a" "key", .literal "b" "keys", .literal "c" "s!"], 2, true⟩

def overlappingPlugin : RedactionPlugin := ⟨overlapping.rules.map CompiledRule.compile, 2, true⟩

set_option maxRecDepth 2000 in
theorem scrub_reference_overlapping :
    overlappingPlugin.scrub (bytesOf "keys! key") =
      .ok (some ⟨bytesOf "[REDACTED:b]! [REDACTED:a]", [⟨0, 4, 1⟩, ⟨6, 9, 0⟩]⟩) := by
  have hnew : RedactionPlugin.new id overlapping = .ok overlappingPlugin := rfl
  rw [(scrub_reference hnew "keys! key" 10 (by decide)).1]
  rfl

end RedactionPlugin

end Cuca.Redaction
