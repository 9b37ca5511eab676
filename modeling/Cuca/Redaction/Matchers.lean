import Cuca.Redaction.Policy
import Cuca.Lib.Rewriting

/-!
# Matchers are leftmost scans

Each search answers the leftmost place where a text matches at its head. What matches at the head does so before any other
text, and no match holds more `[` than the pattern of its rule.

* `prefixedAt`, `digitAt`, `emailAt` : matches at the head;
* `CompiledMatcher.atHead` : of each matcher;
* `CompiledMatcher.find_eq` : a search is the scan;
* `CompiledMatcher.findFrom_eq` : a search from further on finds the same match.
-/

namespace Cuca.Redaction
open Rewriting

/-- The byte `[`, at the head of each replacement. -/
def openBracket : UInt8 := 91

/-! ## Literals and tokens behind a pattern -/

/-- The pattern with enough token bytes behind it; a literal is a pattern with none. -/
def prefixedAt (needle : Bytes) (minLen maxLen : Nat) (text : Bytes) : Option Nat :=
  let run := tokenRun maxLen (text.drop needle.length)
  if needle.isPrefixOf text = true ∧ minLen ≤ run then some (needle.length + run) else none

section
variable {needle text : Bytes} {minLen maxLen : Nat}

theorem exists_tokenRun (maxLen : Nat) (text : Bytes) : ∃ run, run <+: text ∧ run.length = tokenRun maxLen text ∧
    run.length ≤ maxLen ∧ ∀ b ∈ run, isTokenByte b = true := by
  obtain ⟨hbegins, hmax⟩ := List.prefix_take_iff.mp (List.takeWhile_prefix isTokenByte (l := text.take maxLen))
  exact ⟨_, hbegins, rfl, hmax, fun b hb => List.mem_takeWhile_imp hb⟩

theorem prefixedAt_eq_some {n : Nat} (h : prefixedAt needle minLen maxLen text = some n) : ∃ run rest,
    text = needle ++ (run ++ rest) ∧ n = needle.length + run.length ∧ minLen ≤ run.length ∧ run.length ≤ maxLen ∧
      ∀ b ∈ run, isTokenByte b = true := by
  rw [prefixedAt] at h
  split_ifs at h with hmatch
  obtain ⟨hneedle, hmin⟩ := hmatch
  obtain ⟨behind, rfl⟩ := List.isPrefixOf_iff_prefix.mp hneedle
  rw [List.drop_left] at h hmin
  obtain ⟨run, ⟨rest, hrest⟩, hlength, hmax, hall⟩ := exists_tokenRun maxLen behind
  rw [← hlength] at h hmin
  exact ⟨run, rest, by rw [hrest], (Option.some.inj h).symm, hmin, hmax, hall⟩

theorem prefixedAt_crosses (needle : Bytes) (minLen maxLen : Nat) :
    Crosses (prefixedAt needle minLen maxLen) openBracket (needle.count openBracket) := by
  intro text n h
  obtain ⟨run, rest, rfl, rfl, _, _, hall⟩ := prefixedAt_eq_some h
  have hrun : run.count openBracket = 0 := List.count_eq_zero.mpr fun hmem => absurd (hall _ hmem) (by decide)
  rw [← List.append_assoc, ← List.length_append, List.take_left, List.count_append, hrun]
  refine ⟨?_, Nat.le_refl _⟩
  simp only [List.length_append]
  omega

theorem literalAt_of_prefixedAt {n : Nat} (h : prefixedAt needle minLen maxLen text = some n) :
    prefixedAt needle 0 0 text = some needle.length := by
  obtain ⟨run, rest, rfl, _⟩ := prefixedAt_eq_some h
  refine if_pos ⟨List.isPrefixOf_iff_prefix.mpr (List.prefix_append _ _), Nat.zero_le _⟩

theorem findSub_eq (hneedle : needle ≠ []) (text : Bytes) :
    findSub needle text = (scan (prefixedAt needle 0 0) text).map Prod.fst := by
  induction text with
  | nil => rw [findSub, if_neg (by rwa [List.isEmpty_iff]), scan, Option.map_none]
  | cons b text ih =>
    rw [findSub, scan, prefixedAt]
    by_cases hmatch : needle.isPrefixOf (b :: text) = true
    · rw [if_pos hmatch, if_pos ⟨hmatch, Nat.zero_le _⟩]
      rfl
    · rw [if_neg hmatch, if_neg fun h => hmatch h.1, ih]
      dsimp only
      rw [Option.map_map, Option.map_map]
      rfl

theorem findPrefixed_eq (hneedle : needle ≠ []) (text : Bytes) {fuel cursor : Nat} (hcursor : cursor ≤ text.length)
    (hfuel : text.length - cursor < fuel) : findPrefixed needle minLen maxLen text fuel cursor =
      (scan (prefixedAt needle minLen maxLen) (text.drop cursor)).map
        fun found => (cursor + found.1, cursor + found.1 + found.2) := by
  induction fuel generalizing cursor with
  | zero => exact absurd hfuel (Nat.not_lt_zero _)
  | succ fuel ih =>
    have hnone {i : Nat} (h : prefixedAt needle 0 0 ((text.drop cursor).drop i) = none) :
        prefixedAt needle minLen maxLen ((text.drop cursor).drop i) = none := by
      rw [← Option.not_isSome_iff_eq_none, Option.isSome_iff_exists]
      rintro ⟨n, hn⟩
      exact nomatch h.symm.trans (literalAt_of_prefixedAt hn)
    rw [findPrefixed, findSub_eq hneedle]
    rcases hscan : scan (prefixedAt needle 0 0) (text.drop cursor) with _ | ⟨hit, n⟩
    · rw [scan_eq_none_iff] at hscan
      rw [scan_eq_none_iff.mpr fun i hi => hnone (hscan i hi)]
      rfl
    · obtain ⟨hlt, hmatch, hearlier⟩ := scan_eq_some_iff.mp hscan
      obtain ⟨run, rest, heq, _, _, hrun, _⟩ := prefixedAt_eq_some hmatch
      rw [List.length_drop] at hlt
      have hbody : text.drop (cursor + hit + needle.length) = ((text.drop cursor).drop hit).drop needle.length := by
        rw [List.drop_drop, List.drop_drop, Nat.add_assoc]
      have hpattern : needle.isPrefixOf ((text.drop cursor).drop hit) = true := by
        rw [heq]
        exact List.isPrefixOf_iff_prefix.mpr (List.prefix_append _ _)
      dsimp only [Option.map_some]
      rw [hbody]
      by_cases hmin : tokenRun maxLen (((text.drop cursor).drop hit).drop needle.length) ≥ minLen
      · rw [if_pos hmin]
        have hfound : scan (prefixedAt needle minLen maxLen) (text.drop cursor) =
            some (hit, needle.length + tokenRun maxLen (((text.drop cursor).drop hit).drop needle.length)) :=
          scan_eq_some_iff.mpr ⟨by rw [List.length_drop]; exact hlt, if_pos ⟨hpattern, hmin⟩, fun j hj => hnone (hearlier j hj)⟩
        rw [hfound, Option.map_some, Nat.add_assoc (cursor + hit)]
      · rw [if_neg hmin]
        have hhere : prefixedAt needle minLen maxLen ((text.drop cursor).drop hit) = none := if_neg fun h => hmin h.2
        have hskip := scan_skip (k := hit + 1) (by rw [List.length_drop]; omega) fun i hi =>
          (Nat.lt_succ_iff_lt_or_eq.mp hi).elim (fun hlt => hnone (hearlier i hlt)) fun heq => heq ▸ hhere
        rw [hskip, List.drop_drop, ← Nat.add_assoc, ih (by omega) (by omega), Option.map_map]
        congr 1
        funext found
        exact Prod.ext (by dsimp only [Function.comp]; omega) (by dsimp only [Function.comp]; omega)

end

/-! ## Runs of digits -/

def digitAt (minDigits maxDigits : Nat) : Matcher UInt8
  | [] => none
  | b :: text =>
    if isDigit b then
      match digitWalk maxDigits (b :: text) 0 0 0 with
      | .error stop => some stop
      | .ok (digits, runEnd) => if digits ≥ minDigits then some runEnd else none
    else none

section
variable {minDigits maxDigits : Nat}

/-- The end of a walk, and whether it has so many digits. -/
def walkEnd : Except Nat (Nat × Nat) → Nat
  | .error stop => stop
  | .ok (_, runEnd) => runEnd

def Reaches (digits : Nat) : Except Nat (Nat × Nat) → Prop
  | .error _ => True
  | .ok (found, _) => digits ≤ found

theorem Reaches.mono {fewer digits : Nat} {walk : Except Nat (Nat × Nat)} (h : Reaches digits walk) (hle : fewer ≤ digits) :
    Reaches fewer walk := by
  rcases walk with _ | ⟨found, _⟩
  · exact trivial
  · exact Nat.le_trans hle h

theorem digitWalk_mono {text : Bytes} {cursor cursor' digits digits' runEnd runEnd' n r : Nat} (hle : digits' ≤ digits)
    (hmax : digits < maxDigits) (h : digitWalk maxDigits text cursor digits runEnd = .ok (n, r)) :
    ∃ n' r', digitWalk maxDigits text cursor' digits' runEnd' = .ok (n', r') ∧ n' ≤ n := by
  induction text generalizing cursor cursor' digits digits' runEnd runEnd' with
  | nil =>
    obtain ⟨rfl, rfl⟩ := Prod.mk.inj (Except.ok.inj h)
    exact ⟨_, _, rfl, hle⟩
  | cons b text ih =>
    rw [digitWalk] at h ⊢
    by_cases hdigit : isDigit b = true
    · rw [if_pos hdigit] at h ⊢
      by_cases hlast : digits + 1 = maxDigits
      · rw [if_pos hlast] at h
        exact nomatch h
      · rw [if_neg hlast] at h
        rw [if_neg (by omega)]
        exact ih (Nat.succ_le_succ hle) (by omega) h
    · rw [if_neg hdigit] at h ⊢
      by_cases hsep : ((b == 45 || b == 32) && text.head?.any isDigit) = true
      · rw [if_pos hsep] at h ⊢
        exact ih hle hmax h
      · rw [if_neg hsep] at h ⊢
        obtain ⟨rfl, rfl⟩ := Prod.mk.inj (Except.ok.inj h)
        exact ⟨_, _, rfl, hle⟩

/-- **A short run is passed over whole**: a walk from a place inside it is a part of it. -/
theorem digitWalk_drop {text : Bytes} {cursor digits runEnd n r i : Nat} (hend : runEnd ≤ cursor) (hmax : digits < maxDigits)
    (h : digitWalk maxDigits text cursor digits runEnd = .ok (n, r)) (hi : cursor + i < r) :
    ∃ n' r', digitWalk maxDigits (text.drop i) 0 0 0 = .ok (n', r') ∧ n' ≤ n := by
  induction text generalizing cursor digits runEnd i with
  | nil =>
    obtain ⟨rfl, rfl⟩ := Prod.mk.inj (Except.ok.inj h)
    omega
  | cons b text ih =>
    rcases i with _ | i
    · exact digitWalk_mono (Nat.zero_le _) hmax h
    · rw [digitWalk] at h
      rw [List.drop_succ_cons]
      split_ifs at h with hdigit hlast hsep
      · exact ih (Nat.le_refl _) (by omega) h (by omega)
      · exact ih (Nat.le_succ_of_le hend) hmax h (by omega)
      · obtain ⟨rfl, rfl⟩ := Prod.mk.inj (Except.ok.inj h)
        omega

theorem digitWalk_shift (maxDigits : Nat) (text : Bytes) (k cursor digits runEnd : Nat) :
    digitWalk maxDigits text (k + cursor) digits (k + runEnd) =
      match digitWalk maxDigits text cursor digits runEnd with
      | .error stop => .error (k + stop)
      | .ok (found, last) => .ok (found, k + last) := by
  induction text generalizing cursor digits runEnd with
  | nil => rfl
  | cons b text ih =>
    rw [digitWalk, digitWalk]
    split_ifs with hdigit hlast hsep
    · rfl
    · exact ih (cursor + 1) (digits + 1) (cursor + 1)
    · exact ih (cursor + 1) digits runEnd
    · rfl

def isRunByte (b : UInt8) : Bool := isDigit b || b == 45 || b == 32

theorem digitWalk_end (maxDigits : Nat) (text : Bytes) (digits : Nat) {cursor runEnd : Nat} (hend : runEnd ≤ cursor) :
    runEnd ≤ walkEnd (digitWalk maxDigits text cursor digits runEnd) ∧
      walkEnd (digitWalk maxDigits text cursor digits runEnd) ≤ cursor + text.length ∧
      ∀ b ∈ text.take (walkEnd (digitWalk maxDigits text cursor digits runEnd) - cursor), isRunByte b = true := by
  have hcons {b : UInt8} {text : Bytes} {cursor e : Nat} (hb : isRunByte b = true)
      (h : ∀ b ∈ text.take (e - (cursor + 1)), isRunByte b = true) : ∀ b' ∈ (b :: text).take (e - cursor), isRunByte b' = true := by
    rcases Nat.eq_zero_or_pos (e - cursor) with hzero | hpos
    · rw [hzero]
      exact fun _ hmem => absurd hmem List.not_mem_nil
    · rw [show e - cursor = e - (cursor + 1) + 1 by omega, List.take_succ_cons]
      exact List.forall_mem_cons.mpr ⟨hb, h⟩
  induction text generalizing cursor digits runEnd with
  | nil => exact ⟨Nat.le_refl _, hend, by rw [List.take_nil]; exact fun _ hmem => absurd hmem List.not_mem_nil⟩
  | cons b text ih =>
    rw [digitWalk, List.length_cons]
    split_ifs with hdigit hlast hsep
    · refine ⟨Nat.le_succ_of_le hend, by simp only [walkEnd]; omega, hcons (by rw [isRunByte, hdigit]; rfl) ?_⟩
      rw [walkEnd, Nat.sub_self]
      exact fun _ hmem => absurd hmem List.not_mem_nil
    · obtain ⟨hle, hlen, hall⟩ := ih (digits + 1) (Nat.le_refl (cursor + 1))
      exact ⟨by omega, by omega, hcons (by rw [isRunByte, hdigit]; rfl) hall⟩
    · have hsepByte : isRunByte b = true := by
        rw [isRunByte, Bool.or_assoc, (Bool.and_eq_true_iff.mp hsep).1, Bool.or_true]
      obtain ⟨hle, hlen, hall⟩ := ih digits (show runEnd ≤ cursor + 1 by omega)
      exact ⟨hle, by omega, hcons hsepByte hall⟩
    · refine ⟨Nat.le_refl _, Nat.le_trans hend (Nat.le_add_right _ _), ?_⟩
      rw [walkEnd, Nat.sub_eq_zero_of_le hend]
      exact fun _ hmem => absurd hmem List.not_mem_nil

theorem lt_walkEnd {text : Bytes} (hhead : text.head?.any isDigit = true) (maxDigits cursor digits runEnd : Nat) :
    cursor < walkEnd (digitWalk maxDigits text cursor digits runEnd) := by
  rcases text with _ | ⟨b, text⟩
  · exact absurd hhead Bool.false_ne_true
  · have hdigit : isDigit b = true := hhead
    rw [digitWalk, if_pos hdigit]
    split_ifs
    · exact Nat.lt_succ_self cursor
    · exact (digitWalk_end _ _ _ (Nat.le_refl (cursor + 1))).1

theorem digitAt_eq_some_iff {text : Bytes} {n : Nat} : digitAt minDigits maxDigits text = some n ↔
    text.head?.any isDigit = true ∧ Reaches minDigits (digitWalk maxDigits text 0 0 0) ∧
      walkEnd (digitWalk maxDigits text 0 0 0) = n := by
  rcases text with _ | ⟨b, text⟩
  · exact iff_of_false nofun fun h => absurd h.1 Bool.false_ne_true
  · rw [digitAt]
    by_cases hdigit : isDigit b = true
    · rw [if_pos hdigit]
      rcases digitWalk maxDigits (b :: text) 0 0 0 with stop | ⟨digits, runEnd⟩
      · exact Option.some_inj.trans ⟨fun h => ⟨hdigit, trivial, h⟩, fun h => h.2.2⟩
      · exact Option.ite_none_right_eq_some.trans ⟨fun h => ⟨hdigit, h.1, Option.some.inj h.2⟩,
          fun h => ⟨h.2.1, congrArg some h.2.2⟩⟩
    · rw [if_neg hdigit]
      exact iff_of_false nofun fun h => hdigit h.1

theorem digitAt_crosses (bound : Nat) : Crosses (digitAt minDigits maxDigits) openBracket bound := by
  intro text n h
  obtain ⟨_, _, rfl⟩ := digitAt_eq_some_iff.mp h
  obtain ⟨_, hlen, hall⟩ := digitWalk_end maxDigits text 0 (Nat.le_refl 0)
  rw [Nat.sub_zero] at hall
  rw [Nat.zero_add] at hlen
  have hnot : openBracket ∉ text.take (walkEnd (digitWalk maxDigits text 0 0 0)) := fun hmem =>
    absurd (hall _ hmem) (by decide)
  exact ⟨hlen, (List.count_eq_zero.mpr hnot).symm ▸ Nat.zero_le bound⟩

theorem findDigitRun_eq (hmax : 0 < maxDigits) (text : Bytes) {fuel start : Nat} (hstart : start ≤ text.length)
    (hfuel : text.length - start < fuel) : findDigitRun minDigits maxDigits text fuel start =
      (scan (digitAt minDigits maxDigits) (text.drop start)).map fun found => (start + found.1, start + found.1 + found.2) := by
  induction fuel generalizing start with
  | zero => exact absurd hfuel (Nat.not_lt_zero _)
  | succ fuel ih =>
    rw [findDigitRun]
    rcases htext : text.drop start with _ | ⟨b, rest⟩
    · rfl
    · have hlength := congrArg List.length htext
      rw [List.length_drop, List.length_cons] at hlength
      -- what is passed over has no match: the search goes on behind it
      have hgo {k : Nat} (hk : 0 < k) (hle : k ≤ (b :: rest).length)
          (hnone : ∀ i < k, digitAt minDigits maxDigits ((b :: rest).drop i) = none) :
          findDigitRun minDigits maxDigits text fuel (start + k) = (scan (digitAt minDigits maxDigits) (b :: rest)).map
            fun found => (start + found.1, start + found.1 + found.2) := by
        rw [List.length_cons] at hle
        rw [ih (by omega) (by omega), scan_skip hle hnone, ← htext, List.drop_drop, Option.map_map]
        congr 1
        funext found
        exact Prod.ext (by dsimp only [Function.comp]; omega) (by dsimp only [Function.comp]; omega)
      dsimp only
      by_cases hdigit : isDigit b = true
      · have hshift := digitWalk_shift maxDigits (b :: rest) start 0 0 0
        rw [Nat.add_zero] at hshift
        rw [if_pos hdigit, hshift]
        rcases hwalk : digitWalk maxDigits (b :: rest) 0 0 0 with stop | ⟨digits, runEnd⟩
        · rw [scan, digitAt, if_pos hdigit, hwalk]
          rfl
        · dsimp only
          by_cases hmin : digits ≥ minDigits
          · rw [if_pos hmin, scan, digitAt, if_pos hdigit, hwalk]
            dsimp only
            rw [if_pos hmin]
            rfl
          · have hhead : (b :: rest).head?.any isDigit = true := hdigit
            have hpos := lt_walkEnd hhead maxDigits 0 0 0
            have hend := (digitWalk_end maxDigits (b :: rest) 0 (Nat.le_refl 0)).2.1
            rw [hwalk, walkEnd] at hpos hend
            rw [if_neg hmin, hgo hpos (Nat.zero_add (b :: rest).length ▸ hend)]
            intro i hi
            obtain ⟨n', r', hinside, hle⟩ := digitWalk_drop (Nat.le_refl 0) hmax hwalk ((Nat.zero_add i).symm ▸ hi)
            rw [← Option.not_isSome_iff_eq_none, Option.isSome_iff_exists]
            rintro ⟨n, hn⟩
            obtain ⟨_, hreaches, _⟩ := digitAt_eq_some_iff.mp hn
            rw [hinside] at hreaches
            exact hmin (Nat.le_trans hreaches hle)
      · rw [if_neg hdigit, hgo Nat.one_pos (by rw [List.length_cons]; omega)]
        intro i hi
        rw [Nat.lt_one_iff.mp hi, List.drop_zero, digitAt, if_neg hdigit]

end

/-! ## E-mail addresses -/

def emailAt (text : Bytes) : Option Nat :=
  let localPart := text.takeWhile isEmailLocalByte
  match text.drop localPart.length with
  | [] => none
  | sign :: behind =>
    if text.head?.any isAlphanumeric = true ∧ sign = 64 ∧ isDomain (emailDomain behind) = true then
      some (localPart.length + 1 + (emailDomain behind).length)
    else none

theorem suffix_rtakeWhile {p : UInt8 → Bool} {part text : Bytes} (h : part <:+ text) (hall : ∀ b ∈ part, p b = true) :
    part <:+ text.rtakeWhile p := by
  obtain ⟨before, rfl⟩ := h
  rw [List.rtakeWhile, List.reverse_append, List.takeWhile_append_of_pos fun b hb => hall b (List.mem_reverse.mp hb),
    List.reverse_append, List.reverse_reverse]
  exact List.suffix_append _ _

theorem suffix_dropWhile {p : UInt8 → Bool} {part text : Bytes} (h : part <:+ text)
    (hhead : part.head?.any (fun b => !p b) = true) : part <:+ text.dropWhile p := by
  obtain ⟨before, rfl⟩ := h
  induction before with
  | nil =>
    rcases part with _ | ⟨b, part⟩
    · exact List.suffix_refl _
    · have hkept : ([] ++ b :: part).dropWhile p = b :: part := List.dropWhile_cons_of_neg (by simpa using hhead)
      exact hkept.symm ▸ List.suffix_refl (b :: part)
  | cons a before ih =>
    rw [List.cons_append, List.dropWhile_cons]
    split_ifs
    · exact ih
    · exact List.suffix_append (a :: before) part

theorem dropWhile_head {p : UInt8 → Bool} {text : Bytes} (h : text.dropWhile p ≠ []) :
    (text.dropWhile p).head?.any (fun b => !p b) = true := by
  have hnot := List.head?_dropWhile_not p text
  rcases hdrop : text.dropWhile p with _ | ⟨b, rest⟩
  · exact absurd hdrop h
  · rw [hdrop] at hnot
    simpa using hnot

theorem emailDomain_begins (text : Bytes) : emailDomain text <+: text :=
  (List.rdropWhile_prefix _ _).trans (List.takeWhile_prefix _)

theorem mem_emailDomain {text : Bytes} {b : UInt8} (h : b ∈ emailDomain text) : isEmailDomainByte b = true :=
  List.mem_takeWhile_imp ((List.rdropWhile_prefix _ _).subset h)

theorem emailAt_eq_some_iff {text : Bytes} {n : Nat} : emailAt text = some n ↔ ∃ localPart behind,
    text = localPart ++ 64 :: behind ∧ (∀ b ∈ localPart, isEmailLocalByte b = true) ∧
      localPart.head?.any isAlphanumeric = true ∧ isDomain (emailDomain behind) = true ∧
      n = localPart.length + 1 + (emailDomain behind).length := by
  constructor
  · intro h
    have hall : ∀ b ∈ text.takeWhile isEmailLocalByte, isEmailLocalByte b = true := fun b hb => List.mem_takeWhile_imp hb
    rw [emailAt] at h
    obtain ⟨rest, hrest⟩ := List.takeWhile_prefix isEmailLocalByte (l := text)
    generalize text.takeWhile isEmailLocalByte = localPart at h hall hrest
    subst hrest
    rw [List.drop_left] at h
    rcases rest with _ | ⟨sign, behind⟩
    · exact nomatch h
    · dsimp only at h
      split_ifs at h with hmatch
      obtain ⟨hhead, rfl, hdomain⟩ := hmatch
      refine ⟨localPart, behind, rfl, hall, ?_, hdomain, (Option.some.inj h).symm⟩
      rcases localPart with _ | ⟨b, localPart⟩
      · have hsign : isAlphanumeric 64 = true := hhead
        exact absurd hsign (by decide)
      · exact hhead
  · rintro ⟨localPart, behind, rfl, hall, hhead, hdomain, rfl⟩
    have hhead' : (localPart ++ 64 :: behind).head?.any isAlphanumeric = true := by
      rcases localPart with _ | ⟨b, localPart⟩
      · exact absurd hhead Bool.false_ne_true
      · exact hhead
    have htake : (localPart ++ 64 :: behind).takeWhile isEmailLocalByte = localPart := by
      rw [List.takeWhile_append_of_pos hall, List.takeWhile_cons_of_neg (by decide), List.append_nil]
    rw [emailAt, htake, List.drop_left]
    exact if_pos ⟨hhead', rfl, hdomain⟩

theorem emailAt_crosses (bound : Nat) : Crosses emailAt openBracket bound := by
  intro text n h
  obtain ⟨localPart, behind, rfl, hall, _, _, rfl⟩ := emailAt_eq_some_iff.mp h
  have hdomain : openBracket ∉ emailDomain behind := fun hmem => absurd (mem_emailDomain hmem) (by decide)
  obtain ⟨rest, hrest⟩ := emailDomain_begins behind
  generalize emailDomain behind = domain at hrest hdomain ⊢
  subst hrest
  have htake : (localPart ++ 64 :: (domain ++ rest)).take (localPart.length + 1 + domain.length) =
      localPart ++ 64 :: domain := by
    rw [Nat.add_assoc, List.take_length_add_append, Nat.add_comm 1, List.take_succ_cons, List.take_left]
  have hnone : openBracket ∉ localPart ++ 64 :: domain := by
    rw [List.mem_append, List.mem_cons, not_or, not_or]
    exact ⟨fun hmem => absurd (hall _ hmem) (by decide), by decide, hdomain⟩
  rw [htake, List.count_eq_zero.mpr hnone]
  refine ⟨?_, Nat.zero_le bound⟩
  simp only [List.length_append, List.length_cons]
  omega

theorem suffix_localPart {part text : Bytes} (h : part <:+ text) (hall : ∀ b ∈ part, isEmailLocalByte b = true)
    (hhead : part.head?.any isAlphanumeric = true) :
    part <:+ (text.rtakeWhile isEmailLocalByte).dropWhile fun b => !isAlphanumeric b := by
  refine suffix_dropWhile (suffix_rtakeWhile h hall) ?_
  simpa only [Bool.not_not] using hhead

/-- Every match has its sign behind the cursor, or at it. -/
def SignsFrom (text : Bytes) (cursor : Nat) : Prop :=
  ∀ {i localPart behind}, text.drop i = localPart ++ 64 :: behind → (∀ b ∈ localPart, isEmailLocalByte b = true) →
    localPart.head?.any isAlphanumeric = true → isDomain (emailDomain behind) = true → cursor ≤ i + localPart.length

theorem le_of_sign_lt {text localPart behind : Bytes} {i sign : Nat} (hsign : (text.drop sign).head? = some 64)
    (heq : text.drop i = localPart ++ 64 :: behind) (hall : ∀ b ∈ localPart, isEmailLocalByte b = true)
    (hlt : sign < i + localPart.length) : sign < i := by
  by_contra hle
  obtain ⟨k, rfl⟩ := Nat.exists_eq_add_of_le (Nat.not_lt.mp hle)
  rw [← List.drop_drop, heq, List.head?_drop, List.getElem?_append_left (by omega)] at hsign
  exact absurd (hall _ (List.mem_of_getElem? hsign)) (by decide)

theorem of_sign_eq {text localPart behind : Bytes} {i sign : Nat} (hlt : sign < text.length)
    (heq : text.drop i = localPart ++ 64 :: behind) (hall : ∀ b ∈ localPart, isEmailLocalByte b = true)
    (hhead : localPart.head?.any isAlphanumeric = true) (hsign : i + localPart.length = sign) :
    sign - (((text.take sign).rtakeWhile isEmailLocalByte).dropWhile fun b => !isAlphanumeric b).length ≤ i ∧ i < sign ∧
      text.drop (sign + 1) = behind := by
  have htext : text = text.take i ++ (localPart ++ 64 :: behind) := by rw [← heq, List.take_append_drop]
  have htake : (text.take i).length = i := List.length_take_of_le (by omega)
  have hpart : localPart <:+ text.take sign := by
    refine ⟨text.take i, ?_⟩
    conv_rhs => rw [htext, ← List.append_assoc]
    rw [List.take_left' (by rw [List.length_append, htake, hsign])]
  have hlength := (suffix_localPart hpart hall hhead).length_le
  have hpos : 0 < localPart.length := by
    rcases localPart with _ | ⟨b, localPart⟩
    · exact absurd hhead Bool.false_ne_true
    · exact Nat.succ_pos _
  refine ⟨by omega, by omega, ?_⟩
  rw [← hsign, Nat.add_assoc, ← List.drop_drop, heq, List.drop_length_add_append, List.drop_one, List.tail_cons]

theorem findEmail_eq (text : Bytes) {fuel cursor : Nat} (hsigns : SignsFrom text cursor) (hcursor : cursor ≤ text.length)
    (hfuel : text.length - cursor < fuel) :
    findEmail text fuel cursor = (scan emailAt text).map fun found => (found.1, found.1 + found.2) := by
  induction fuel generalizing cursor with
  | zero => exact absurd hfuel (Nat.not_lt_zero _)
  | succ fuel ih =>
    rw [findEmail]
    rcases hfind : (text.drop cursor).findIdx? (· == 64) with _ | hit
    · rw [List.findIdx?_eq_none_iff] at hfind
      rw [scan_eq_none_iff.mpr]
      · rfl
      intro i _
      rw [← Option.not_isSome_iff_eq_none, Option.isSome_iff_exists]
      rintro ⟨n, hn⟩
      obtain ⟨localPart, behind, heq, hall, hhead, hdomain, _⟩ := emailAt_eq_some_iff.mp hn
      obtain ⟨k, hk⟩ := Nat.exists_eq_add_of_le (hsigns heq hall hhead hdomain)
      have hrest : (text.drop cursor).drop k = 64 :: behind := by
        rw [List.drop_drop, ← hk, ← List.drop_drop, heq, List.drop_left]
      have hmem : (64 : UInt8) ∈ text.drop cursor := List.mem_of_mem_drop (hrest ▸ List.mem_cons_self)
      exact absurd (hfind 64 hmem) (by decide)
    · obtain ⟨hhit, hat, hbefore⟩ := List.findIdx?_eq_some_iff_getElem.mp hfind
      rw [List.length_drop] at hhit
      rw [List.getElem_drop, beq_iff_eq] at hat
      have hsign : text.drop (cursor + hit) = 64 :: text.drop (cursor + hit + 1) := by
        rw [List.drop_eq_getElem_cons (by omega), hat]
      -- the sign is the first one from the cursor on
      have hfirst {i : Nat} {localPart behind : Bytes} (heq : text.drop i = localPart ++ 64 :: behind)
          (hle : cursor ≤ i + localPart.length) : cursor + hit ≤ i + localPart.length := by
        obtain ⟨k, hk⟩ := Nat.exists_eq_add_of_le hle
        by_contra hlt
        have hother : text.drop (cursor + k) = 64 :: behind := by
          rw [← hk, ← List.drop_drop, heq, List.drop_left]
        have hget := congrArg List.head? hother
        rw [List.head?_drop, List.head?_cons, List.getElem?_eq_getElem (by omega)] at hget
        refine hbefore k (by omega) ?_
        rw [List.getElem_drop, beq_iff_eq]
        exact Option.some.inj hget
      have hcases {i : Nat} {localPart behind : Bytes} (heq : text.drop i = localPart ++ 64 :: behind)
          (hall : ∀ b ∈ localPart, isEmailLocalByte b = true) (hhead : localPart.head?.any isAlphanumeric = true)
          (hdomain : isDomain (emailDomain behind) = true) := by
        exact (Nat.lt_or_eq_of_le (hfirst heq (hsigns heq hall hhead hdomain))).imp
          (le_of_sign_lt (congrArg List.head? hsign) heq hall) fun h => of_sign_eq (by omega) heq hall hhead h.symm
      dsimp only
      obtain ⟨before, hpart⟩ : ((text.take (cursor + hit)).rtakeWhile isEmailLocalByte).dropWhile (fun b => !isAlphanumeric b) <:+
          text.take (cursor + hit) := (List.dropWhile_suffix _).trans (List.rtakeWhile_suffix _ _)
      generalize hlocal : ((text.take (cursor + hit)).rtakeWhile isEmailLocalByte).dropWhile (fun b => !isAlphanumeric b) =
        localPart at hpart hcases ⊢
      by_cases hmatch : cursor + hit - localPart.length < cursor + hit ∧ isDomain (emailDomain (text.drop (cursor + hit + 1))) = true
      · have hall : ∀ b ∈ localPart, isEmailLocalByte b = true := fun b hb =>
          List.mem_rtakeWhile_imp ((List.dropWhile_suffix _).subset (hlocal.symm ▸ hb))
        have hhead : localPart.head?.any isAlphanumeric = true := by
          have hne : localPart ≠ [] := by
            rintro rfl
            exact absurd hmatch.1 (Nat.lt_irrefl _)
          rw [← hlocal] at hne ⊢
          simpa only [Bool.not_not] using dropWhile_head hne
        have hlength := congrArg List.length hpart
        rw [List.length_append, List.length_take_of_le (by omega)] at hlength
        have hstart : cursor + hit - localPart.length = before.length := by omega
        have htext : text.drop before.length = localPart ++ 64 :: text.drop (cursor + hit + 1) :=
          calc text.drop before.length
            _ = (text.take (cursor + hit) ++ text.drop (cursor + hit)).drop before.length := by rw [List.take_append_drop]
            _ = localPart ++ text.drop (cursor + hit) := by rw [← hpart, List.append_assoc, List.drop_left]
            _ = localPart ++ 64 :: text.drop (cursor + hit + 1) := by rw [hsign]
        have hscan : scan emailAt text =
            some (before.length, localPart.length + 1 + (emailDomain (text.drop (cursor + hit + 1))).length) := by
          refine scan_eq_some_iff.mpr ⟨by omega, emailAt_eq_some_iff.mpr ⟨localPart, _, htext, hall, hhead, hmatch.2, rfl⟩,
            fun j hj => ?_⟩
          rw [← Option.not_isSome_iff_eq_none, Option.isSome_iff_exists]
          rintro ⟨n, hn⟩
          obtain ⟨other, behind, heq, hother, hfront, hdomain, _⟩ := emailAt_eq_some_iff.mp hn
          rcases hcases heq hother hfront hdomain with hlater | ⟨hle, _⟩
          · omega
          · omega
        rw [if_pos hmatch, hstart, hscan, Option.map_some, ← Nat.add_assoc, ← Nat.add_assoc, hlength]
      · rw [if_neg hmatch]
        refine ih (fun heq hall hhead hdomain => ?_) (by omega) (by omega)
        rcases hcases heq hall hhead hdomain with hlater | ⟨hle, hlt, rfl⟩
        · omega
        · exact absurd ⟨by omega, hdomain⟩ hmatch

/-! ## Compiled matchers -/

def CompiledMatcher.atHead : CompiledMatcher → Matcher UInt8
  | literal needle => prefixedAt needle 0 0
  | prefixed needle minLen maxLen => prefixedAt needle minLen maxLen
  | emailLike => emailAt
  | digitRun minDigits maxDigits => digitAt minDigits maxDigits

/-- The pattern that a match begins with. -/
def CompiledMatcher.pattern : CompiledMatcher → Bytes
  | literal needle => needle
  | prefixed needle _ _ => needle
  | emailLike => []
  | digitRun _ _ => []

/-- A matcher as a valid rule is compiled to. -/
def CompiledMatcher.Valid : CompiledMatcher → Prop
  | literal needle => needle ≠ []
  | prefixed needle minLen maxLen => needle ≠ [] ∧ minLen ≤ maxLen
  | emailLike => True
  | digitRun minDigits maxDigits => 0 < minDigits ∧ minDigits ≤ maxDigits

theorem CompiledRule.compile_valid {rule : RedactionRule} (h : rule.Valid) : (compile rule).matcher.Valid := by
  cases rule with
  | literal => exact h.2
  | prefixed => exact h.2
  | emailLike => exact trivial
  | digitRun => exact h.2

theorem CompiledMatcher.atHead_crosses (m : CompiledMatcher) : Crosses m.atHead openBracket (m.pattern.count openBracket) := by
  cases m with
  | literal needle => exact prefixedAt_crosses needle 0 0
  | prefixed needle minLen maxLen => exact prefixedAt_crosses needle minLen maxLen
  | emailLike => exact emailAt_crosses 0
  | digitRun => exact digitAt_crosses 0

theorem CompiledMatcher.atHead_pos {m : CompiledMatcher} (hvalid : m.Valid) {text : Bytes} {n : Nat} (h : m.atHead text = some n) :
    0 < n := by
  cases m with
  | literal needle =>
    obtain ⟨run, rest, _, rfl, _⟩ := prefixedAt_eq_some h
    exact Nat.add_pos_left (List.length_pos_iff.mpr hvalid) _
  | prefixed needle minLen maxLen =>
    obtain ⟨run, rest, _, rfl, _⟩ := prefixedAt_eq_some h
    exact Nat.add_pos_left (List.length_pos_iff.mpr hvalid.1) _
  | emailLike =>
    obtain ⟨localPart, behind, _, _, _, _, rfl⟩ := emailAt_eq_some_iff.mp h
    omega
  | digitRun minDigits maxDigits =>
    obtain ⟨hhead, _, rfl⟩ := digitAt_eq_some_iff.mp h
    exact lt_walkEnd hhead _ _ _ _

theorem CompiledMatcher.find_eq {m : CompiledMatcher} (hvalid : m.Valid) (text : Bytes) :
    m.find text = (scan m.atHead text).map fun found => (found.1, found.1 + found.2) := by
  have hfuel : text.length - 0 < text.length + 1 := Nat.lt_succ_self _
  cases m with
  | literal needle =>
    rw [find, findSub_eq hvalid, Option.map_map]
    rcases hscan : scan (CompiledMatcher.literal needle).atHead text with _ | ⟨i, n⟩
    · rw [show scan (prefixedAt needle 0 0) text = none from hscan]
      rfl
    · obtain ⟨_, hmatch, _⟩ := scan_eq_some_iff.mp hscan
      obtain rfl := Option.some.inj ((literalAt_of_prefixedAt hmatch).symm.trans hmatch)
      rw [show scan (prefixedAt needle 0 0) text = some (i, needle.length) from hscan]
      rfl
  | prefixed needle minLen maxLen =>
    rw [find, findPrefixed_eq hvalid.1 text (Nat.zero_le _) hfuel, List.drop_zero]
    simp only [Nat.zero_add]
    rfl
  | emailLike => exact findEmail_eq text (fun _ _ _ _ => Nat.zero_le _) (Nat.zero_le _) hfuel
  | digitRun minDigits maxDigits =>
    rw [find, findDigitRun_eq (by have := hvalid.1; have := hvalid.2; omega) text (Nat.zero_le _) hfuel, List.drop_zero]
    simp only [Nat.zero_add]
    rfl

theorem CompiledMatcher.findFrom_eq {m : CompiledMatcher} (hvalid : m.Valid) {text : Bytes} {start later : Nat}
    (hle : start ≤ later) (h : ∀ found ∈ m.findFrom text start, later ≤ found.1) :
    m.findFrom text later = m.findFrom text start := by
  obtain ⟨k, rfl⟩ := Nat.exists_eq_add_of_le hle
  rw [findFrom, findFrom, find_eq hvalid, find_eq hvalid, ← List.drop_drop]
  rw [findFrom, find_eq hvalid] at h
  rcases hscan : scan m.atHead (text.drop start) with _ | ⟨i, n⟩
  · rw [scan_drop_eq_none hscan]
    rfl
  · rw [hscan] at h
    have hk := h _ rfl
    dsimp only at hk
    rw [scan_drop hscan (by omega)]
    simp only [Option.map_some, Option.some.injEq, Prod.mk.injEq]
    omega

end Cuca.Redaction
