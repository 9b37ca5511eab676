import Mathlib.Data.List.Infix

/-!
# Markers in a text that comes in pieces

A text is searched for the leftmost of several markers, the longest of those at one place. While more may come, the end of the text is
kept back as long as it may be the beginning of a marker.

* `find`, `earliest` : the first place of a marker, and the leftmost of several;
* `partialSuffix` : the end to keep back;
* `Separated` : no marker stands within another;
* `earliest_eq_some_iff` : the leftmost marker, `earliest_append` : it stays, whatever comes later;
* `earliest_kept` : without a marker, all that comes later needs to see is what is kept back.
-/

namespace Markers

variable {α : Type*}

def At (marker text : List α) (i : Nat) : Prop := i ≤ text.length ∧ marker <+: text.drop i

theorem At.append {marker text : List α} {i : Nat} (h : At marker text i) (more : List α) : At marker (text ++ more) i := by
  refine ⟨h.1.trans (by rw [List.length_append]; omega), ?_⟩
  rw [List.drop_append_of_le_length h.1]
  exact h.2.trans (List.prefix_append _ _)

theorem At.length_le {marker text : List α} {i : Nat} (h : At marker text i) : i + marker.length ≤ text.length := by
  have hle := h.2.length_le
  have hi := h.1
  rw [List.length_drop] at hle
  omega

theorem At.of_append {marker text more : List α} {i : Nat} (h : At marker (text ++ more) i)
    (hend : i + marker.length ≤ text.length) : At marker text i := by
  have hi : i ≤ text.length := by omega
  refine ⟨hi, ?_⟩
  have hbeginning := h.2
  rw [List.drop_append_of_le_length hi] at hbeginning
  refine List.prefix_of_prefix_length_le hbeginning (List.prefix_append _ _) ?_
  rw [List.length_drop]
  omega

variable [DecidableEq α]

/-- The first place of a marker. -/
def find (marker : List α) : List α → Option Nat
  | [] => if marker.isEmpty then some 0 else none
  | a :: text => if marker.isPrefixOf (a :: text) then some 0 else (find marker text).map (· + 1)

theorem find_eq_some_iff {marker text : List α} {i : Nat} :
    find marker text = some i ↔ At marker text i ∧ ∀ j < i, ¬ At marker text j := by
  induction text generalizing i with
  | nil =>
    rw [find]
    rcases marker with _ | ⟨a, marker⟩
    · rw [if_pos List.isEmpty_nil]
      constructor
      · intro h
        obtain rfl := Option.some.inj h
        exact ⟨⟨Nat.le_refl _, List.nil_prefix⟩, fun j hj => absurd hj (Nat.not_lt_zero j)⟩
      · intro h
        rw [Nat.le_zero.mp h.1.1]
    · refine iff_of_false nofun fun h => ?_
      have hnil : a :: marker <+: [] := by simpa using h.1.2
      exact nomatch List.prefix_nil.mp hnil
  | cons a text ih =>
    rw [find]
    by_cases hhead : marker.isPrefixOf (a :: text)
    · rw [if_pos hhead]
      have hzero : At marker (a :: text) 0 := ⟨Nat.zero_le _, List.isPrefixOf_iff_prefix.mp hhead⟩
      constructor
      · intro h
        obtain rfl := Option.some.inj h
        exact ⟨hzero, fun j hj => absurd hj (Nat.not_lt_zero j)⟩
      · intro h
        rcases i with _ | i
        · rfl
        · exact absurd hzero (h.2 0 (Nat.succ_pos i))
    · rw [if_neg hhead]
      have hshift (j : Nat) : At marker (a :: text) (j + 1) ↔ At marker text j := by
        rw [At, At, List.length_cons, List.drop_succ_cons, Nat.add_le_add_iff_right]
      have hzero : ¬ At marker (a :: text) 0 := fun h => hhead (List.isPrefixOf_iff_prefix.mpr h.2)
      rcases i with _ | i
      · refine iff_of_false (fun h => ?_) fun h => hzero h.1
        obtain ⟨j, _, hj⟩ := Option.map_eq_some_iff.mp h
        exact nomatch hj
      · rw [hshift]
        constructor
        · intro h
          obtain ⟨j, hfind, hj⟩ := Option.map_eq_some_iff.mp h
          obtain rfl := Nat.succ.inj hj
          obtain ⟨hat, hfirst⟩ := ih.mp hfind
          refine ⟨hat, fun k hk => ?_⟩
          rcases k with _ | k
          · exact hzero
          · rw [hshift]
            exact hfirst k (Nat.lt_of_succ_lt_succ hk)
        · intro h
          refine Option.map_eq_some_iff.mpr ⟨i, ih.mpr ⟨h.1, fun k hk => ?_⟩, rfl⟩
          rw [← hshift]
          exact h.2 (k + 1) (Nat.succ_lt_succ hk)

theorem find_eq_none_iff {marker text : List α} : find marker text = none ↔ ∀ i, ¬ At marker text i := by
  constructor
  · intro h i
    induction i using Nat.strongRecOn with
    | ind i ih =>
      intro hat
      exact nomatch h.symm.trans (find_eq_some_iff.mpr ⟨hat, ih⟩)
  · intro h
    rcases hfind : find marker text with _ | i
    · rfl
    · exact absurd (find_eq_some_iff.mp hfind).1 (h i)

theorem find_eq_none_iff_infix {marker text : List α} : find marker text = none ↔ ¬ marker <:+: text := by
  rw [find_eq_none_iff]
  constructor
  · rintro hnone ⟨before, behind, rfl⟩
    apply hnone before.length
    refine ⟨by simp only [List.length_append]; omega, behind, ?_⟩
    rw [List.append_assoc, List.drop_left]
  · intro hnot i hat
    obtain ⟨behind, hbehind⟩ := hat.2
    exact hnot ⟨text.take i, behind, by rw [List.append_assoc, hbehind, List.take_append_drop]⟩

/-! ## Several markers -/

variable {M : Type*} (textOf : M → List α)

/-- The hit that is further to the left, or longer at the same place; the first of two that are alike. -/
def pick (best : Option (Nat × M)) (hit : Nat × M) : Option (Nat × M) :=
  match best with
  | none => some hit
  | some b => if hit.1 < b.1 ∨ hit.1 = b.1 ∧ (textOf b.2).length < (textOf hit.2).length then some hit else some b

def earliest (markers : List M) (text : List α) : Option (Nat × M) :=
  (markers.filterMap fun m => (find (textOf m) text).map fun i => (i, m)).foldl (pick textOf) none

/-- No marker is empty, and none stands within another. -/
structure Separated (markers : List M) : Prop where
  nonempty : ∀ m ∈ markers, textOf m ≠ []
  apart : ∀ m ∈ markers, ∀ m' ∈ markers, textOf m <:+: textOf m' → m = m'

variable {textOf} {markers : List M}

theorem foldl_pick (hits : List (Nat × M)) (best : Option (Nat × M)) :
    (hits.foldl (pick textOf) best = none ↔ best = none ∧ hits = []) ∧
      ∀ found, hits.foldl (pick textOf) best = some found →
        (best = some found ∨ found ∈ hits) ∧ (∀ b, best = some b → found.1 ≤ b.1) ∧ ∀ hit ∈ hits, found.1 ≤ hit.1 := by
  induction hits generalizing best with
  | nil =>
    refine ⟨⟨fun h => ⟨h, rfl⟩, fun h => h.1⟩, fun found h => ⟨.inl h, fun b hb => ?_, nofun⟩⟩
    obtain rfl := Option.some.inj (hb.symm.trans h)
    exact Nat.le_refl _
  | cons hit hits ih =>
    rw [List.foldl_cons]
    obtain ⟨hnone, hsome⟩ := ih (pick textOf best hit)
    obtain ⟨next, hnext, hor, hle, hhit⟩ : ∃ next, pick textOf best hit = some next ∧ (best = some next ∨ next = hit) ∧
        (∀ b, best = some b → next.1 ≤ b.1) ∧ next.1 ≤ hit.1 := by
      rcases best with _ | b
      · exact ⟨hit, rfl, .inr rfl, nofun, Nat.le_refl _⟩
      · rw [pick]
        by_cases hbetter : hit.1 < b.1 ∨ hit.1 = b.1 ∧ (textOf b.2).length < (textOf hit.2).length
        · refine ⟨hit, if_pos hbetter, .inr rfl, fun b' hb' => ?_, Nat.le_refl _⟩
          obtain rfl := Option.some.inj hb'
          omega
        · refine ⟨b, if_neg hbetter, .inl rfl, fun b' hb' => ?_, by omega⟩
          obtain rfl := Option.some.inj hb'
          exact Nat.le_refl _
    rw [hnext] at hnone hsome ⊢
    refine ⟨iff_of_false (fun h => nomatch (hnone.mp h).1) fun h => (nomatch h.2), fun found hfound => ?_⟩
    obtain ⟨hmem, hbest, hall⟩ := hsome found hfound
    have hfirst := hbest next rfl
    refine ⟨?_, fun b hb => hfirst.trans (hle b hb), fun other hother => ?_⟩
    · rcases hmem with heq | hmem
      · obtain rfl := Option.some.inj heq
        rcases hor with hbest' | rfl
        · exact .inl hbest'
        · exact .inr List.mem_cons_self
      · exact .inr (List.mem_cons_of_mem _ hmem)
    · rcases List.mem_cons.mp hother with rfl | hrest
      · exact hfirst.trans hhit
      · exact hall other hrest

theorem earliest_eq_none_iff {text : List α} : earliest textOf markers text = none ↔ ∀ m ∈ markers, ∀ i, ¬ At (textOf m) text i := by
  rw [earliest, (foldl_pick _ none).1, and_iff_right rfl, List.filterMap_eq_nil_iff]
  refine forall₂_congr fun m _ => ?_
  rw [Option.map_eq_none_iff, find_eq_none_iff]

theorem earliest_some {text : List α} {i : Nat} {m : M} (h : earliest textOf markers text = some (i, m)) :
    m ∈ markers ∧ At (textOf m) text i ∧ ∀ m' ∈ markers, ∀ j < i, ¬ At (textOf m') text j := by
  obtain ⟨hmem, -, hall⟩ := (foldl_pick _ none).2 (i, m) h
  rcases hmem with hnone | hmem
  · exact nomatch hnone
  · obtain ⟨m₀, hm, hhit⟩ := List.mem_filterMap.mp hmem
    obtain ⟨i₀, hfind, heq⟩ := Option.map_eq_some_iff.mp hhit
    obtain ⟨rfl, rfl⟩ := Prod.mk.inj heq
    refine ⟨hm, (find_eq_some_iff.mp hfind).1, fun m' hm' j hj hat => ?_⟩
    rcases hother : find (textOf m') text with _ | k
    · exact find_eq_none_iff.mp hother j hat
    · have hle := hall (k, m') (List.mem_filterMap.mpr ⟨m', hm', by rw [hother]; rfl⟩)
      have hfirst := (find_eq_some_iff.mp hother).2 j
      dsimp only at hle
      exact hfirst (by omega) hat

theorem earliest_drop_eq_none {text : List α} (h : earliest textOf markers text = none) (n : Nat) :
    earliest textOf markers (text.drop n) = none := by
  rw [earliest_eq_none_iff] at h ⊢
  rintro m hm i ⟨hi, hat⟩
  rw [List.length_drop] at hi
  rw [List.drop_drop] at hat
  by_cases hn : n ≤ text.length
  · exact h m hm (n + i) ⟨by omega, hat⟩
  · rw [List.drop_eq_nil_of_le (by omega)] at hat
    exact h m hm text.length ⟨Nat.le_refl _, by rw [List.drop_length]; exact hat⟩

theorem earliest_nil (hsep : Separated textOf markers) : earliest textOf markers ([] : List α) = none := by
  rw [earliest_eq_none_iff]
  intro m hm i hat
  have hlength := hat.length_le
  have hpos := List.length_pos_of_ne_nil (hsep.nonempty m hm)
  rw [List.length_nil] at hlength
  omega

theorem earliest_eq_some_iff (hsep : Separated textOf markers) {text : List α} {i : Nat} {m : M} :
    earliest textOf markers text = some (i, m) ↔
      m ∈ markers ∧ At (textOf m) text i ∧ ∀ m' ∈ markers, ∀ j < i, ¬ At (textOf m') text j := by
  refine ⟨earliest_some, fun ⟨hm, hat, hfirst⟩ => ?_⟩
  rcases hearliest : earliest textOf markers text with _ | ⟨k, m'⟩
  · exact absurd hat (earliest_eq_none_iff.mp hearliest m hm i)
  · obtain ⟨hm', hat', hfirst'⟩ := earliest_some hearliest
    have hki : k = i := by
      rcases Nat.lt_trichotomy k i with hlt | heq | hgt
      · exact absurd hat' (hfirst m' hm' k hlt)
      · exact heq
      · exact absurd hat (hfirst' m hm i hgt)
    rw [hki] at hat'
    -- two markers at one place: one is the beginning of the other
    have hsame : m' = m := by
      rcases List.prefix_or_prefix_of_prefix hat'.2 hat.2 with h | h
      · exact hsep.apart m' hm' m hm h.isInfix
      · exact (hsep.apart m hm m' hm' h.isInfix).symm
    rw [hki, hsame]

theorem earliest_of_append (hsep : Separated textOf markers) {text more : List α} {i : Nat} {m : M}
    (h : earliest textOf markers (text ++ more) = some (i, m)) (hend : i + (textOf m).length ≤ text.length) :
    earliest textOf markers text = some (i, m) := by
  obtain ⟨hm, hat, hfirst⟩ := earliest_some h
  exact (earliest_eq_some_iff hsep).mpr ⟨hm, hat.of_append hend, fun m' hm' j hj hat' => hfirst m' hm' j hj (hat'.append more)⟩

theorem earliest_drop_eq_some (hsep : Separated textOf markers) {text : List α} {i n : Nat} {m : M}
    (h : earliest textOf markers text = some (i, m)) (hn : n ≤ i) : earliest textOf markers (text.drop n) = some (i - n, m) := by
  obtain ⟨hm, hat, hfirst⟩ := earliest_some h
  have hi := hat.1
  have hdrop (m' : M) (j : Nat) (h : At (textOf m') (text.drop n) j) : At (textOf m') text (n + j) := by
    obtain ⟨hj, hbeginning⟩ := h
    rw [List.length_drop] at hj
    rw [List.drop_drop] at hbeginning
    exact ⟨by omega, hbeginning⟩
  refine (earliest_eq_some_iff hsep).mpr ⟨hm, ⟨?_, ?_⟩, fun m' hm' j hj hat' => hfirst m' hm' (n + j) (by omega) (hdrop m' j hat')⟩
  · rw [List.length_drop]
    omega
  · rw [List.drop_drop, Nat.add_sub_cancel' hn]
    exact hat.2

/-- **A marker that is found** stays the leftmost, whatever comes later. -/
theorem earliest_append (hsep : Separated textOf markers) {text : List α} {i : Nat} {m : M}
    (h : earliest textOf markers text = some (i, m)) (more : List α) :
    earliest textOf markers (text ++ more) = some (i, m) := by
  obtain ⟨hm, hat, hfirst⟩ := earliest_some h
  refine (earliest_eq_some_iff hsep).mpr ⟨hm, hat.append more, fun m' hm' j hj hat' => ?_⟩
  by_cases hend : j + (textOf m').length ≤ text.length
  · exact hfirst m' hm' j hj (hat'.of_append hend)
  · -- it would have the one that is found within it
    have hlength := hat.length_le
    have hwithin : textOf m <+: (textOf m').drop (i - j) := by
      have hlater : (textOf m').drop (i - j) <+: ((text ++ more).drop j).drop (i - j) := hat'.2.drop (i - j)
      rw [List.drop_drop, Nat.add_sub_cancel' (Nat.le_of_lt hj)] at hlater
      refine List.prefix_of_prefix_length_le (hat.append more).2 hlater ?_
      rw [List.length_drop]
      omega
    have hsame := hsep.apart m hm m' hm' (hwithin.isInfix.trans (List.drop_suffix _ _).isInfix)
    have hne := List.length_pos_of_ne_nil (hsep.nonempty m hm)
    rw [hsame] at hwithin hne
    have hle := hwithin.length_le
    rw [List.length_drop] at hle
    omega

/-! ## What is kept back -/

/-- The longest beginning of the marker, longer than `best` and not the whole of it, that the text ends with. -/
def longest (text marker : List α) (best : Nat) : Nat → Nat
  | 0 => best
  | k + 1 => if best < k + 1 then (if (marker.take (k + 1)).isSuffixOf text then k + 1 else longest text marker best k) else best

def partialSuffix (textOf : M → List α) (markers : List M) (text : List α) : Nat :=
  markers.foldl (fun best m => longest text (textOf m) best (min ((textOf m).length - 1) text.length)) 0

theorem longest_spec (text marker : List α) (best n : Nat) :
    best ≤ longest text marker best n ∧
      (longest text marker best n = best ∨ longest text marker best n ≤ n) ∧
      ∀ k ≤ n, marker.take k <:+ text → k ≤ longest text marker best n := by
  induction n with
  | zero => exact ⟨Nat.le_refl _, .inl rfl, fun k hk _ => by rw [Nat.le_zero.mp hk]; exact Nat.zero_le _⟩
  | succ n ih =>
    obtain ⟨hbest, hle, hall⟩ := ih
    rw [longest]
    by_cases hlt : best < n + 1
    · rw [if_pos hlt]
      by_cases hsuffix : (marker.take (n + 1)).isSuffixOf text
      · rw [if_pos hsuffix]
        exact ⟨Nat.le_of_lt hlt, .inr (Nat.le_refl _), fun k hk _ => hk⟩
      · rw [if_neg hsuffix]
        refine ⟨hbest, by omega, fun k hk hk' => ?_⟩
        rcases Nat.lt_or_eq_of_le hk with hlt' | rfl
        · exact hall k (Nat.le_of_lt_succ hlt') hk'
        · exact absurd (List.isSuffixOf_iff_suffix.mpr hk') hsuffix
    · rw [if_neg hlt]
      exact ⟨Nat.le_refl _, .inl rfl, fun k hk _ => by omega⟩

theorem foldl_longest (text : List α) (markers : List M) (best : Nat) (hbest : best ≤ text.length) :
    let kept := markers.foldl (fun best m => longest text (textOf m) best (min ((textOf m).length - 1) text.length)) best
    kept ≤ text.length ∧ best ≤ kept ∧
      ∀ m ∈ markers, ∀ k < (textOf m).length, k ≤ text.length → (textOf m).take k <:+ text → k ≤ kept := by
  induction markers generalizing best with
  | nil => exact ⟨hbest, Nat.le_refl _, nofun⟩
  | cons m markers ih =>
    obtain ⟨hle, hor, hall⟩ := longest_spec text (textOf m) best (min ((textOf m).length - 1) text.length)
    obtain ⟨hlength, hkept, hrest⟩ := ih (longest text (textOf m) best (min ((textOf m).length - 1) text.length)) (by omega)
    rw [List.foldl_cons]
    refine ⟨hlength, hle.trans hkept, fun m' hm' k hk hk' hsuffix => ?_⟩
    rcases List.mem_cons.mp hm' with rfl | hmem
    · exact (hall k (by omega) hsuffix).trans hkept
    · exact hrest m' hmem k hk hk' hsuffix

theorem longest_attained (text marker : List α) (best n : Nat) :
    longest text marker best n = best ∨ longest text marker best n ≤ n ∧ marker.take (longest text marker best n) <:+ text := by
  induction n with
  | zero => exact .inl rfl
  | succ n ih =>
    rw [longest]
    split
    · split
      · rename_i hsuffix
        exact .inr ⟨Nat.le_refl _, List.isSuffixOf_iff_suffix.mp hsuffix⟩
      · exact ih.imp id fun h => ⟨h.1.trans (Nat.le_succ n), h.2⟩
    · exact .inl rfl

theorem foldl_longest_attained (text : List α) (markers : List M) (best : Nat) :
    let kept := markers.foldl (fun best m => longest text (textOf m) best (min ((textOf m).length - 1) text.length)) best
    kept = best ∨ ∃ m ∈ markers, kept ≤ (textOf m).length - 1 ∧ (textOf m).take kept <:+ text := by
  induction markers generalizing best with
  | nil => exact .inl rfl
  | cons m markers ih =>
    rw [List.foldl_cons]
    rcases ih (longest text (textOf m) best (min ((textOf m).length - 1) text.length)) with heq | ⟨m', hm', hle, hsuffix⟩
    · dsimp only at heq ⊢
      rw [heq]
      rcases longest_attained text (textOf m) best (min ((textOf m).length - 1) text.length) with hbest | ⟨hle, hsuffix⟩
      · exact .inl hbest
      · exact .inr ⟨m, List.mem_cons_self, by omega, hsuffix⟩
    · exact .inr ⟨m', List.mem_cons_of_mem _ hm', hle, hsuffix⟩

theorem partialSuffix_le (text : List α) : partialSuffix textOf markers text ≤ text.length :=
  (foldl_longest text markers 0 (Nat.zero_le _)).1

theorem partialSuffix_attained (text : List α) : partialSuffix textOf markers text = 0 ∨
    ∃ m ∈ markers, partialSuffix textOf markers text ≤ (textOf m).length - 1 ∧
      (textOf m).take (partialSuffix textOf markers text) <:+ text := foldl_longest_attained text markers 0

/-- **What is kept back** is the longest end of the text that may be the beginning of a marker. -/
theorem partialSuffix_eq_iff {text : List α} {n : Nat} : partialSuffix textOf markers text = n ↔
    (n = 0 ∨ n ≤ text.length ∧ ∃ m ∈ markers, n ≤ (textOf m).length - 1 ∧ (textOf m).take n <:+ text) ∧
      ∀ m ∈ markers, ∀ k < (textOf m).length, k ≤ text.length → (textOf m).take k <:+ text → k ≤ n := by
  have hmax := (@foldl_longest _ _ _ textOf text markers 0 (Nat.zero_le _)).2.2
  constructor
  · rintro rfl
    exact ⟨(partialSuffix_attained text).imp id fun h => ⟨partialSuffix_le text, h⟩, hmax⟩
  · rintro ⟨hn, hall⟩
    apply Nat.le_antisymm
    · rcases @partialSuffix_attained _ _ _ textOf markers text with h | ⟨m, hm, hle, hsuffix⟩
      · omega
      · rcases Nat.eq_zero_or_pos (partialSuffix textOf markers text) with hzero | hpos
        · omega
        · exact hall m hm _ (by omega) (partialSuffix_le text) hsuffix
    · rcases hn with rfl | ⟨hlength, m, hm, hle, hsuffix⟩
      · exact Nat.zero_le _
      · rcases Nat.eq_zero_or_pos n with rfl | hpos
        · exact Nat.zero_le _
        · exact hmax m hm n (by omega) hlength hsuffix

/-- **What may become a marker** is kept back: without a marker in the text, none begins before the part that is. -/
theorem not_at_of_earliest_none {text : List α} (h : earliest textOf markers text = none) (more : List α) {m : M}
    (hm : m ∈ markers) {j : Nat} (hj : j < text.length - partialSuffix textOf markers text) : ¬ At (textOf m) (text ++ more) j := by
  intro hat
  by_cases hend : j + (textOf m).length ≤ text.length
  · exact earliest_eq_none_iff.mp h m hm j (hat.of_append hend)
  · have hbeginning := hat.2
    rw [List.drop_append_of_le_length (by omega)] at hbeginning
    have htake : (textOf m).take (text.length - j) = text.drop j := by
      have hlength : (text.drop j).length = text.length - j := List.length_drop
      have hpart : text.drop j <+: textOf m := by
        refine List.prefix_of_prefix_length_le (List.prefix_append _ more) hbeginning ?_
        rw [hlength]
        omega
      rw [← hlength]
      exact (List.prefix_iff_eq_take.mp hpart).symm
    have hkept := (@foldl_longest _ _ _ textOf text markers 0 (Nat.zero_le _)).2.2 m hm (text.length - j) (by omega) (by omega)
      (htake ▸ List.drop_suffix j text)
    have hsuffix : text.length - j ≤ partialSuffix textOf markers text := hkept
    omega

/-- **Without a marker**, what comes later only needs to see what is kept back. -/
theorem earliest_kept (hsep : Separated textOf markers) {text : List α} (h : earliest textOf markers text = none) (more : List α) :
    earliest textOf markers (text ++ more) =
      (earliest textOf markers (text.drop (text.length - partialSuffix textOf markers text) ++ more)).map fun hit =>
        (hit.1 + (text.length - partialSuffix textOf markers text), hit.2) := by
  generalize hready : text.length - partialSuffix textOf markers text = ready
  have hle : ready ≤ text.length := by omega
  have hshift (m : M) (j : Nat) : At (textOf m) (text ++ more) (j + ready) ↔ At (textOf m) (text.drop ready ++ more) j := by
    rw [At, At, List.length_append, List.length_append, List.length_drop, ← List.drop_append_of_le_length hle, List.drop_drop,
      Nat.add_comm ready j]
    exact and_congr_left fun _ => by omega
  have hnone (m : M) (hm : m ∈ markers) (j : Nat) (hj : j < ready) : ¬ At (textOf m) (text ++ more) j :=
    not_at_of_earliest_none h more hm (hready ▸ hj)
  rcases hkept : earliest textOf markers (text.drop ready ++ more) with _ | ⟨i, m⟩
  · refine earliest_eq_none_iff.mpr fun m hm j hat => ?_
    rcases Nat.lt_or_ge j ready with hlt | hge
    · exact hnone m hm j hlt hat
    · obtain ⟨k, rfl⟩ := Nat.exists_eq_add_of_le' hge
      exact earliest_eq_none_iff.mp hkept m hm k ((hshift m k).mp hat)
  · obtain ⟨hm, hat, hfirst⟩ := earliest_some hkept
    refine (earliest_eq_some_iff hsep).mpr ⟨hm, (hshift m i).mpr hat, fun m' hm' j hj hat' => ?_⟩
    rcases Nat.lt_or_ge j ready with hlt | hge
    · exact hnone m' hm' j hlt hat'
    · obtain ⟨k, rfl⟩ := Nat.exists_eq_add_of_le' hge
      exact hfirst m' hm' k (by omega) ((hshift m' k).mp hat')

theorem partialSuffix_drop {text : List α} {n : Nat} (hn : n ≤ text.length - partialSuffix textOf markers text) :
    partialSuffix textOf markers (text.drop n) = partialSuffix textOf markers text := by
  obtain ⟨hor, hmax⟩ := partialSuffix_eq_iff.mp (Eq.refl (partialSuffix textOf markers text))
  refine partialSuffix_eq_iff.mpr ⟨?_, fun m hm k hk hk' hsuffix => ?_⟩
  · rcases hor with hzero | ⟨hle, m, hm, hlt, hsuffix⟩
    · exact .inl hzero
    · have hshort : partialSuffix textOf markers text ≤ (text.drop n).length := by
        rw [List.length_drop]
        omega
      refine .inr ⟨hshort, m, hm, hlt, List.suffix_of_suffix_length_le hsuffix (List.drop_suffix n text) ?_⟩
      rw [List.length_take]
      omega
  · rw [List.length_drop] at hk'
    exact hmax m hm k hk (by omega) (hsuffix.trans (List.drop_suffix n text))

theorem kept_beginning (text : List α) : text.drop (text.length - partialSuffix textOf markers text) = [] ∨
    ∃ m ∈ markers, text.drop (text.length - partialSuffix textOf markers text) <+: textOf m := by
  have hle := @partialSuffix_le _ _ _ textOf markers text
  rcases @partialSuffix_attained _ _ _ textOf markers text with hzero | ⟨m, hm, hlt, hsuffix⟩
  · rw [hzero, Nat.sub_zero, List.drop_length]
    exact .inl rfl
  · refine .inr ⟨m, hm, ?_⟩
    have hdrop := List.suffix_iff_eq_drop.mp hsuffix
    rw [List.length_take, Nat.min_eq_left (by omega)] at hdrop
    rw [← hdrop]
    exact List.take_prefix _ _

theorem partialSuffix_append (text more : List α) : partialSuffix textOf markers (text ++ more) =
    partialSuffix textOf markers (text.drop (text.length - partialSuffix textOf markers text) ++ more) := by
  generalize hready : text.length - partialSuffix textOf markers text = ready
  have hle : ready ≤ text.length := by omega
  have hdrop : (text ++ more).drop ready = text.drop ready ++ more := List.drop_append_of_le_length hle
  have hlength : (text.drop ready ++ more).length = (text ++ more).length - ready := by rw [← hdrop, List.length_drop]
  have hfew := @partialSuffix_le _ _ _ textOf markers text
  obtain ⟨hor, hmax⟩ := partialSuffix_eq_iff.mp (Eq.refl (partialSuffix textOf markers (text.drop ready ++ more)))
  refine partialSuffix_eq_iff.mpr ⟨hor.imp id ?_, fun m hm k hk hk' hsuffix => ?_⟩
  · rintro ⟨hshort, m, hm, hn, hsuffix⟩
    refine ⟨by omega, m, hm, hn, hsuffix.trans ?_⟩
    rw [← hdrop]
    exact List.drop_suffix _ _
  · by_cases hwithin : k ≤ (text.drop ready ++ more).length
    · refine hmax m hm k hk hwithin (List.suffix_of_suffix_length_le hsuffix (hdrop ▸ List.drop_suffix _ _) ?_)
      rw [List.length_take]
      omega
    · -- it would begin before what is kept back of the text
      exfalso
      obtain ⟨before, hbefore⟩ := hsuffix
      have hbeforeLength := congrArg List.length hbefore
      rw [List.length_append, List.length_append, List.length_take] at hbeforeLength
      rw [List.length_append, List.length_drop] at hwithin
      have hlonger : (textOf m).take (text.length - before.length) <:+ text := by
        refine ⟨before, ?_⟩
        have htake := congrArg (List.take text.length) hbefore
        rw [List.take_left, List.take_append, List.take_of_length_le (by omega), List.take_take] at htake
        rwa [Nat.min_eq_left (by omega)] at htake
      have := (partialSuffix_eq_iff.mp (Eq.refl (partialSuffix textOf markers text))).2 m hm (text.length - before.length) (by omega)
        (by omega) hlonger
      omega

end Markers
