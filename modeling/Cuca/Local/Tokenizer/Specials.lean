import Cuca.Local.Tokenizer

/-!
# Special tokens are cut out whole

The prefilter passes over the special tokens that cannot occur in a text. What is left is the same as when every one of them is
cut out of every fragment.

* `splitSpecials` : a text around its special tokens, without a prefilter;
* `cut_raw`, `cut_spelled` : the fragments around one special token;
* `Splits` : the fragments around those that were tried; `cutEvery_splits` : one more;
* `cutAll_eq` : the prefilter leaves out nothing that occurs;
* `partitionSpecials_split` : of every tokenizer and every text.
-/

namespace Cuca.Local.Tokenizer
variable {K : Type}

def cutFragment (special : Special) (lead : Char) (tail : List Char) : Fragment → List Fragment
  | .raw rest => cut special lead tail rest
  | .special id => [.special id]

/-- One special token, cut out of every raw fragment. -/
def cutEvery (vocab : Vocab) (fragments : List Fragment) (special : Special) : List Fragment :=
  match vocab.piece special.id with
  | [] => fragments
  | lead :: tail => fragments.flatMap (cutFragment special lead tail)

def splitSpecials (t : Tokenizer K) (text : List Char) : List Fragment :=
  t.specials.foldl (cutEvery t.vocab) (rawOf text)

/-- What a fragment spells. -/
def Fragment.spelled (vocab : Vocab) : Fragment → List Char
  | raw text => text
  | special id => vocab.piece id

theorem mem_rawOf {raw text : List Char} : Fragment.raw raw ∈ rawOf text ↔ raw = text ∧ text ≠ [] := by
  rw [rawOf]
  rcases text with _ | ⟨c, text⟩
  · simp
  · simp

theorem rawOf_spelled (vocab : Vocab) (text : List Char) : (rawOf text).flatMap (Fragment.spelled vocab) = text := by
  rw [rawOf]
  rcases text with _ | ⟨c, text⟩
  · rfl
  · simp [Fragment.spelled]

/-! ## One special token -/

section
variable {special : Special} {lead : Char} {tail : List Char}

theorem cut_none {rest : List Char} (h : Markers.find (lead :: tail) rest = none) : cut special lead tail rest = rawOf rest := by
  rw [cut]
  split
  · rfl
  · rename_i pos hpos
    cases h.symm.trans hpos

def afterCut (special : Special) (spelling rest : List Char) (pos : Nat) : List Char :=
  if special.rstrip then (rest.drop (pos + spelling.length)).dropWhile isCSpace else rest.drop (pos + spelling.length)

def beforeCut (special : Special) (rest : List Char) (pos : Nat) : List Char :=
  if special.lstrip then (rest.take pos).rdropWhile isCSpace else rest.take pos

theorem cut_some {rest : List Char} {pos : Nat} (h : Markers.find (lead :: tail) rest = some pos) :
    cut special lead tail rest =
      rawOf (beforeCut special rest pos) ++ .special special.id :: cut special lead tail (afterCut special (lead :: tail) rest pos) := by
  rw [cut]
  split
  · rename_i hnone
    cases h.symm.trans hnone
  · rename_i pos' hpos
    obtain rfl := Option.some.inj (h.symm.trans hpos)
    rfl

theorem beforeCut_prefix (special : Special) (rest : List Char) (pos : Nat) : beforeCut special rest pos <+: rest.take pos := by
  rw [beforeCut]
  split_ifs
  · exact List.rdropWhile_prefix _ _
  · exact List.prefix_refl _

theorem afterCut_suffix (special : Special) (spelling rest : List Char) (pos : Nat) : afterCut special spelling rest pos <:+ rest := by
  rw [afterCut]
  split_ifs
  · exact (List.dropWhile_suffix _).trans (List.drop_suffix _ _)
  · exact List.drop_suffix _ _

theorem length_afterCut {rest : List Char} {pos : Nat} (h : Markers.find (lead :: tail) rest = some pos) :
    (afterCut special (lead :: tail) rest pos).length < rest.length := by
  have hat := (Markers.find_eq_some_iff.mp h).1.length_le
  have hafter : (rest.drop (pos + (lead :: tail).length)).length < rest.length := by
    rw [List.length_drop]
    simp only [List.length_cons] at hat ⊢
    omega
  rw [afterCut]
  split_ifs
  · exact Nat.lt_of_le_of_lt (List.dropWhile_suffix _).length_le hafter
  · exact hafter

theorem not_infix_take {spelling rest : List Char} {pos : Nat} (hne : spelling ≠ []) (h : Markers.find spelling rest = some pos) :
    ¬ spelling <:+: rest.take pos := by
  rintro ⟨before, behind, heq⟩
  obtain ⟨hat, hearlier⟩ := Markers.find_eq_some_iff.mp h
  have hlength := congrArg List.length heq
  rw [List.length_append, List.length_append, List.length_take] at hlength
  have hpos := List.length_pos_iff.mpr hne
  apply hearlier before.length (by omega)
  refine ⟨by omega, behind ++ rest.drop pos, ?_⟩
  calc spelling ++ (behind ++ rest.drop pos)
    _ = (before ++ (spelling ++ (behind ++ rest.drop pos))).drop before.length := by rw [List.drop_left]
    _ = (rest.take pos ++ rest.drop pos).drop before.length := by rw [← heq, List.append_assoc, List.append_assoc]
    _ = rest.drop before.length := by rw [List.take_append_drop]

/-- **What is left around a special token** is not empty, is part of the text and does not spell it. -/
theorem cut_raw {raw rest : List Char} (h : Fragment.raw raw ∈ cut special lead tail rest) :
    raw ≠ [] ∧ raw <:+: rest ∧ ¬ (lead :: tail) <:+: raw := by
  induction hlength : rest.length using Nat.strongRecOn generalizing rest with
  | ind n ih =>
    rcases hfind : Markers.find (lead :: tail) rest with _ | pos
    · rw [cut_none hfind, mem_rawOf] at h
      obtain ⟨rfl, hne⟩ := h
      exact ⟨hne, List.infix_refl _, Markers.find_eq_none_iff_infix.mp hfind⟩
    · rw [cut_some hfind, List.mem_append, mem_rawOf, List.mem_cons] at h
      rcases h with ⟨rfl, hne⟩ | heq | h
      · have hbefore := beforeCut_prefix special rest pos
        refine ⟨hne, (hbefore.trans (List.take_prefix _ _)).isInfix, fun hin => ?_⟩
        exact not_infix_take (List.cons_ne_nil _ _) hfind (hin.trans hbefore.isInfix)
      · cases heq
      · obtain ⟨hne, hin, hnot⟩ := ih _ (hlength ▸ length_afterCut hfind) h rfl
        exact ⟨hne, hin.trans (afterCut_suffix special _ rest pos).isInfix, hnot⟩

theorem cut_spelled {vocab : Vocab} (hpiece : vocab.piece special.id = lead :: tail) (hl : special.lstrip = false)
    (hr : special.rstrip = false) (rest : List Char) :
    (cut special lead tail rest).flatMap (Fragment.spelled vocab) = rest := by
  induction hlength : rest.length using Nat.strongRecOn generalizing rest with
  | ind n ih =>
    rcases hfind : Markers.find (lead :: tail) rest with _ | pos
    · rw [cut_none hfind, rawOf_spelled]
    · have hrest := ih _ (hlength ▸ length_afterCut hfind) (afterCut special (lead :: tail) rest pos) rfl
      obtain ⟨hat, _⟩ := Markers.find_eq_some_iff.mp hfind
      obtain ⟨behind, hbehind⟩ := hat.2
      have hafter : afterCut special (lead :: tail) rest pos = behind := by
        rw [afterCut, hr, if_neg Bool.false_ne_true, ← List.drop_drop, ← hbehind, List.drop_left]
      have hbefore : beforeCut special rest pos = rest.take pos := by rw [beforeCut, hl, if_neg Bool.false_ne_true]
      rw [cut_some hfind, List.flatMap_append, rawOf_spelled, List.flatMap_cons, hrest, hafter, hbefore, Fragment.spelled, hpiece,
        hbehind, List.take_append_drop]

end

/-! ## All special tokens -/

/-- The fragments of a text around the special tokens that were tried. -/
structure Splits (vocab : Vocab) (text : List Char) (tried : List Special) (fragments : List Fragment) : Prop where
  filled : ∀ raw, .raw raw ∈ fragments → raw ≠ []
  part : ∀ raw, .raw raw ∈ fragments → raw <:+: text
  free : ∀ raw, .raw raw ∈ fragments → ∀ special ∈ tried, vocab.piece special.id ≠ [] → ¬ vocab.piece special.id <:+: raw

theorem splits_rawOf (vocab : Vocab) (text : List Char) : Splits vocab text [] (rawOf text) where
  filled _ h := (mem_rawOf.mp h).1 ▸ (mem_rawOf.mp h).2
  part _ h := (mem_rawOf.mp h).1 ▸ List.infix_refl _
  free _ _ _ h := absurd h List.not_mem_nil

theorem mem_flatMap_raw {raw : List Char} {fragments : List Fragment} {special : Special} {lead : Char} {tail : List Char}
    (h : .raw raw ∈ fragments.flatMap (cutFragment special lead tail)) :
    ∃ rest, .raw rest ∈ fragments ∧ .raw raw ∈ cut special lead tail rest := by
  obtain ⟨fragment, hmem, hraw⟩ := List.mem_flatMap.mp h
  cases fragment with
  | raw rest => exact ⟨rest, hmem, hraw⟩
  | special id => simp [cutFragment] at hraw

theorem cutEvery_splits {vocab : Vocab} {text : List Char} {tried : List Special} {fragments : List Fragment}
    (h : Splits vocab text tried fragments) (special : Special) :
    Splits vocab text (tried ++ [special]) (cutEvery vocab fragments special) := by
  rw [cutEvery]
  rcases hpiece : vocab.piece special.id with _ | ⟨lead, tail⟩
  · refine ⟨h.filled, h.part, fun raw hraw other hother hne => ?_⟩
    rcases List.mem_append.mp hother with hother | hother
    · exact h.free raw hraw other hother hne
    · rw [List.mem_singleton.mp hother] at hne
      exact absurd hpiece hne
  · dsimp only
    refine ⟨fun raw hraw => ?_, fun raw hraw => ?_, fun raw hraw other hother hne => ?_⟩
    all_goals
      obtain ⟨rest, hrest, hcut⟩ := mem_flatMap_raw hraw
      obtain ⟨hfilled, hin, hnot⟩ := cut_raw hcut
    · exact hfilled
    · exact hin.trans (h.part rest hrest)
    · rcases List.mem_append.mp hother with hother | hother
      · exact fun hspelled => h.free rest hrest other hother hne (hspelled.trans hin)
      · rw [List.mem_singleton.mp hother, hpiece]
        exact hnot

theorem mayOccur_of_infix {bytes special : List UInt8} (hne : special ≠ []) (h : special <:+: bytes) : mayOccur bytes special = true := by
  rcases special with _ | ⟨lead, _ | ⟨second, rest⟩⟩
  · exact absurd rfl hne
  · rw [mayOccur, decide_eq_true_eq]
    exact h.subset List.mem_cons_self
  · obtain ⟨before, behind, rfl⟩ := h
    have hpair : (lead, second) ∈ (before ++ lead :: second :: (rest ++ behind)).zip (before ++ lead :: second :: (rest ++ behind)).tail := by
      induction before with
      | nil => exact List.mem_cons_self
      | cons b before ih =>
        rcases before with _ | ⟨b', before⟩
        · exact List.mem_cons_of_mem _ List.mem_cons_self
        · exact List.mem_cons_of_mem _ ih
    have hbytes : before ++ (lead :: second :: rest) ++ behind = before ++ lead :: second :: (rest ++ behind) := by
      rw [List.append_assoc, List.cons_append, List.cons_append]
    rw [mayOccur, hbytes, Bool.and_eq_true, decide_eq_true_eq, decide_eq_true_eq]
    exact ⟨List.mem_append_right _ List.mem_cons_self, hpair⟩

theorem infix_utf8 {a b : List Char} (h : a <:+: b) : utf8 a <:+: utf8 b := by
  obtain ⟨before, behind, rfl⟩ := h
  refine ⟨utf8 before, utf8 behind, ?_⟩
  rw [utf8, utf8, utf8, utf8, List.flatMap_append, List.flatMap_append]

theorem utf8_ne_nil {text : List Char} (h : text ≠ []) : utf8 text ≠ [] := by
  rcases text with _ | ⟨c, text⟩
  · exact absurd rfl h
  · rw [utf8, List.flatMap_cons]
    exact List.append_ne_nil_of_left_ne_nil String.utf8EncodeChar_ne_nil _

theorem flatMap_cut_eq {fragments : List Fragment} {special : Special} {lead : Char} {tail : List Char}
    (hfilled : ∀ raw, .raw raw ∈ fragments → raw ≠ []) (hnone : ∀ raw, .raw raw ∈ fragments → Markers.find (lead :: tail) raw = none) :
    fragments.flatMap (cutFragment special lead tail) = fragments := by
  induction fragments with
  | nil => rfl
  | cons fragment fragments ih =>
    rw [List.flatMap_cons, ih (fun raw hraw => hfilled raw (List.mem_cons_of_mem _ hraw))
      fun raw hraw => hnone raw (List.mem_cons_of_mem _ hraw)]
    cases fragment with
    | raw rest =>
      rw [cutFragment, cut_none (hnone rest List.mem_cons_self), rawOf, if_neg (by simpa using hfilled rest List.mem_cons_self)]
      rfl
    | special id => rfl

/-- **The prefilter** leaves out nothing that occurs. -/
theorem cutAll_eq {vocab : Vocab} {text : List Char} {tried : List Special} {fragments : List Fragment}
    (h : Splits vocab text tried fragments) (special : Special) :
    cutAll vocab (utf8 text) fragments special = cutEvery vocab fragments special := by
  rw [cutAll, cutEvery]
  rcases vocab.piece special.id with _ | ⟨lead, tail⟩
  · rfl
  · dsimp only
    split_ifs with hmay hany
    · symm
      apply flatMap_cut_eq h.filled
      intro raw hraw
      apply Markers.find_eq_none_iff_infix.mpr
      intro hin
      have hoccurs := mayOccur_of_infix (utf8_ne_nil (List.cons_ne_nil lead tail)) (infix_utf8 (hin.trans (h.part raw hraw)))
      rw [hoccurs] at hmay
      exact absurd hmay (by decide)
    · symm
      apply flatMap_cut_eq h.filled
      intro raw hraw
      have hnot : ¬ (Markers.find (lead :: tail) raw).isSome = true := by
        intro hsome
        simp only [Bool.not_eq_true', List.any_eq_false] at hany
        exact hany (.raw raw) hraw hsome
      exact Option.not_isSome_iff_eq_none.mp hnot
    · rfl

theorem foldl_cutAll {vocab : Vocab} {text : List Char} {specials tried : List Special} {fragments : List Fragment}
    (h : Splits vocab text tried fragments) :
    specials.foldl (cutAll vocab (utf8 text)) fragments = specials.foldl (cutEvery vocab) fragments ∧
      Splits vocab text (tried ++ specials) (specials.foldl (cutEvery vocab) fragments) := by
  induction specials generalizing tried fragments with
  | nil => exact ⟨rfl, by rw [List.append_nil]; exact h⟩
  | cons special specials ih =>
    obtain ⟨heq, hsplits⟩ := ih (cutEvery_splits h special)
    rw [List.foldl_cons, List.foldl_cons, cutAll_eq h special]
    refine ⟨heq, ?_⟩
    rw [List.append_assoc, List.singleton_append] at hsplits
    exact hsplits

theorem foldl_cutEvery_spelled {vocab : Vocab} {specials : List Special}
    (hplain : ∀ special ∈ specials, special.lstrip = false ∧ special.rstrip = false) (fragments : List Fragment) :
    (specials.foldl (cutEvery vocab) fragments).flatMap (Fragment.spelled vocab) = fragments.flatMap (Fragment.spelled vocab) := by
  induction specials generalizing fragments with
  | nil => rfl
  | cons special specials ih =>
    obtain ⟨hl, hr⟩ := hplain special List.mem_cons_self
    rw [List.foldl_cons, ih fun other hother => hplain other (List.mem_cons_of_mem _ hother), cutEvery]
    rcases hpiece : vocab.piece special.id with _ | ⟨lead, tail⟩
    · rfl
    · dsimp only
      rw [List.flatMap_assoc]
      congr 1
      funext fragment
      cases fragment with
      | raw rest => exact cut_spelled hpiece hl hr rest
      | special id => exact List.flatMap_singleton _ _

theorem partitionSpecials_eq_foldl (t : Tokenizer K) (text : List Char) :
    t.partitionSpecials text = t.specials.foldl (cutAll t.vocab (utf8 text)) (rawOf text) := by
  rw [partitionSpecials, rawOf]
  split_ifs
  · have hnone : ∀ specials : List Special, specials.foldl (cutAll t.vocab (utf8 text)) [] = [] := by
      intro specials
      induction specials with
      | nil => rfl
      | cons special specials ih =>
        have hcut : cutAll t.vocab (utf8 text) [] special = [] := by
          rw [cutAll]
          rcases t.vocab.piece special.id with _ | ⟨lead, tail⟩
          · rfl
          · dsimp only
            split_ifs <;> rfl
        rw [List.foldl_cons, hcut, ih]
    exact (hnone _).symm
  · rfl

/-! ## Tokenizers -/

theorem assemble_specials (vocab : Vocab) (engine : Engine K) (rstrip : Bool) :
    (assemble vocab engine rstrip).specials.Pairwise
        (fun a b => (utf8 (vocab.piece b.id)).length ≤ (utf8 (vocab.piece a.id)).length) ∧
      ∀ special ∈ (assemble vocab engine rstrip).specials, vocab.piece special.id ≠ [] := by
  constructor
  · have hsorted := @List.pairwise_mergeSort Special (fun a b =>
        (utf8 (vocab.piece b.id)).length < (utf8 (vocab.piece a.id)).length ||
          ((utf8 (vocab.piece a.id)).length == (utf8 (vocab.piece b.id)).length && a.id ≤ b.id))
      (fun a b c hab hbc => by
        simp only [Bool.or_eq_true, Bool.and_eq_true, decide_eq_true_eq, beq_iff_eq] at hab hbc ⊢
        omega)
      (fun a b => by
        simp only [Bool.or_eq_true, Bool.and_eq_true, decide_eq_true_eq, beq_iff_eq]
        omega)
    apply (hsorted _).imp
    intro a b hle
    simp only [Bool.or_eq_true, Bool.and_eq_true, decide_eq_true_eq, beq_iff_eq] at hle
    omega
  · intro special hspecial
    obtain ⟨id, hid, rfl⟩ := List.mem_map.mp (List.mem_mergeSort.mp hspecial)
    have hpiece := (Bool.and_eq_true_iff.mp (List.mem_filter.mp hid).2).1
    simpa using hpiece

/-- **Special tokens are found whatever the prefilter leaves out.** The fragments are those around every special token, tried one
after the other on every fragment that is still raw; they spell the text where nothing is stripped, and none that is left raw
spells a special token. Tokenizers try the longest first. -/
theorem partitionSpecials_split (t : Tokenizer K) (text : List Char) :
    t.partitionSpecials text = t.splitSpecials text ∧
      ((∀ special ∈ t.specials, special.lstrip = false ∧ special.rstrip = false) →
        (t.partitionSpecials text).flatMap (Fragment.spelled t.vocab) = text) ∧
      (∀ raw, .raw raw ∈ t.partitionSpecials text → ∀ special ∈ t.specials, t.vocab.piece special.id ≠ [] →
        ¬ t.vocab.piece special.id <:+: raw) ∧
      ∀ vocab engine rstrip, t = assemble vocab engine rstrip →
        t.specials.Pairwise (fun a b => (utf8 (t.vocab.piece b.id)).length ≤ (utf8 (t.vocab.piece a.id)).length) ∧
          ∀ special ∈ t.specials, t.vocab.piece special.id ≠ [] := by
  obtain ⟨heq, hsplits⟩ := @foldl_cutAll _ _ t.specials _ _ (splits_rawOf t.vocab text)
  have hpartition : t.partitionSpecials text = t.splitSpecials text := by rw [partitionSpecials_eq_foldl, heq, splitSpecials]
  refine ⟨hpartition, fun hplain => ?_, ?_, ?_⟩
  · rw [hpartition, splitSpecials, foldl_cutEvery_spelled hplain, rawOf_spelled]
  · rw [hpartition]
    exact hsplits.free
  · rintro vocab engine rstrip rfl
    exact assemble_specials vocab engine rstrip

end Cuca.Local.Tokenizer
