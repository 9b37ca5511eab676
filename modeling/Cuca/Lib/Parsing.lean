import Cuca.Lib.Markers
import Cuca.Lib.Offsets
import Mathlib.Data.List.TakeWhile

/-!
# Parsers at a byte offset

A parser reads a text from a byte offset on, and errs or goes on at a later one. A slice that does not end at a character panics:
the run has no outcome at all.

* `Parser`, `restOf`, `peek`, `skipWhile`, `sliceTo` : what a parser is made of;
* `findChar`, `findText` : the byte offset of a character of a class, and of a text;
* `Yields` : from a text, the parser gives this value and leaves that text;
* `Sound` : from a text, it does not panic, and what it gives is as stated.
-/

namespace Parsing
open Offsets

abbrev Parser (α : Type) := StateT Nat (ExceptT String Option) α

variable {α β : Type} {src s s' s'' : List Char}

def outcome (p : Parser α) (pos : Nat) : Option (Except String (α × Nat)) := (p.run pos).run

def panics : Parser α := fun _ => (none : Option (Except String (α × Nat)))

/-- A slice, where it begins and ends at characters. -/
def sliced : Option (List Char) → Parser (List Char)
  | some rest => return rest
  | none => panics

def restOf (src : List Char) : Parser (List Char) := do sliced (fromOffset src (← get))

def peek (src : List Char) : Parser (Option Char) := do return (← restOf src).head?

def advance (n : Nat) : Parser Unit := modify (· + n)

def skipWhile (src : List Char) (p : Char → Bool) : Parser Unit := do
  let rest ← restOf src
  set (size src - size (rest.dropWhile p))

def sliceTo (s : List Char) (n : Nat) : Parser (List Char) := sliced (upTo s n)

def findChar (p : Char → Bool) (s : List Char) : Option Nat := if s.any p then some (size (s.takeWhile fun c => !p c)) else none

def findText (marker s : List Char) : Option Nat := (Markers.find marker s).map fun i => size (s.take i)

/-! ## Runs -/

/-- From `s` on, the parser gives `a` and leaves `s'`. -/
def Yields (src s : List Char) (p : Parser α) (a : α) (s' : List Char) : Prop :=
  ∀ pos, At src pos s → ∃ pos', outcome p pos = some (.ok (a, pos')) ∧ At src pos' s'

/-- From `s` on, the parser does not panic, and where it gives something that is as stated. -/
def Sound (src s : List Char) (p : Parser α) (post : α → List Char → Prop) : Prop :=
  ∀ pos, At src pos s → ∃ r, outcome p pos = some r ∧ ∀ a pos', r = .ok (a, pos') → ∃ s', At src pos' s' ∧ post a s'

variable {f : α → Parser β}

theorem outcome_bind_ok {p : Parser α} {a : α} {pos pos' : Nat} (h : outcome p pos = some (.ok (a, pos'))) :
    outcome (p >>= f) pos = outcome (f a) pos' := by
  rw [outcome] at h
  rw [outcome, StateT.run_bind, ExceptT.run_bind, h]
  rfl

theorem outcome_bind_error {p : Parser α} {e : String} {pos : Nat} (h : outcome p pos = some (.error e)) :
    outcome (p >>= f) pos = some (.error e) := by
  rw [outcome] at h
  rw [outcome, StateT.run_bind, ExceptT.run_bind, h]
  rfl

theorem Yields.pure (a : α) : Yields src s (pure a) a s := fun pos h => ⟨pos, rfl, h⟩

theorem Yields.bind {p : Parser α} {a : α} {b : β} (hp : Yields src s p a s') (hf : Yields src s' (f a) b s'') :
    Yields src s (p >>= f) b s'' := by
  intro pos hat
  obtain ⟨pos', hrun, hat'⟩ := hp pos hat
  obtain ⟨pos'', hrun', hat''⟩ := hf pos' hat'
  refine ⟨pos'', ?_, hat''⟩
  rw [outcome_bind_ok hrun]
  exact hrun'

theorem Yields.restOf (src s : List Char) : Yields src s (restOf src) s s := by
  intro pos h
  refine ⟨pos, ?_, h⟩
  have hget : outcome (Parsing.restOf src) pos = outcome (sliced (fromOffset src pos)) pos := rfl
  rw [hget, h.fromOffset]
  rfl

theorem Yields.peek (src s : List Char) : Yields src s (peek src) s.head? s := (Yields.restOf src s).bind (.pure _)

theorem Yields.advance {a b : List Char} {n : Nat} (hn : n = size a) : Yields src (a ++ b) (advance n) () b :=
  fun pos h => ⟨pos + n, rfl, hn ▸ h.advance⟩

theorem Yields.get {f : Nat → Parser α} {a : α} (h : ∀ pos, Yields src s (f pos) a s') : Yields src s (get >>= f) a s' :=
  fun pos hat => h pos pos hat

theorem Yields.skipWhile (src s : List Char) (p : Char → Bool) : Yields src s (skipWhile src p) () (s.dropWhile p) := by
  refine (Yields.restOf src s).bind fun pos h => ?_
  have hat : At src (pos + size (s.takeWhile p)) (s.dropWhile p) := At.advance (by rwa [List.takeWhile_append_dropWhile])
  have hsize := hat.size_eq
  have hpos : size src - size (s.dropWhile p) = pos + size (s.takeWhile p) := by omega
  exact ⟨size src - size (s.dropWhile p), rfl, hpos ▸ hat⟩

theorem Yields.sliceTo {a b : List Char} {n : Nat} (hn : n = size a) : Yields src s (sliceTo (a ++ b) n) a s := by
  rw [hn, Parsing.sliceTo, upTo_append]
  exact .pure a

theorem Yields.sound {p : Parser α} {a : α} {post : α → List Char → Prop} (h : Yields src s p a s') (hpost : post a s') :
    Sound src s p post := by
  intro pos hat
  obtain ⟨pos', hrun, hat'⟩ := h pos hat
  refine ⟨_, hrun, ?_⟩
  rintro b pos'' ⟨rfl, rfl⟩
  exact ⟨s', hat', hpost⟩

theorem Sound.throw (e : String) {post : α → List Char → Prop} : Sound src s (throw e) post :=
  fun _ _ => ⟨.error e, rfl, fun _ _ h => by cases h⟩

theorem Sound.bind {p : Parser α} {mid : α → List Char → Prop} {post : β → List Char → Prop}
    (hp : Sound src s p mid) (hf : ∀ a s', mid a s' → Sound src s' (f a) post) : Sound src s (p >>= f) post := by
  intro pos hat
  obtain ⟨r, hrun, hmid⟩ := hp pos hat
  rcases r with e | ⟨a, pos'⟩
  · exact ⟨.error e, outcome_bind_error hrun, fun _ _ h => by cases h⟩
  · obtain ⟨s', hat', ha⟩ := hmid a pos' rfl
    rw [outcome_bind_ok hrun]
    exact hf a s' ha pos' hat'

theorem Yields.sound_bind {p : Parser α} {a : α} {post : β → List Char → Prop} (hp : Yields src s p a s')
    (hf : Sound src s' (f a) post) : Sound src s (p >>= f) post := by
  have hsame : Sound src s p fun b t => b = a ∧ t = s' := hp.sound ⟨rfl, rfl⟩
  refine hsame.bind ?_
  rintro _ _ ⟨rfl, rfl⟩
  exact hf

theorem Sound.get {f : Nat → Parser α} {post : α → List Char → Prop} (h : ∀ pos, Sound src s (f pos) post) :
    Sound src s (get >>= f) post := fun pos hat => h pos pos hat

theorem Sound.weaken {p : Parser α} {post post' : α → List Char → Prop} (h : Sound src s p post)
    (hpost : ∀ a s', post a s' → post' a s') : Sound src s p post' := by
  intro pos hat
  obtain ⟨r, hrun, hr⟩ := h pos hat
  refine ⟨r, hrun, fun a pos' heq => ?_⟩
  obtain ⟨s', hat', ha⟩ := hr a pos' heq
  exact ⟨s', hat', hpost a s' ha⟩

/-! ## Finding -/

theorem findChar_eq_some {p : Char → Bool} {n : Nat} (h : findChar p s = some n) :
    ∃ a c b, s = a ++ c :: b ∧ (∀ x ∈ a, p x = false) ∧ p c = true ∧ n = size a := by
  rw [findChar] at h
  split at h
  case isFalse => cases h
  case isTrue hany =>
    obtain rfl := Option.some.inj h
    rcases hdrop : s.dropWhile (fun c => !p c) with _ | ⟨c, b⟩
    · obtain ⟨c, hc, hp⟩ := List.any_eq_true.mp hany
      have hall := List.dropWhile_eq_nil_iff.mp hdrop c hc
      rw [hp] at hall
      cases hall
    · refine ⟨s.takeWhile fun c => !p c, c, b, ?_, ?_, ?_, rfl⟩
      · rw [← hdrop, List.takeWhile_append_dropWhile]
      · intro x hx
        have hneg := List.mem_takeWhile_imp hx
        rwa [Bool.not_eq_true'] at hneg
      · have hhead := List.head_dropWhile_not (fun c => !p c) (l := s) (by rw [hdrop]; exact List.cons_ne_nil _ _)
        simpa [hdrop] using hhead

theorem findChar_append {p : Char → Bool} {a : List Char} {c : Char} {b : List Char} (ha : ∀ x ∈ a, p x = false) (hc : p c = true) :
    findChar p (a ++ c :: b) = some (size a) := by
  have htake : (a ++ c :: b).takeWhile (fun x => !p x) = a := by
    rw [List.takeWhile_append_of_pos fun x hx => by rw [ha x hx]; rfl, List.takeWhile_cons_of_neg (by simp [hc]), List.append_nil]
  rw [findChar, if_pos, htake]
  simp [hc]

theorem findText_eq_some {marker : List Char} {n : Nat} (h : findText marker s = some n) :
    ∃ a b, s = a ++ marker ++ b ∧ n = size a := by
  obtain ⟨i, hi, rfl⟩ := Option.map_eq_some_iff.mp h
  obtain ⟨b, hb⟩ := (Markers.find_eq_some_iff.mp hi).1.2
  exact ⟨s.take i, b, by rw [List.append_assoc, hb, List.take_append_drop], rfl⟩

theorem findText_append {marker a : List Char} (hown : ∀ k < marker.length, 0 < k → ¬ marker.drop k <+: marker)
    (ha : ¬ marker <:+: a) (b : List Char) : findText marker (a ++ marker ++ b) = some (size a) := by
  have hfind : Markers.find marker (a ++ marker ++ b) = some a.length := by
    rw [Markers.find_eq_some_iff]
    constructor
    · refine ⟨by simp only [List.length_append]; omega, ?_⟩
      rw [List.append_assoc, List.drop_left]
      exact List.prefix_append _ _
    · intro j hj hat
      by_cases hend : j + marker.length ≤ a.length
      · obtain ⟨c, hc⟩ := ((List.append_assoc a marker b ▸ hat).of_append hend).2
        exact ha ⟨a.take j, c, by rw [List.append_assoc, hc, List.take_append_drop]⟩
      · -- the end of the one stands where the other begins
        have hdrop := hat.2.drop (a.length - j)
        rw [List.drop_drop, Nat.add_sub_cancel' (Nat.le_of_lt hj), List.append_assoc, List.drop_left] at hdrop
        refine hown (a.length - j) (by omega) (by omega) ?_
        exact List.prefix_of_prefix_length_le hdrop (List.prefix_append _ _) (by rw [List.length_drop]; omega)
  rw [findText, hfind, Option.map_some, List.append_assoc, List.take_left]

end Parsing
