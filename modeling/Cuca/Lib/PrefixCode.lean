import Mathlib.Data.List.Forall2

/-!
# Encodings that can be read from the front

`Delimits r encode`: where the encodings of `a` and `b`, each with something behind it, are the same text, `a` and `b` are
related and what is behind them is the same. For equality this says that the code is a prefix code; other relations allow
an encoding to forget.

* `Delimits.append`, `Delimits.comap`, `Delimits.imp` : structures;
* `delimits_flatMap` : sequences of a known length;
* `delimits_words` : words of which none begins another;
* `Delimits.injective` : what is read determines what was written.
-/

namespace PrefixCode

variable {α β γ σ : Type*}

def Delimits (r : α → α → Prop) (encode : α → List σ) : Prop :=
  ∀ a b x y, encode a ++ x = encode b ++ y → r a b ∧ x = y

variable {r : α → α → Prop} {encode : α → List σ}

theorem Delimits.injective (h : Delimits r encode) {a b : α} (heq : encode a = encode b) : r a b :=
  (h a b [] [] (by rw [heq])).1

theorem Delimits.imp {r' : α → α → Prop} (h : Delimits r encode) (himp : ∀ a b, r a b → r' a b) :
    Delimits r' encode := fun a b x y heq => ⟨himp a b (h a b x y heq).1, (h a b x y heq).2⟩

theorem Delimits.comap (h : Delimits r encode) (f : β → α) :
    Delimits (fun a b => r (f a) (f b)) fun a => encode (f a) := fun a b x y heq => h (f a) (f b) x y heq

theorem Delimits.append {r' : α → α → Prop} {encode' : α → List σ} (h : Delimits r encode) (h' : Delimits r' encode') :
    Delimits (fun a b => r a b ∧ r' a b) fun a => encode a ++ encode' a := by
  intro a b x y heq
  rw [List.append_assoc, List.append_assoc] at heq
  obtain ⟨hfirst, hrest⟩ := h a b _ _ heq
  obtain ⟨hsecond, hend⟩ := h' a b x y hrest
  exact ⟨⟨hfirst, hsecond⟩, hend⟩

theorem flatMap_determines (as : List α) (hread : ∀ a ∈ as, ∀ b x y, encode a ++ x = encode b ++ y → r a b ∧ x = y) (bs : List α)
    (x y : List σ) (hlength : as.length = bs.length) (heq : as.flatMap encode ++ x = bs.flatMap encode ++ y) :
    List.Forall₂ r as bs ∧ x = y := by
  induction as generalizing bs with
  | nil =>
    rw [List.eq_nil_of_length_eq_zero hlength.symm] at heq ⊢
    exact ⟨.nil, heq⟩
  | cons a as ih =>
    cases bs with
    | nil => cases hlength
    | cons b bs =>
      rw [List.flatMap_cons, List.flatMap_cons, List.append_assoc, List.append_assoc] at heq
      obtain ⟨hfirst, hrest⟩ := hread a List.mem_cons_self b _ _ heq
      obtain ⟨hothers, hend⟩ := ih (fun a' ha' => hread a' (List.mem_cons_of_mem _ ha')) bs (Nat.succ.inj hlength) hrest
      exact ⟨.cons hfirst hothers, hend⟩

theorem delimits_flatMap (h : Delimits r encode) (as bs : List α) (x y : List σ) (hlength : as.length = bs.length)
    (heq : as.flatMap encode ++ x = bs.flatMap encode ++ y) : List.Forall₂ r as bs ∧ x = y :=
  flatMap_determines as (fun a _ b x y => h a b x y) bs x y hlength heq

theorem delimits_words {words : List (List σ)} (hfree : ∀ v ∈ words, ∀ w ∈ words, v <+: w → v = w) (hencode : ∀ a, encode a ∈ words)
    (hinjective : ∀ a b, encode a = encode b → r a b) : Delimits r encode := by
  intro a b x y heq
  have hsame : encode a = encode b := by
    have ha : encode a <+: encode b ++ y := ⟨x, heq⟩
    rcases List.prefix_or_prefix_of_prefix ha (List.prefix_append _ _) with h | h
    · exact hfree _ (hencode a) _ (hencode b) h
    · exact (hfree _ (hencode b) _ (hencode a) h).symm
  rw [hsame] at heq
  exact ⟨hinjective a b hsame, List.append_cancel_left heq⟩

theorem delimits_of_length (hinjective : ∀ a b, encode a = encode b → r a b)
    (hlength : ∀ a b, (encode a).length = (encode b).length) : Delimits r encode := by
  intro a b x y heq
  obtain ⟨hword, hend⟩ := List.append_inj heq (hlength a b)
  exact ⟨hinjective a b hword, hend⟩

end PrefixCode
