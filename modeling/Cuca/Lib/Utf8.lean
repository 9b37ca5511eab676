import Mathlib.Data.List.Basic

/-!
# UTF-8, in pieces

Bytes are decoded from left to right. At each place there is a character, a sequence that no character begins with, or the beginning
of a character that the bytes end in.

* `next`, `lossy` : what comes next, and the text with U+FFFD for each bad sequence;
* `valid`, `settled` : the characters up to a bad sequence, and the text up to an incomplete character;
* `lossy_append` : bytes that come later only see the incomplete character;
* `valid_split` : a cut between characters is a cut of the bytes.
-/

namespace Utf8

def isContinuation (b : UInt8) : Bool := 0x80 ≤ b && b ≤ 0xBF

/-- What the bytes begin with: a character or a bad sequence of so many bytes, a character that is not complete, or nothing. -/
inductive Next where
  | char (c : Char) (n : Nat)
  | invalid (n : Nat)
  | incomplete
  | done
  deriving DecidableEq

/-- How many bytes follow this first byte. -/
def followers (b0 : UInt8) : Option Nat :=
  if b0 < 0x80 then some 0
  else if 0xC2 ≤ b0 && b0 ≤ 0xDF then some 1
  else if 0xE0 ≤ b0 && b0 ≤ 0xEF then some 2
  else if 0xF0 ≤ b0 && b0 ≤ 0xF4 then some 3
  else none

def lead (b0 : UInt8) : Nat :=
  if b0 < 0x80 then b0.toNat else if b0 < 0xE0 then b0.toNat % 32 else if b0 < 0xF0 then b0.toNat % 16 else b0.toNat % 8

def second (b0 b1 : UInt8) : Bool :=
  (b0 != 0xE0 || 0xA0 ≤ b1) && (b0 != 0xED || b1 ≤ 0x9F) && (b0 != 0xF0 || 0x90 ≤ b1) && (b0 != 0xF4 || b1 ≤ 0x8F)

/-- The bytes behind the first one, of which so many are to follow and so many are taken. -/
def follow (b0 : UInt8) : Nat → Nat → Nat → List UInt8 → Next
  | 0, taken, code, _ => .char (Char.ofNat code) taken
  | _ + 1, _, _, [] => .incomplete
  | k + 1, taken, code, b :: rest =>
    if isContinuation b && (taken != 1 || second b0 b) then follow b0 k (taken + 1) (code * 64 + b.toNat % 64) rest
    else .invalid taken

def next : List UInt8 → Next
  | [] => .done
  | b0 :: rest =>
    match followers b0 with
    | none => .invalid 1
    | some k => follow b0 k 1 (lead b0) rest

/-- How many bytes that is, for a character or a bad sequence. -/
def Next.length? : Next → Option Nat
  | .char _ n => some n
  | .invalid n => some n
  | .incomplete => none
  | .done => none

theorem follow_length (b0 : UInt8) (k taken code : Nat) (rest : List UInt8) {n : Nat}
    (h : (follow b0 k taken code rest).length? = some n) : taken ≤ n ∧ n ≤ taken + rest.length := by
  induction k generalizing taken code rest with
  | zero =>
    rw [follow] at h
    obtain rfl := Option.some.inj h
    exact ⟨Nat.le_refl _, Nat.le_add_right ..⟩
  | succ k ih =>
    rcases rest with _ | ⟨b, rest⟩
    · exact nomatch h
    · rw [follow] at h
      split at h
      · have hrest := ih _ _ rest h
        rw [List.length_cons]
        omega
      · obtain rfl := Option.some.inj h
        exact ⟨Nat.le_refl _, Nat.le_add_right ..⟩

theorem next_length {bytes : List UInt8} {n : Nat} (h : (next bytes).length? = some n) : 0 < n ∧ n ≤ bytes.length := by
  rcases bytes with _ | ⟨b0, rest⟩
  · exact nomatch h
  · rw [next] at h
    rw [List.length_cons]
    rcases hfollowers : followers b0 with _ | k
    · rw [hfollowers] at h
      obtain rfl := Option.some.inj h
      omega
    · rw [hfollowers] at h
      have hlength := follow_length b0 k 1 (lead b0) rest h
      omega

theorem follow_append (b0 : UInt8) (k taken code : Nat) (rest more : List UInt8)
    (h : follow b0 k taken code rest ≠ .incomplete) : follow b0 k taken code (rest ++ more) = follow b0 k taken code rest := by
  induction k generalizing taken code rest with
  | zero => rfl
  | succ k ih =>
    rcases rest with _ | ⟨b, rest⟩
    · exact absurd rfl h
    · rw [follow] at h
      rw [List.cons_append, follow, follow]
      by_cases hb : (isContinuation b && (taken != 1 || second b0 b)) = true
      · rw [if_pos hb] at h
        rw [if_pos hb, if_pos hb, ih _ _ rest h]
      · rw [if_neg hb, if_neg hb]

/-- **A character or a bad sequence** does not depend on what comes later. -/
theorem next_append {bytes : List UInt8} {n : Nat} (h : (next bytes).length? = some n) (more : List UInt8) :
    next (bytes ++ more) = next bytes := by
  rcases bytes with _ | ⟨b0, rest⟩
  · exact nomatch h
  · rw [next] at h
    rw [List.cons_append, next, next]
    rcases hfollowers : followers b0 with _ | k
    · rfl
    · rw [hfollowers] at h
      dsimp only at h ⊢
      apply follow_append
      intro hincomplete
      rw [hincomplete] at h
      exact nomatch h

theorem follow_take (b0 : UInt8) (k taken code : Nat) (rest : List UInt8) {c : Char} {n : Nat}
    (h : follow b0 k taken code rest = .char c n) : n = taken + k ∧ follow b0 k taken code (rest.take k) = .char c n := by
  induction k generalizing taken code rest with
  | zero =>
    rw [follow] at h
    obtain ⟨-, rfl⟩ := Next.char.inj h
    exact ⟨rfl, by rw [List.take_zero, follow]; exact h⟩
  | succ k ih =>
    rcases rest with _ | ⟨b, rest⟩
    · exact absurd h (by rw [follow]; exact Next.noConfusion)
    · rw [follow] at h
      rw [List.take_succ_cons, follow]
      split at h
      · rename_i hb
        obtain ⟨hn, hrest⟩ := ih _ _ rest h
        rw [if_pos hb]
        exact ⟨by omega, hrest⟩
      · exact absurd h Next.noConfusion

theorem next_take {bytes : List UInt8} {c : Char} {n : Nat} (h : next bytes = .char c n) : next (bytes.take n) = .char c n := by
  rcases bytes with _ | ⟨b0, rest⟩
  · exact absurd h Next.noConfusion
  · rw [next] at h
    rcases hfollowers : followers b0 with _ | k
    · rw [hfollowers] at h
      exact absurd h Next.noConfusion
    · rw [hfollowers] at h
      obtain ⟨rfl, hrest⟩ := follow_take b0 k 1 (lead b0) rest h
      rw [Nat.add_comm, List.take_succ_cons, next, hfollowers, Nat.add_comm]
      exact hrest

/-! ## Text -/

def replacement : Char := Char.ofNat 0xFFFD

/-- What stands for a character or a bad sequence. -/
def Next.text : Next → Char
  | .char c _ => c
  | _ => replacement

theorem drop_length_lt {bytes : List UInt8} {n : Nat} (h : (next bytes).length? = some n) : (bytes.drop n).length < bytes.length := by
  have hlength := next_length h
  rw [List.length_drop]
  omega

/-- The text of what is complete, and the bytes of a character that is not. -/
def settled (bytes : List UInt8) : List Char × List UInt8 :=
  match h : (next bytes).length? with
  | some n => ((next bytes).text :: (settled (bytes.drop n)).1, (settled (bytes.drop n)).2)
  | none => ([], bytes)
termination_by bytes.length
decreasing_by all_goals exact drop_length_lt h

/-- The text, with a replacement character for each bad sequence, and for a character that is not complete. -/
def lossy (bytes : List UInt8) : List Char :=
  match h : (next bytes).length? with
  | some n => (next bytes).text :: lossy (bytes.drop n)
  | none => if bytes.isEmpty then [] else [replacement]
termination_by bytes.length
decreasing_by exact drop_length_lt h

/-- The characters before the first bad sequence, and the bytes from it on. -/
def valid (bytes : List UInt8) : List Char × List UInt8 :=
  match h : next bytes with
  | .char c n => (c :: (valid (bytes.drop n)).1, (valid (bytes.drop n)).2)
  | _ => ([], bytes)
termination_by bytes.length
decreasing_by all_goals exact drop_length_lt (by rw [h]; rfl)

section
variable {bytes : List UInt8} {n : Nat}

theorem settled_some (h : (next bytes).length? = some n) :
    settled bytes = ((next bytes).text :: (settled (bytes.drop n)).1, (settled (bytes.drop n)).2) := by
  rw [settled]
  split
  · rename_i n' h'
    obtain rfl := Option.some.inj (h.symm.trans h')
    rfl
  · rename_i h'
    exact nomatch h.symm.trans h'

theorem settled_none (h : (next bytes).length? = none) : settled bytes = ([], bytes) := by
  rw [settled]
  split
  · rename_i h'
    exact nomatch h.symm.trans h'
  · rfl

theorem lossy_some (h : (next bytes).length? = some n) : lossy bytes = (next bytes).text :: lossy (bytes.drop n) := by
  rw [lossy]
  split
  · rename_i n' h'
    obtain rfl := Option.some.inj (h.symm.trans h')
    rfl
  · rename_i h'
    exact nomatch h.symm.trans h'

theorem lossy_none (h : (next bytes).length? = none) : lossy bytes = if bytes.isEmpty then [] else [replacement] := by
  rw [lossy]
  split
  · rename_i h'
    exact nomatch h.symm.trans h'
  · rfl

end

theorem bytes_induction {P : List UInt8 → Prop} (hnone : ∀ bytes, (next bytes).length? = none → P bytes)
    (hsome : ∀ bytes n, (next bytes).length? = some n → P (bytes.drop n) → P bytes) (bytes : List UInt8) : P bytes := by
  induction hlength : bytes.length using Nat.strongRecOn generalizing bytes with
  | ind m ih =>
    rcases h : (next bytes).length? with _ | n
    · exact hnone bytes h
    · have hlt := drop_length_lt h
      rw [hlength] at hlt
      exact hsome bytes n h (ih _ hlt _ rfl)

/-- **Bytes that come later** only see the beginning of a character. -/
theorem settled_append (bytes more : List UInt8) :
    settled (bytes ++ more) = ((settled bytes).1 ++ (settled ((settled bytes).2 ++ more)).1,
      (settled ((settled bytes).2 ++ more)).2) := by
  induction bytes using bytes_induction with
  | hnone bytes h => rw [settled_none h, List.nil_append]
  | hsome bytes n h ih =>
    have hnext := next_append h more
    have hmore : (next (bytes ++ more)).length? = some n := by rw [hnext, h]
    have hdrop : (bytes ++ more).drop n = bytes.drop n ++ more := List.drop_append_of_le_length (next_length h).2
    rw [settled_some hmore, settled_some h, hnext, hdrop, ih]
    rfl

theorem lossy_eq (bytes : List UInt8) : lossy bytes = (settled bytes).1 ++ lossy (settled bytes).2 := by
  induction bytes using bytes_induction with
  | hnone bytes h => rw [settled_none h, List.nil_append]
  | hsome bytes n h ih =>
    rw [lossy_some h, settled_some h, ih]
    rfl

theorem valid_char {bytes : List UInt8} {c : Char} {n : Nat} (h : next bytes = .char c n) :
    valid bytes = (c :: (valid (bytes.drop n)).1, (valid (bytes.drop n)).2) := by
  rw [valid]
  split
  · rename_i c' n' h'
    obtain ⟨rfl, rfl⟩ := Next.char.inj (h.symm.trans h')
    rfl
  · rename_i hne
    exact absurd h (hne c n)

theorem valid_other {bytes : List UInt8} (h : ∀ c n, next bytes ≠ .char c n) : valid bytes = ([], bytes) := by
  rw [valid]
  split
  · rename_i c n h'
    exact absurd h' (h c n)
  · rfl

/-- **The valid characters**, and what is settled of the rest, which begins with no character. -/
theorem settled_valid (bytes : List UInt8) :
    settled bytes = ((valid bytes).1 ++ (settled (valid bytes).2).1, (settled (valid bytes).2).2) ∧
      (valid bytes).2.length ≤ bytes.length ∧ ∀ c n, next (valid bytes).2 ≠ .char c n := by
  induction bytes using bytes_induction with
  | hnone bytes h =>
    have hother : ∀ c n, next bytes ≠ .char c n := fun c n hchar => by
      rw [hchar] at h
      exact nomatch h
    rw [valid_other hother]
    exact ⟨rfl, Nat.le_refl _, hother⟩
  | hsome bytes n h ih =>
    rcases hnext : next bytes with ⟨c, n'⟩ | n' | _ | _
    · have hchar : (next bytes).length? = some n' := by rw [hnext]; rfl
      obtain rfl := Option.some.inj (h.symm.trans hchar)
      rw [valid_char hnext, settled_some h, hnext]
      refine ⟨?_, ?_, ih.2.2⟩
      · rw [ih.1]
        rfl
      · exact Nat.le_trans ih.2.1 (Nat.le_of_lt (drop_length_lt h))
    all_goals
      have hother : ∀ c n, next bytes ≠ .char c n := fun c n hchar => nomatch hnext.symm.trans hchar
      rw [valid_other hother]
      exact ⟨rfl, Nat.le_refl _, hother⟩

theorem lossy_append (bytes more : List UInt8) : lossy (bytes ++ more) = (settled bytes).1 ++ lossy ((settled bytes).2 ++ more) := by
  rw [lossy_eq, lossy_eq ((settled bytes).2 ++ more), settled_append, List.append_assoc]

theorem lossy_valid_append (bytes more : List UInt8) :
    lossy (bytes ++ more) = (valid bytes).1 ++ lossy ((valid bytes).2 ++ more) := by
  rw [lossy_append bytes, lossy_append (valid bytes).2, (settled_valid bytes).1, List.append_assoc]

theorem lossy_invalid_append {bytes : List UInt8} {n : Nat} (h : next bytes = .invalid n) (more : List UInt8) :
    lossy (bytes ++ more) = replacement :: lossy (bytes.drop n ++ more) := by
  have hlength : (next bytes).length? = some n := by rw [h]; rfl
  have hmore : (next (bytes ++ more)).length? = some n := by rw [next_append hlength, hlength]
  rw [lossy_some hmore, next_append hlength, h, List.drop_append_of_le_length (next_length hlength).2]
  rfl

/-! ## Valid text -/

theorem lossy_of_valid {bytes : List UInt8} (h : (valid bytes).2 = []) : lossy bytes = (valid bytes).1 := by
  have hlossy := lossy_valid_append bytes []
  rw [List.append_nil, h, List.append_nil] at hlossy
  rw [hlossy, lossy_none rfl, if_pos List.isEmpty_nil, List.append_nil]

theorem valid_split {x y : List Char} {bytes : List UInt8} (h : valid bytes = (x ++ y, [])) :
    ∃ before behind, bytes = before ++ behind ∧ valid before = (x, []) ∧ valid behind = (y, []) := by
  induction x generalizing bytes with
  | nil => exact ⟨[], bytes, rfl, valid_other (fun c n => Next.noConfusion), h⟩
  | cons c x ih =>
    rcases hnext : next bytes with ⟨c', n⟩ | n | _ | _
    case char =>
      rw [valid_char hnext, Prod.mk.injEq] at h
      obtain ⟨hchars, hrest⟩ := h
      obtain ⟨rfl, htail⟩ := List.cons.inj hchars
      obtain ⟨before, behind, hbytes, hbefore, hbehind⟩ := ih (Prod.ext htail hrest)
      have hfirst := next_take hnext
      have hlength := next_length (show (next bytes).length? = some n by rw [hnext]; rfl)
      have htake : (bytes.take n).length = n := by
        rw [List.length_take]
        omega
      have hseam : next (bytes.take n ++ before) = .char c' n := by
        rw [next_append (by rw [hfirst]; rfl), hfirst]
      refine ⟨bytes.take n ++ before, behind, ?_, ?_, hbehind⟩
      · rw [List.append_assoc, ← hbytes, List.take_append_drop]
      · rw [valid_char hseam, List.drop_append_of_le_length (by omega), List.drop_eq_nil_of_le (by omega), List.nil_append, hbefore]
    all_goals
      rw [valid_other (fun c n hchar => Next.noConfusion (hnext.symm.trans hchar))] at h
      exact absurd (congrArg Prod.fst h) (List.cons_ne_nil _ _).symm

end Utf8
