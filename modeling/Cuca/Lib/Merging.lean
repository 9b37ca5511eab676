import Mathlib.Data.List.Sort

/-!
# Merging neighbours

A list is made shorter by merging two neighbours that a rule allows to, those with the least key first and the leftmost of those.

* `best`, `naive` : the pair to merge, looked for in all of the list, and merging until there is none;
* `naive_kept` : what each merge keeps;
* `Tagging`, `Covers` : candidates for pairs, and a queue that holds one for each pair there is;
* `Covers.best_eq` : the first candidate that is not stale is the best pair;
* `Covers.merge`, `Covers.drop` : the queue goes on to cover the list.
-/

namespace Merging

variable {P K : Type*} [LinearOrder K] (rule : P → P → Option (K × P))

/-- The place of the pair to merge, its key, and what it becomes. -/
def best : List P → Option (Nat × K × P)
  | p :: q :: rest =>
    let later := (best (q :: rest)).map fun hit => (hit.1 + 1, hit.2)
    match rule p q with
    | none => later
    | some (key, merged) =>
      match later with
      | none => some (0, key, merged)
      | some (i, key', merged') => if key ≤ key' then some (0, key, merged) else some (i, key', merged')
  | _ => none

def mergeAt (l : List P) (i : Nat) (merged : P) : List P := l.take i ++ merged :: l.drop (i + 2)

variable {rule}

theorem best_some {l : List P} {i : Nat} {key : K} {merged : P} (h : best rule l = some (i, key, merged)) :
    ∃ front p q back, l = front ++ p :: q :: back ∧ front.length = i ∧ rule p q = some (key, merged) := by
  induction l generalizing i key merged with
  | nil => exact nomatch h
  | cons p l ih =>
    rcases l with _ | ⟨q, rest⟩
    · exact nomatch h
    have hlater {i : Nat} {key : K} {merged : P} (h : (best rule (q :: rest)).map (fun hit => (hit.1 + 1, hit.2)) = some (i, key, merged)) :
        ∃ front p' q' back, p :: q :: rest = front ++ p' :: q' :: back ∧ front.length = i ∧ rule p' q' = some (key, merged) := by
      obtain ⟨⟨j, found⟩, hbest, heq⟩ := Option.map_eq_some_iff.mp h
      obtain ⟨rfl, rfl⟩ := Prod.mk.inj heq
      obtain ⟨front, p', q', back, hsplit, hlength, hrule⟩ := ih hbest
      exact ⟨p :: front, p', q', back, by rw [hsplit]; rfl, by rw [List.length_cons, hlength], hrule⟩
    rw [best] at h
    rcases hrule : rule p q with _ | ⟨key₀, merged₀⟩
    · rw [hrule] at h
      exact hlater h
    · rw [hrule] at h
      dsimp only at h
      have hhead : some (0, key₀, merged₀) = some (i, key, merged) →
          ∃ front p' q' back, p :: q :: rest = front ++ p' :: q' :: back ∧ front.length = i ∧ rule p' q' = some (key, merged) := by
        intro heq
        obtain ⟨rfl, hfound⟩ := Prod.mk.inj (Option.some.inj heq)
        exact ⟨[], p, q, rest, rfl, rfl, by rw [hrule, hfound]⟩
      split at h
      · exact hhead h
      · rename_i i' key' merged' hfound
        split at h
        · exact hhead h
        · exact hlater (hfound.trans h)

theorem best_eq_none {l : List P} (h : ∀ front p q back, l = front ++ p :: q :: back → rule p q = none) : best rule l = none := by
  rcases hbest : best rule l with _ | ⟨i, key, merged⟩
  · rfl
  · obtain ⟨front, p, q, back, hsplit, -, hrule⟩ := best_some hbest
    exact nomatch (h front p q back hsplit).symm.trans hrule

/-- **The best pair** is the one of the least key, the leftmost of those. -/
theorem best_eq {front back : List P} {p q : P} {key : K} {merged : P} (hrule : rule p q = some (key, merged))
    (hfirst : ∀ front' p' q' back' key' merged', front ++ p :: q :: back = front' ++ p' :: q' :: back' →
      rule p' q' = some (key', merged') → key ≤ key' ∧ (front'.length < front.length → key < key')) :
    best rule (front ++ p :: q :: back) = some (front.length, key, merged) := by
  induction front with
  | nil =>
    rw [List.nil_append, best, hrule]
    dsimp only
    split
    · rfl
    · rename_i i key' merged' hfound
      obtain ⟨⟨j, found⟩, hbest, heq⟩ := Option.map_eq_some_iff.mp hfound
      obtain ⟨rfl, rfl⟩ := Prod.mk.inj heq
      obtain ⟨front, p', q', back', hsplit, -, hrule'⟩ := best_some hbest
      have hle := (hfirst (p :: front) p' q' back' key' merged' (by rw [List.nil_append, hsplit]; rfl) hrule').1
      exact if_pos hle
  | cons a front ih =>
    have hrest := ih fun front' p' q' back' key' merged' hsplit hrule' => by
      obtain ⟨hle, hlt⟩ := hfirst (a :: front') p' q' back' key' merged' (by rw [List.cons_append, hsplit]; rfl) hrule'
      exact ⟨hle, fun h => hlt (Nat.succ_lt_succ h)⟩
    obtain ⟨b, rest, hcons⟩ : ∃ b rest, front ++ p :: q :: back = b :: rest := by
      cases front with
      | nil => exact ⟨p, _, rfl⟩
      | cons b front => exact ⟨b, _, rfl⟩
    rw [hcons] at hrest
    rw [List.cons_append, hcons, best, hrest]
    rcases hhead : rule a b with _ | ⟨key₀, merged₀⟩
    · rfl
    · have hlt := (hfirst [] a b rest key₀ merged₀ (by rw [List.cons_append, hcons]; rfl) hhead).2 (Nat.succ_pos _)
      exact if_neg (not_le_of_gt hlt)

theorem mergeAt_length {l : List P} {i : Nat} {key : K} {merged : P} (h : best rule l = some (i, key, merged)) :
    (mergeAt l i merged).length < l.length := by
  obtain ⟨front, p, q, back, rfl, rfl, -⟩ := best_some h
  simp only [mergeAt, List.length_append, List.length_cons, List.length_take, List.length_drop]
  omega

theorem mergeAt_split (front back : List P) (p q merged : P) :
    mergeAt (front ++ p :: q :: back) front.length merged = front ++ merged :: back := by
  rw [mergeAt, List.take_left, ← List.drop_drop, List.drop_left]
  rfl

variable (rule)

/-- Merging the best pair until there is none. -/
def naive (l : List P) : List P :=
  match h : best rule l with
  | none => l
  | some (i, _, merged) => naive (mergeAt l i merged)
termination_by l.length
decreasing_by exact mergeAt_length h

variable {rule}

theorem naive_none {l : List P} (h : best rule l = none) : naive rule l = l := by
  rw [naive]
  split
  · rfl
  · rename_i h'
    exact nomatch h.symm.trans h'

theorem naive_some {l : List P} {i : Nat} {key : K} {merged : P} (h : best rule l = some (i, key, merged)) :
    naive rule l = naive rule (mergeAt l i merged) := by
  rw [naive]
  split
  · rename_i h'
    exact nomatch h.symm.trans h'
  · rename_i h'
    obtain ⟨rfl, heq⟩ := Prod.mk.inj (Option.some.inj (h.symm.trans h'))
    obtain ⟨-, rfl⟩ := Prod.mk.inj heq
    rfl

theorem naive_kept (inv : List P → Prop)
    (hmerge : ∀ front p q back key merged, rule p q = some (key, merged) → inv (front ++ p :: q :: back) → inv (front ++ merged :: back))
    {l : List P} (h : inv l) : inv (naive rule l) := by
  induction l using naive.induct rule with
  | case1 l hnone =>
    rw [naive_none hnone]
    exact h
  | case2 l i key merged hsome ih =>
    rw [naive_some hsome]
    apply ih
    obtain ⟨front, p, q, back, rfl, rfl, hrule⟩ := best_some hsome
    rw [mergeAt_split]
    exact hmerge front p q back key merged hrule h

/-! ## A queue of candidates -/

variable {C : Type*}

/-- The candidate for a pair of neighbours, each with its place, under the key of the pair; its key and the left of its places. -/
structure Tagging (P K C : Type*) where
  make : Nat × P → Nat × P → K → C
  key : C → K
  left : C → Nat
  key_make : ∀ a b k, key (make a b k) = k
  left_make : ∀ a b k, left (make a b k) = a.1

def Tagging.le (tag : Tagging P K C) (c c' : C) : Prop := tag.key c < tag.key c' ∨ tag.key c = tag.key c' ∧ tag.left c ≤ tag.left c'

def Covers (rule : P → P → Option (K × P)) (tag : Tagging P K C) (live : List (Nat × P)) (queue : List C) : Prop :=
  ∀ front a b back, live = front ++ a :: b :: back → ∀ k m, rule a.2 b.2 = some (k, m) → tag.make a b k ∈ queue

variable {tag : Tagging P K C} {live : List (Nat × P)} {queue rest : List C}

theorem map_split {front back : List P} {p q : P} (h : live.map Prod.snd = front ++ p :: q :: back) :
    ∃ front' a b back', live = front' ++ a :: b :: back' ∧ front'.map Prod.snd = front ∧ a.2 = p ∧ b.2 = q := by
  obtain ⟨front', tail, rfl, hfront, htail⟩ := List.map_eq_append_iff.mp h
  obtain ⟨a, tail', rfl, ha, htail'⟩ := List.map_eq_cons_iff.mp htail
  obtain ⟨b, back', rfl, hb, -⟩ := List.map_eq_cons_iff.mp htail'
  exact ⟨front', a, b, back', rfl, hfront, ha, hb⟩

theorem lt_of_split {front back front' back' : List (Nat × P)} {a a' : Nat × P} (hsorted : (front ++ a :: back).Pairwise (·.1 < ·.1))
    (hsplit : front ++ a :: back = front' ++ a' :: back') (hlt : front'.length < front.length) : a'.1 < a.1 := by
  have hmem : a' ∈ front := by
    have hget : (front ++ a :: back)[front'.length]? = some a' := by
      rw [hsplit, List.getElem?_append_right (Nat.le_refl _), Nat.sub_self]
      rfl
    rw [List.getElem?_append_left hlt] at hget
    exact List.mem_of_getElem? hget
  exact (List.pairwise_append.mp hsorted).2.2 a' hmem a List.mem_cons_self

theorem pair_split {T : Type*} {front back front' back' : List T} {x a b : T} (h : front ++ x :: back = front' ++ a :: b :: back') :
    (∃ mid, front = front' ++ a :: b :: mid) ∨ (front = front' ++ [a] ∧ b = x) ∨ (a = x ∧ back = b :: back') ∨
      ∃ mid, back = mid ++ a :: b :: back' := by
  rcases List.append_eq_append_iff.mp h with ⟨mid, rfl, hback⟩ | ⟨mid, rfl, hback⟩
  · rcases mid with _ | ⟨y, mid⟩
    · obtain ⟨rfl, rfl⟩ := List.cons.inj hback
      exact .inr (.inr (.inl ⟨rfl, rfl⟩))
    · obtain ⟨rfl, rfl⟩ := List.cons.inj hback
      exact .inr (.inr (.inr ⟨mid, rfl⟩))
  · rcases mid with _ | ⟨y, mid⟩
    · obtain ⟨rfl, rfl⟩ := List.cons.inj hback
      exact .inr (.inr (.inl ⟨rfl, rfl⟩))
    · obtain ⟨rfl, htail⟩ := List.cons.inj hback
      rcases mid with _ | ⟨z, mid⟩
      · exact .inr (.inl ⟨rfl, (List.cons.inj htail).1⟩)
      · obtain ⟨rfl, -⟩ := List.cons.inj htail
        exact .inl ⟨mid, rfl⟩

theorem Covers.stop (h : Covers rule tag live []) : naive rule (live.map Prod.snd) = live.map Prod.snd := by
  apply naive_none
  apply best_eq_none
  intro front p q back hsplit
  obtain ⟨front', a, b, back', rfl, -, rfl, rfl⟩ := map_split hsplit
  rcases hrule : rule a.2 b.2 with _ | ⟨k, m⟩
  · rfl
  · exact nomatch h front' a b back' rfl k m hrule

section
variable {front back : List (Nat × P)} {a b : Nat × P} {c : C} {m : P}

/-- **The first candidate**, if it is that of a pair, is that of the best one. -/
theorem Covers.best_eq (h : Covers rule tag (front ++ a :: b :: back) queue)
    (hsorted : (front ++ a :: b :: back).Pairwise (·.1 < ·.1)) (hleft : tag.left c = a.1)
    (hrule : rule a.2 b.2 = some (tag.key c, m)) (hfirst : ∀ other ∈ queue, tag.le c other) :
    best rule ((front ++ a :: b :: back).map Prod.snd) = some (front.length, tag.key c, m) := by
  have hgoal := @Merging.best_eq _ _ _ _ (front.map Prod.snd) (back.map Prod.snd) _ _ _ _ hrule ?_
  · rw [List.map_append, List.map_cons, List.map_cons, hgoal, List.length_map]
  · intro front' p' q' back' key' merged' hsplit hrule'
    rw [← List.map_cons, ← List.map_cons, ← List.map_append] at hsplit
    obtain ⟨front', a', b', back', heq, rfl, rfl, rfl⟩ := map_split hsplit
    have hle := hfirst _ (h front' a' b' back' heq key' merged' hrule')
    rw [Tagging.le, tag.key_make, tag.left_make, hleft] at hle
    rw [List.length_map, List.length_map]
    refine ⟨hle.elim le_of_lt fun h => le_of_eq h.1, fun hlt => hle.elim id fun hsame => ?_⟩
    have hplace := lt_of_split hsorted heq hlt
    omega

theorem Covers.naive_eq (h : Covers rule tag (front ++ a :: b :: back) queue)
    (hsorted : (front ++ a :: b :: back).Pairwise (·.1 < ·.1)) (hleft : tag.left c = a.1)
    (hrule : rule a.2 b.2 = some (tag.key c, m)) (hfirst : ∀ other ∈ queue, tag.le c other) :
    naive rule ((front ++ a :: b :: back).map Prod.snd) = naive rule ((front ++ (a.1, m) :: back).map Prod.snd) := by
  have hmerged : mergeAt ((front ++ a :: b :: back).map Prod.snd) front.length m = (front ++ (a.1, m) :: back).map Prod.snd := by
    rw [List.map_append, List.map_append, List.map_cons, List.map_cons, List.map_cons, ← List.length_map (f := Prod.snd), mergeAt_split]
  rw [naive_some (h.best_eq hsorted hleft hrule hfirst), hmerged]

theorem Covers.drop (h : Covers rule tag live queue) (hperm : (c :: rest).Perm queue)
    (hstale : ∀ front a b back, live = front ++ a :: b :: back → ∀ k m, rule a.2 b.2 = some (k, m) → tag.make a b k ≠ c) :
    Covers rule tag live rest := by
  intro front a b back hsplit k m hrule
  have hmem := hperm.symm.subset (h front a b back hsplit k m hrule)
  exact (List.mem_cons.mp hmem).resolve_left (hstale front a b back hsplit k m hrule)

/-- **Merging** a pair needs candidates for its new neighbours, and no other ones. -/
theorem Covers.merge (h : Covers rule tag (front ++ a :: b :: back) queue)
    (hsorted : (front ++ a :: b :: back).Pairwise (·.1 < ·.1)) (hperm : (c :: rest).Perm queue) (hleft : tag.left c = a.1)
    {new : List C} (hbefore : ∀ front' x, front = front' ++ [x] → ∀ k n, rule x.2 m = some (k, n) → tag.make x (a.1, m) k ∈ new)
    (hafter : ∀ y back', back = y :: back' → ∀ k n, rule m y.2 = some (k, n) → tag.make (a.1, m) y k ∈ new) :
    Covers rule tag (front ++ (a.1, m) :: back) (new ++ rest) := by
  obtain ⟨-, htail, hfront⟩ := List.pairwise_append.mp hsorted
  obtain ⟨ha, htail⟩ := List.pairwise_cons.mp htail
  have hold (front' back' : List (Nat × P)) (x y : Nat × P) (hsplit : front ++ a :: b :: back = front' ++ x :: y :: back')
      (hne : x.1 ≠ a.1) {k : K} {n : P} (hrule : rule x.2 y.2 = some (k, n)) : tag.make x y k ∈ new ++ rest := by
    have hmem := hperm.symm.subset (h front' x y back' hsplit k n hrule)
    rcases List.mem_cons.mp hmem with rfl | hmem
    · exact absurd ((tag.left_make x y k).symm.trans hleft) hne
    · exact List.mem_append_right _ hmem
  intro front' x y back' hsplit k n hrule
  rcases pair_split hsplit with ⟨mid, rfl⟩ | ⟨rfl, rfl⟩ | ⟨rfl, rfl⟩ | ⟨mid, rfl⟩
  · exact hold front' (mid ++ a :: b :: back) x y (by simp) (Nat.ne_of_lt (hfront x (by simp) a List.mem_cons_self)) hrule
  · exact List.mem_append_left _ (hbefore front' x rfl k n hrule)
  · exact List.mem_append_left _ (hafter y back' rfl k n hrule)
  · exact hold (front ++ a :: b :: mid) back' x y (by simp) (Nat.ne_of_gt (ha x (by simp))) hrule

end

end Merging
