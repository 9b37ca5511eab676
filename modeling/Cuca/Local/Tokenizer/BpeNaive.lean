import Cuca.Lib.Merging
import Cuca.Local.Tokenizer.Bpe

/-!
# Byte-pair merging, the naive way

The pieces of a word are merged over and over, among all neighbours with a rule those of the lowest rank, the leftmost of those.

* `Piece`, `rule` : a token, or a character that is none; what the rules allow to merge;
* `Holds` : the symbols that are left are the pieces, in order;
* `Holds.merge`, `Holds.pushPair` : one round;
* `mergeWord_eq` : the loop ends with the pieces of the naive way.
-/

namespace Cuca.Local.Tokenizer.Bpe
open Merging WorkQueue

inductive Piece where
  | token (id : Nat)
  | unknown (c : Char)
  deriving DecidableEq, Repr

section
variable (merges : Merges) (vocab : Vocab)

/-- The piece of a character. -/
def pieceOf (c : Char) : Piece :=
  match vocab.get [c] with
  | some id => .token id
  | none => .unknown c

def rule : Piece → Piece → Option (Nat × Piece)
  | .token x, .token y => (merges.get x y).map fun entry => (entry.1, .token entry.2)
  | _, _ => none

def emitPiece (unknown : Unknown) : Piece → List Nat
  | .token id => [id]
  | .unknown c =>
    match unknown with
    | .byteTokens => vocab.pushByteTokens [c]
    | .drop => []

/-- The candidates of the heap. -/
def tag : Tagging Piece Nat Candidate where
  make a b rank := (rank, a.1, b.1)
  key := Prod.fst
  left c := c.2.1
  key_make _ _ _ := rfl
  left_make _ _ _ := rfl

variable {merges vocab}

theorem rule_some {p q : Piece} {rank : Nat} {m : Piece} (h : rule merges p q = some (rank, m)) :
    ∃ x y merged, p = .token x ∧ q = .token y ∧ m = .token merged ∧ merges.get x y = some (rank, merged) := by
  cases p with
  | unknown c => exact nomatch h
  | token x =>
    cases q with
    | unknown c => exact nomatch h
    | token y =>
      obtain ⟨⟨rank', merged⟩, hget, heq⟩ := Option.map_eq_some_iff.mp h
      obtain ⟨rfl, rfl⟩ := Prod.mk.inj heq
      exact ⟨x, y, merged, rfl, rfl, rfl, hget⟩

theorem le_of_candidate {c c' : Candidate} (h : c.le c') : tag.le c c' := by
  rcases h with h | ⟨heq, h | ⟨h, -⟩⟩
  · exact .inl h
  · exact .inr ⟨heq, Nat.le_of_lt h⟩
  · exact .inr ⟨heq, Nat.le_of_eq h⟩

/-! ## The symbols that are left -/

/-- The symbol is that of the piece. -/
def Piece.Is (word : List Char) (symbol : Symbol) : Piece → Prop
  | .token id => symbol.id = some id
  | .unknown c => symbol.id = none ∧ (word.drop symbol.start).take (symbol.stop - symbol.start) = [c]

abbrev nextOf (symbols : List Symbol) (i : Nat) : Option Nat := symbols[i]?.bind Symbol.next

abbrev prevOf (symbols : List Symbol) (i : Nat) : Option Nat := symbols[i]?.bind Symbol.prev

/-- The pieces are the symbols that are left, linked in order. -/
structure Holds (word : List Char) (symbols : List Symbol) (live : List (Nat × Piece)) : Prop where
  linked : Linked (nextOf symbols) (prevOf symbols) none (live.map Prod.fst)
  sorted : live.Pairwise (·.1 < ·.1)
  piece : ∀ x ∈ live, ∃ s, symbols[x.1]? = some s ∧ s.alive = true ∧ x.2.Is word s
  alive : ∀ (i : Nat) s, symbols[i]? = some s → s.alive = true → i ∈ live.map Prod.fst

variable {word : List Char} {symbols : List Symbol} {live front back : List (Nat × Piece)} {a b : Nat × Piece}

theorem Holds.pair (h : Holds word symbols (front ++ a :: b :: back)) :
    ∃ s t, symbols[a.1]? = some s ∧ symbols[b.1]? = some t ∧ s.alive = true ∧ t.alive = true ∧ s.next = some b.1 ∧
      t.next = (back.map Prod.fst).head? ∧ s.prev = (front.map Prod.fst).getLast? ∧ a.2.Is word s ∧ b.2.Is word t := by
  obtain ⟨s, hs, hsa, hsp⟩ := h.piece a (by simp)
  obtain ⟨t, ht, hta, htp⟩ := h.piece b (by simp)
  have hlinked := h.linked
  rw [List.map_append, List.map_cons, List.map_cons] at hlinked
  obtain ⟨hprev, hnext⟩ := hlinked.at_split
  have hright : Linked (nextOf symbols) (prevOf symbols) none ((front.map Prod.fst ++ [a.1]) ++ b.1 :: back.map Prod.fst) := by
    simpa using hlinked
  have hafter := hright.at_split.2
  simp only [nextOf, prevOf, hs, ht, Option.bind_some, Option.or_none, List.head?_cons] at hprev hnext hafter
  exact ⟨s, t, hs, ht, hsa, hta, hnext, hafter, hprev, hsp, htp⟩

theorem Holds.pushPair (h : Holds word symbols (front ++ a :: b :: back)) {rank : Nat} {m : Piece}
    (hrule : rule merges a.2 b.2 = some (rank, m)) : tag.make a b rank ∈ pushPair merges symbols a.1 := by
  obtain ⟨s, t, hs, ht, -, -, hnext, -, -, hsp, htp⟩ := h.pair
  obtain ⟨x, y, merged, hx, hy, -, hget⟩ := rule_some hrule
  rw [hx] at hsp
  rw [hy] at htp
  have hsid : s.id = some x := hsp
  have htid : t.id = some y := htp
  simp [Bpe.pushPair, hs, hnext, ht, hsid, htid, hget, tag]

theorem getElem?_link {left right merged : Nat} {t : Symbol} (i : Nat) :
    (link symbols left right merged t)[i]? = symbols[i]?.map fun s =>
      { id := if i = left then some merged else s.id
        start := s.start
        stop := if i = left then t.stop else s.stop
        prev := if some i = t.next then some left else s.prev
        next := if i = left then t.next else s.next
        alive := if i = right then false else s.alive } := by
  unfold link
  dsimp only
  rcases hnext : t.next with _ | after
  · rw [getElem?_modify_map, getElem?_modify_map, Option.map_map]
    congr 1
    funext s
    simp only [Function.comp, reduceCtorEq, if_false]
    split_ifs <;> rfl
  · rw [getElem?_modify_map, getElem?_modify_map, getElem?_modify_map, Option.map_map, Option.map_map]
    simp only [Option.some.injEq]
    congr 1
    funext s
    simp only [Function.comp]
    split_ifs <;> rfl

theorem Holds.others (h : Holds word symbols (front ++ a :: b :: back)) {x : Nat × Piece} (hx : x ∈ front ∨ x ∈ back) :
    x ∈ front ++ a :: b :: back ∧ x.1 ≠ a.1 ∧ x.1 ≠ b.1 ∧ a.1 ≠ b.1 := by
  obtain ⟨-, htail, hfront⟩ := List.pairwise_append.mp h.sorted
  obtain ⟨ha, htail⟩ := List.pairwise_cons.mp htail
  obtain ⟨hb, -⟩ := List.pairwise_cons.mp htail
  have hab := ha b List.mem_cons_self
  rcases hx with hx | hx
  · have hxa := hfront x hx a List.mem_cons_self
    exact ⟨List.mem_append_left _ hx, by omega, by omega, by omega⟩
  · have hbx := hb x hx
    exact ⟨by simp [hx], by omega, by omega, by omega⟩

/-- **Merging** two neighbours leaves the left one, with what they become. -/
theorem Holds.merge (h : Holds word symbols (front ++ a :: b :: back)) {t : Symbol} (ht : symbols[b.1]? = some t) (merged : Nat) :
    Holds word (link symbols a.1 b.1 merged t) (front ++ (a.1, .token merged) :: back) := by
  have hsorted := List.pairwise_map.mpr h.sorted
  rw [List.map_append, List.map_cons, List.map_cons] at hsorted
  have hlinked := h.linked
  rw [List.map_append, List.map_cons, List.map_cons] at hlinked
  have hfst : (front ++ (a.1, Piece.token merged) :: back).map Prod.fst = front.map Prod.fst ++ a.1 :: back.map Prod.fst := by
    rw [List.map_append, List.map_cons]
  have hnextb : nextOf symbols b.1 = t.next := by rw [nextOf, ht]; rfl
  have hab : a.1 ≠ b.1 := by
    obtain ⟨-, htail, -⟩ := List.pairwise_append.mp h.sorted
    exact Nat.ne_of_lt ((List.pairwise_cons.mp htail).1 b List.mem_cons_self)
  obtain ⟨s, -, hs, -, hsa, -⟩ := h.pair
  refine ⟨?_, ?_, fun x hx => ?_, fun i s' hs' halive => ?_⟩
  · rw [hfst]
    refine (Linked.unlink (hsorted.imp Nat.ne_of_lt) hlinked).congr (fun i _ => ?_) fun i hi => ?_
    · rw [nextOf, getElem?_link, hnextb]
      by_cases hi : i = a.1
      · rw [hi, hs, if_pos rfl, Option.map_some, Option.bind_some]
        exact if_pos rfl
      · rw [if_neg hi, nextOf]
        cases symbols[i]? with
        | none => rfl
        | some s => exact if_neg hi
    · have hlive : i ∈ (front ++ a :: b :: back).map Prod.fst := by
        rw [List.map_append, List.map_cons, List.map_cons]
        simp only [List.mem_append, List.mem_cons] at hi ⊢
        tauto
      obtain ⟨x, hx, rfl⟩ := List.mem_map.mp hlive
      obtain ⟨s, hs, -⟩ := h.piece x hx
      rw [prevOf, getElem?_link, hnextb, prevOf, hs]
      rfl
  · refine List.pairwise_map.mp ?_
    rw [hfst]
    exact hsorted.sublist (((List.sublist_cons_self _ _).cons_cons _).append_left _)
  · have hother (hx : x ∈ front ∨ x ∈ back) :
        ∃ s, (link symbols a.1 b.1 merged t)[x.1]? = some s ∧ s.alive = true ∧ x.2.Is word s := by
      obtain ⟨hlive, hxa, hxb, -⟩ := h.others hx
      obtain ⟨s, hs, hsa, hsp⟩ := h.piece x hlive
      rw [getElem?_link, hs, Option.map_some]
      refine ⟨_, rfl, (if_neg hxb).trans hsa, ?_⟩
      rcases x with ⟨i, p⟩
      cases p with
      | token id => exact (if_neg hxa).trans hsp
      | unknown c =>
        refine ⟨(if_neg hxa).trans hsp.1, ?_⟩
        dsimp only
        rw [if_neg hxa]
        exact hsp.2
    rcases List.mem_append.mp hx with hx | hx
    · exact hother (.inl hx)
    · rcases List.mem_cons.mp hx with rfl | hx
      · rw [getElem?_link, hs, Option.map_some]
        exact ⟨_, rfl, (if_neg hab).trans hsa, if_pos rfl⟩
      · exact hother (.inr hx)
  · rw [getElem?_link] at hs'
    obtain ⟨s, hs, rfl⟩ := Option.map_eq_some_iff.mp hs'
    dsimp only at halive
    split at halive
    · exact nomatch halive
    · rename_i hib
      have hlive := h.alive i s hs halive
      rw [List.map_append, List.map_cons, List.map_cons] at hlive
      rw [hfst]
      simp only [List.mem_append, List.mem_cons] at hlive ⊢
      tauto

theorem Holds.step (h : Holds word symbols (front ++ a :: b :: back)) {rank : Nat} {m : Piece}
    (hrule : rule merges a.2 b.2 = some (rank, m)) : mergeStep merges symbols (tag.make a b rank) ≠ none := by
  obtain ⟨s, t, hs, ht, hsa, hta, hnext, -, -, hsp, htp⟩ := h.pair
  obtain ⟨x, y, merged, hx, hy, -, hget⟩ := rule_some hrule
  rw [hx] at hsp
  rw [hy] at htp
  have hsid : s.id = some x := hsp
  have htid : t.id = some y := htp
  simp [mergeStep, tag, hs, ht, hsa, hta, hnext, hsid, htid, hget]

theorem Holds.token (h : Holds word symbols live) {i : Nat} {p : Piece} (hmem : (i, p) ∈ live) {s : Symbol} (hs : symbols[i]? = some s)
    {x : Nat} (hx : s.id = some x) : p = .token x := by
  obtain ⟨s', hs', -, hsp⟩ := h.piece (i, p) hmem
  obtain rfl := Option.some.inj (hs.symm.trans hs')
  cases p with
  | token id => rw [Option.some.inj (hx.symm.trans hsp)]
  | unknown c => exact nomatch hx.symm.trans hsp.1

theorem Holds.current (h : Holds word symbols live) {left right : Nat} {s t : Symbol} (hs : symbols[left]? = some s)
    (halive : s.alive = true) (hnext : s.next = some right) (ht : symbols[right]? = some t) {x y : Nat} (hx : s.id = some x)
    (hy : t.id = some y) : ∃ front back, live = front ++ (left, .token x) :: (right, .token y) :: back := by
  obtain ⟨⟨left', p⟩, hmem, rfl⟩ := List.mem_map.mp (h.alive left s hs halive)
  obtain ⟨front, tail, rfl⟩ := List.append_of_mem hmem
  have hlinked := h.linked
  rw [List.map_append, List.map_cons] at hlinked
  have hhead := hlinked.at_split.2
  rw [nextOf, hs, Option.bind_some, hnext] at hhead
  rcases tail with _ | ⟨⟨right', q⟩, back⟩
  · exact nomatch hhead
  · obtain rfl := Option.some.inj hhead
    obtain rfl : p = .token x := h.token (by simp) hs hx
    obtain rfl : q = .token y := h.token (by simp) ht hy
    exact ⟨front, back, rfl⟩

/-- What every round keeps. -/
structure Inv (merges : Merges) (vocab : Vocab) (word : List Char) (symbols : List Symbol) (queue : List Candidate)
    (live : List (Nat × Piece)) : Prop where
  holds : Holds word symbols live
  covers : Covers (rule merges) tag live queue
  same : naive (rule merges) (live.map Prod.snd) = naive (rule merges) (word.map (pieceOf vocab))
  size : symbols.length = word.length
  length : live.length ≤ word.length
  head : (live.map Prod.fst).head? = if word.isEmpty then none else some 0

theorem length_link (symbols : List Symbol) (left right merged : Nat) (t : Symbol) :
    (link symbols left right merged t).length = symbols.length := by
  unfold link
  dsimp only
  split
  · rw [List.length_modify, List.length_modify, List.length_modify]
  · rw [List.length_modify, List.length_modify]

variable {queue rest new : List Candidate} {c : Candidate}

theorem Inv.stale (heap : PopRule Candidate Candidate.le) (h : Inv merges vocab word symbols queue live)
    (hpop : heap.pop queue = some (c, rest)) (hstep : mergeStep merges symbols c = none) : Inv merges vocab word symbols rest live := by
  obtain ⟨hperm, -⟩ := heap.pop_some hpop
  refine ⟨h.holds, h.covers.drop hperm ?_, h.same, h.size, h.length, h.head⟩
  rintro front a b back rfl rank m hrule rfl
  exact h.holds.step hrule hstep

/-- **One round** of the loop is one merge of the naive way. -/
theorem Inv.step (heap : PopRule Candidate Candidate.le) (h : Inv merges vocab word symbols queue live) {symbols' : List Symbol}
    (hpop : heap.pop queue = some (c, rest)) (hstep : mergeStep merges symbols c = some (symbols', new)) :
    ∃ live', Inv merges vocab word symbols' (new ++ rest) live' := by
  obtain ⟨hperm, hfirst⟩ := heap.pop_some hpop
  obtain ⟨rank, left, right⟩ := c
  obtain ⟨s, t, x, y, merged, hs, ht, halive, -, hnext, hx, hy, hget, rfl, rfl⟩ := mergeStep_some hstep
  obtain ⟨front, back, rfl⟩ := h.holds.current hs halive hnext ht hx hy
  have hrule : rule merges (.token x) (.token y) = some (rank, .token merged) := by rw [rule, hget]; rfl
  have hnaive := h.covers.naive_eq h.holds.sorted (c := (rank, left, right)) rfl hrule fun other hother => by
    rcases List.mem_cons.mp (hperm.symm.subset hother) with rfl | hother
    · exact .inr ⟨rfl, Nat.le_refl _⟩
    · exact le_of_candidate (hfirst other hother)
  have hmerged := h.holds.merge ht merged
  refine ⟨front ++ (left, .token merged) :: back, hmerged, ?_, hnaive.symm.trans h.same, (length_link ..).trans h.size, ?_, ?_⟩
  · refine h.covers.merge h.holds.sorted hperm rfl (fun front' z hfront k n hk => ?_) fun z back' hback k n hk => ?_
    · obtain rfl := hfront
      rw [List.append_assoc] at hmerged
      have hlinked := hmerged.linked
      rw [List.map_append, List.map_append, List.map_cons] at hlinked
      rw [List.map_cons, List.cons_append, List.map_nil, List.nil_append, List.append_cons] at hlinked
      have hprev := hlinked.at_split.1
      rw [List.getLast?_concat] at hprev
      refine List.mem_append_left _ (List.mem_flatMap.mpr ⟨z.1, ?_, hmerged.pushPair hk⟩)
      rw [Option.mem_toList]
      exact hprev
    · obtain rfl := hback
      exact List.mem_append_right _ (hmerged.pushPair hk)
  · have hlength := h.length
    simp only [List.length_append, List.length_cons] at hlength ⊢
    omega
  · rw [← h.head]
    cases front <;> rfl

/-! ## The loop -/

def liveOf (vocab : Vocab) (word : List Char) : List (Nat × Piece) := word.mapIdx fun i c => (i, pieceOf vocab c)

theorem liveOf_fst (word : List Char) : (liveOf vocab word).map Prod.fst = List.range word.length :=
  List.ext_getElem (by simp [liveOf]) (by simp [liveOf])

theorem liveOf_snd (word : List Char) : (liveOf vocab word).map Prod.snd = word.map (pieceOf vocab) :=
  List.ext_getElem (by simp [liveOf]) (by simp [liveOf])

theorem getElem?_symbolsOf (word : List Char) (i : Nat) : (symbolsOf vocab word)[i]? = word[i]?.map fun c =>
    { id := vocab.get [c]
      start := i
      stop := i + 1
      prev := if i = 0 then none else some (i - 1)
      next := if i + 1 < word.length then some (i + 1) else none
      alive := true } := by
  rw [symbolsOf, List.getElem?_mapIdx]

theorem holds_symbolsOf (word : List Char) : Holds word (symbolsOf vocab word) (liveOf vocab word) := by
  have hsome (i : Nat) (hi : i < word.length) : word[i]? = some word[i] := List.getElem?_eq_getElem hi
  refine ⟨?_, ?_, fun x hx => ?_, fun i s hs _ => ?_⟩
  · rw [liveOf_fst]
    refine Linked.range (fun i hi => ?_) fun i hi => ?_
    · rw [nextOf, getElem?_symbolsOf, hsome i hi]
      rfl
    · rw [prevOf, getElem?_symbolsOf, hsome i hi]
      rfl
  · refine List.pairwise_map.mp ?_
    rw [liveOf_fst]
    exact List.pairwise_lt_range
  · obtain ⟨i, hi, rfl⟩ := List.mem_mapIdx.mp hx
    rw [getElem?_symbolsOf, hsome i hi]
    refine ⟨_, rfl, rfl, ?_⟩
    dsimp only
    unfold pieceOf
    rcases hget : vocab.get [word[i]] with _ | id
    · refine ⟨rfl, ?_⟩
      dsimp only
      rw [Nat.add_sub_cancel_left, List.drop_eq_getElem_cons hi]
      rfl
    · rfl
  · rw [liveOf_fst, List.mem_range]
    rw [getElem?_symbolsOf] at hs
    obtain ⟨c, hc, -⟩ := Option.map_eq_some_iff.mp hs
    exact (List.getElem?_eq_some_iff.mp hc).1

theorem inv_symbolsOf (merges : Merges) (vocab : Vocab) (word : List Char) :
    Inv merges vocab word (symbolsOf vocab word)
      ((List.range ((symbolsOf vocab word).length - 1)).flatMap (pushPair merges (symbolsOf vocab word))) (liveOf vocab word) := by
  have hsize : (symbolsOf vocab word).length = word.length := List.length_mapIdx
  have hlength : (liveOf vocab word).length = word.length := List.length_mapIdx
  have hholds : Holds word (symbolsOf vocab word) (liveOf vocab word) := holds_symbolsOf word
  refine ⟨hholds, ?_, by rw [liveOf_snd], hsize, Nat.le_of_eq hlength, ?_⟩
  · intro front a b back hsplit k m hrule
    rw [hsplit] at hholds
    refine List.mem_flatMap.mpr ⟨a.1, ?_, hholds.pushPair hrule⟩
    have hb : b.1 ∈ (liveOf vocab word).map Prod.fst := List.mem_map_of_mem (by simp [hsplit])
    have hsorted := (List.pairwise_cons.mp (List.pairwise_append.mp hholds.sorted).2.1).1 b List.mem_cons_self
    rw [liveOf_fst, List.mem_range] at hb
    rw [List.mem_range, hsize]
    omega
  · rw [liveOf_fst]
    cases word <;> simp [List.range_succ_eq_map]

def naiveWord (merges : Merges) (vocab : Vocab) (unknown : Unknown) (word : List Char) : List Nat :=
  (naive (rule merges) (word.map (pieceOf vocab))).flatMap (emitPiece vocab unknown)

theorem emit_eq {unknown : Unknown} {s : Symbol} {p : Piece} (h : p.Is word s) : emit vocab unknown word s = emitPiece vocab unknown p := by
  cases p with
  | token id =>
    have hid : s.id = some id := h
    simp only [emit, hid, emitPiece]
  | unknown c =>
    cases unknown with
    | byteTokens =>
      simp only [emit, h.1, h.2, emitPiece]
    | drop =>
      simp only [emit, h.1, emitPiece]

/-- **The ids of a word** are those of the naive way. -/
theorem mergeWord_eq (merges : Merges) (vocab : Vocab) (heap : PopRule Candidate Candidate.le) (unknown : Unknown) (word : List Char) :
    mergeWord merges vocab heap unknown word = naiveWord merges vocab unknown word := by
  obtain ⟨live, h⟩ := (work merges).run_induction heap (fun symbols queue => ∃ live, Inv merges vocab word symbols queue live)
    (fun symbols queue c rest ⟨live, h⟩ hpop hstep => ⟨live, h.stale heap hpop hstep⟩)
    (fun symbols queue c rest symbols' new ⟨live, h⟩ hpop hstep => h.step heap hpop hstep)
    ⟨liveOf vocab word, inv_symbolsOf merges vocab word⟩
  unfold mergeWord naiveWord
  dsimp only
  generalize (work merges).run heap (symbolsOf vocab word) _ = symbols at h ⊢
  have hempty : symbols.isEmpty = word.isEmpty := by
    rw [Bool.eq_iff_iff, List.isEmpty_iff_length_eq_zero, List.isEmpty_iff_length_eq_zero, h.size]
  have hlength : (live.map Prod.fst).length ≤ symbols.length := by
    rw [List.length_map, h.size]
    exact h.length
  rw [hempty, ← h.head, h.holds.linked.follow_eq hlength, ← h.same, h.covers.stop, List.flatMap_map, List.flatMap_map]
  refine List.flatMap_congr fun x hx => ?_
  obtain ⟨s, hs, -, hp⟩ := h.holds.piece x hx
  rw [hs]
  exact emit_eq hp

end

end Cuca.Local.Tokenizer.Bpe
