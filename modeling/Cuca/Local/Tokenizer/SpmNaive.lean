import Cuca.Local.Tokenizer.BpeNaive
import Cuca.Local.Tokenizer.Spm
import Mathlib.Order.Synonym

/-!
# SentencePiece merging, the naive way

The pieces of a text are merged over and over, among all neighbours whose text is a token those of the highest score, the leftmost of
those.

* `rule`, `naiveText` : what may be merged, and the ids of a text;
* `Holds` : the symbols that are left are the pieces, in order;
* `Queued` : a candidate knows the score of as much text behind its left symbol as it had;
* `tokenize_eq` : the loop ends with the pieces of the naive way;
* `merging_naive` : so do both of the loops.
-/

namespace Cuca.Local.Tokenizer.Spm
open Merging WorkQueue OrderDual

section
variable {K : Type} [LinearOrder K] (scores : List K) (vocab : Vocab)

/-- The score of a text that is a token. -/
def scoreOf (piece : List Char) : Option K := do
  let id ← vocab.get piece
  scores[id]?

def rule (a b : List Char) : Option (Kᵒᵈ × List Char) := (scoreOf scores vocab (a ++ b)).map fun score => (toDual score, a ++ b)

def emitPiece (piece : List Char) : List Nat :=
  match vocab.get piece with
  | some id => [id]
  | none => vocab.pushByteTokens piece

def naiveText (text : List Char) : List Nat := (naive (rule scores vocab) (text.map fun c => [c])).flatMap (emitPiece vocab)

/-- The candidates of the queue. -/
def tag : Tagging (List Char) Kᵒᵈ (Bigram K) where
  make a b score := ⟨ofDual score, a.1, b.1, a.2.length + b.2.length⟩
  key c := toDual c.score
  left := Bigram.left
  key_make _ _ _ := rfl
  left_make _ _ _ := rfl

variable {scores vocab}

theorem le_of_bigram {c c' : Bigram K} (h : c.le c') : tag.le c c' := by
  rcases h with h | ⟨heq, h⟩
  · exact .inl (toDual_lt_toDual.mpr h)
  · exact .inr ⟨congrArg toDual heq, h⟩

theorem rule_some {a b m : List Char} {score : Kᵒᵈ} (h : rule scores vocab a b = some (score, m)) :
    m = a ++ b ∧ scoreOf scores vocab (a ++ b) = some (ofDual score) := by
  obtain ⟨s, hs, heq⟩ := Option.map_eq_some_iff.mp h
  obtain ⟨rfl, rfl⟩ := Prod.mk.inj heq
  exact ⟨rfl, hs⟩

/-! ## The symbols that are left -/

abbrev nextOf (symbols : List Symbol) (i : Nat) : Option Nat := symbols[i]?.bind Symbol.next

abbrev prevOf (symbols : List Symbol) (i : Nat) : Option Nat := symbols[i]?.bind Symbol.prev

/-- The pieces are the symbols that are left, linked in order, and all of the text. -/
structure Holds (text : List Char) (symbols : List Symbol) (live : List (Nat × List Char)) : Prop where
  linked : Linked (nextOf symbols) (prevOf symbols) none (live.map Prod.fst)
  sorted : live.Pairwise (·.1 < ·.1)
  text : (live.map Prod.snd).flatten = text
  piece : ∀ front x back, live = front ++ x :: back → x.2 ≠ [] ∧ ∃ s, symbols[x.1]? = some s ∧
    s.start = (front.map Prod.snd).flatten.length ∧ s.len = x.2.length
  alive : ∀ (i : Nat) s, symbols[i]? = some s → s.len ≠ 0 → i ∈ live.map Prod.fst

variable {text : List Char} {symbols : List Symbol} {live front back : List (Nat × List Char)} {a b : Nat × List Char}

theorem Holds.pair (h : Holds text symbols (front ++ a :: b :: back)) :
    ∃ s t, symbols[a.1]? = some s ∧ symbols[b.1]? = some t ∧ s.len = a.2.length ∧ t.len = b.2.length ∧ s.len ≠ 0 ∧ t.len ≠ 0 ∧
      s.next = some b.1 ∧ slice text s.start (s.len + t.len) = a.2 ++ b.2 := by
  obtain ⟨hane, s, hs, hstart, hlen⟩ := h.piece front a (b :: back) rfl
  obtain ⟨hbne, t, ht, -, hlen'⟩ := h.piece (front ++ [a]) b back (by simp)
  have hlinked := h.linked
  rw [List.map_append, List.map_cons, List.map_cons] at hlinked
  have hnext := hlinked.at_split.2
  rw [nextOf, hs, Option.bind_some, List.head?_cons] at hnext
  refine ⟨s, t, hs, ht, hlen, hlen', ?_, ?_, hnext, ?_⟩
  · rw [hlen]
    exact fun hzero => hane (List.length_eq_zero_iff.mp hzero)
  · rw [hlen']
    exact fun hzero => hbne (List.length_eq_zero_iff.mp hzero)
  · rw [slice, ← h.text, hstart, hlen, hlen', List.map_append, List.flatten_append, List.drop_left, List.map_cons, List.map_cons,
      List.flatten_cons, List.flatten_cons, ← List.append_assoc, ← List.length_append, List.take_left]

theorem Holds.tryAddBigram (h : Holds text symbols (front ++ a :: b :: back)) {score : Kᵒᵈ} {m : List Char}
    (hrule : rule scores vocab a.2 b.2 = some (score, m)) :
    tag.make a b score ∈ tryAddBigram scores vocab text symbols (some a.1) (some b.1) := by
  obtain ⟨s, t, hs, ht, hlen, hlen', -, -, -, htext⟩ := h.pair
  obtain ⟨-, hscore⟩ := rule_some hrule
  obtain ⟨id, hid, hscore⟩ := Option.bind_eq_some_iff.mp hscore
  rw [hlen, hlen'] at htext
  simp [Spm.tryAddBigram, hs, ht, htext, hid, hscore, hlen, hlen', tag]

theorem Holds.step (h : Holds text symbols (front ++ a :: b :: back)) {score : Kᵒᵈ} :
    mergeStep scores vocab text symbols (tag.make a b score) ≠ none := by
  obtain ⟨s, t, hs, ht, hlen, hlen', hs0, ht0, -⟩ := h.pair
  have hane : a.2 ≠ [] := fun hnil => hs0 (by rw [hlen, hnil]; rfl)
  have hbne : b.2 ≠ [] := fun hnil => ht0 (by rw [hlen', hnil]; rfl)
  simp [mergeStep, tag, hs, ht, hlen, hlen', hane, hbne]

theorem Holds.current (h : Holds text symbols live) {left right : Nat} {s : Symbol} (hs : symbols[left]? = some s)
    (hlen : s.len ≠ 0) (hnext : s.next = some right) : ∃ front p q back, live = front ++ (left, p) :: (right, q) :: back := by
  obtain ⟨⟨left', p⟩, hmem, rfl⟩ := List.mem_map.mp (h.alive left s hs hlen)
  obtain ⟨front, tail, rfl⟩ := List.append_of_mem hmem
  have hlinked := h.linked
  rw [List.map_append, List.map_cons] at hlinked
  have hhead := hlinked.at_split.2
  rw [nextOf, hs, Option.bind_some, hnext] at hhead
  rcases tail with _ | ⟨⟨right', q⟩, back⟩
  · exact nomatch hhead
  · obtain rfl := Option.some.inj hhead
    exact ⟨front, p, q, back, rfl⟩

theorem getElem?_link {left right : Nat} {t : Symbol} (i : Nat) :
    (link symbols left right t)[i]? = symbols[i]?.map fun s =>
      { start := s.start
        len := if i = right then 0 else if i = left then s.len + t.len else s.len
        prev := if some i = t.next then some left else s.prev
        next := if i = left then t.next else s.next } := by
  unfold link
  dsimp only
  rcases hnext : t.next with _ | after
  · rw [getElem?_modify_map, getElem?_modify_map, Option.map_map]
    congr 1
    funext s
    simp only [Function.comp, reduceCtorEq, if_false]
    split_ifs <;> rfl
  · rw [getElem?_modify_map, getElem?_modify_map, getElem?_modify_map, Option.map_map, Option.map_map]
    simp only [Option.some.injEq]
    congr 1
    funext s
    simp only [Function.comp]
    split_ifs <;> rfl

theorem length_link (symbols : List Symbol) (left right : Nat) (t : Symbol) : (link symbols left right t).length = symbols.length := by
  unfold link
  dsimp only
  split
  · rw [List.length_modify, List.length_modify, List.length_modify]
  · rw [List.length_modify, List.length_modify]

/-- **Merging** two neighbours leaves the left one, with the text of both. -/
theorem Holds.merge (h : Holds text symbols (front ++ a :: b :: back)) {t : Symbol} (ht : symbols[b.1]? = some t) :
    Holds text (link symbols a.1 b.1 t) (front ++ (a.1, a.2 ++ b.2) :: back) := by
  have hsorted := List.pairwise_map.mpr h.sorted
  rw [List.map_append, List.map_cons, List.map_cons] at hsorted
  have hlinked := h.linked
  rw [List.map_append, List.map_cons, List.map_cons] at hlinked
  have hfst : (front ++ (a.1, a.2 ++ b.2) :: back).map Prod.fst = front.map Prod.fst ++ a.1 :: back.map Prod.fst := by
    rw [List.map_append, List.map_cons]
  have hnextb : nextOf symbols b.1 = t.next := by rw [nextOf, ht]; rfl
  obtain ⟨-, htail, hfront⟩ := List.pairwise_append.mp h.sorted
  obtain ⟨hatail, htail⟩ := List.pairwise_cons.mp htail
  obtain ⟨hbtail, -⟩ := List.pairwise_cons.mp htail
  have hab : a.1 < b.1 := hatail b List.mem_cons_self
  obtain ⟨s, t', hs, ht', hlen, hlen', -, -, -⟩ := h.pair
  obtain rfl := Option.some.inj (ht.symm.trans ht')
  refine ⟨?_, ?_, ?_, fun front' x back' hsplit => ?_, fun i s' hs' hlen => ?_⟩
  · rw [hfst]
    refine (Linked.unlink (hsorted.imp Nat.ne_of_lt) hlinked).congr (fun i _ => ?_) fun i hi => ?_
    · rw [nextOf, getElem?_link, hnextb]
      by_cases hi : i = a.1
      · rw [hi, hs, if_pos rfl, Option.map_some, Option.bind_some]
        exact if_pos rfl
      · rw [if_neg hi, nextOf]
        cases symbols[i]? with
        | none => rfl
        | some s => exact if_neg hi
    · have hlive : i ∈ (front ++ a :: b :: back).map Prod.fst := by
        rw [List.map_append, List.map_cons, List.map_cons]
        simp only [List.mem_append, List.mem_cons] at hi ⊢
        tauto
      obtain ⟨x, hx, rfl⟩ := List.mem_map.mp hlive
      obtain ⟨front', back', hsplit⟩ := List.append_of_mem hx
      obtain ⟨-, s, hs, -⟩ := h.piece front' x back' hsplit
      rw [prevOf, getElem?_link, hnextb, prevOf, hs]
      rfl
  · refine List.pairwise_map.mp ?_
    rw [hfst]
    exact hsorted.sublist (((List.sublist_cons_self _ _).cons_cons _).append_left _)
  · rw [← h.text]
    simp
  · have hother (front₀ back₀ : List (Nat × List Char)) (hx : front ++ a :: b :: back = front₀ ++ x :: back₀) (hxa : x.1 ≠ a.1)
        (hxb : x.1 ≠ b.1) (hflat : (front₀.map Prod.snd).flatten.length = (front'.map Prod.snd).flatten.length) :
        x.2 ≠ [] ∧ ∃ s, (link symbols a.1 b.1 t)[x.1]? = some s ∧ s.start = (front'.map Prod.snd).flatten.length ∧
          s.len = x.2.length := by
      obtain ⟨hne, s, hs, hstart, hlen⟩ := h.piece front₀ x back₀ hx
      refine ⟨hne, ?_⟩
      rw [getElem?_link, hs, Option.map_some]
      refine ⟨_, rfl, hstart.trans hflat, ?_⟩
      dsimp only
      rw [if_neg hxb, if_neg hxa, hlen]
    have hmerged : (a.2 ++ b.2) ≠ [] ∧ ∃ s, (link symbols a.1 b.1 t)[a.1]? = some s ∧
        s.start = (front.map Prod.snd).flatten.length ∧ s.len = (a.2 ++ b.2).length := by
      obtain ⟨hne, s', hs', hstart, -⟩ := h.piece front a (b :: back) rfl
      obtain rfl := Option.some.inj (hs.symm.trans hs')
      refine ⟨fun hnil => hne (List.append_eq_nil_iff.mp hnil).1, ?_⟩
      rw [getElem?_link, hs, Option.map_some]
      refine ⟨_, rfl, hstart, ?_⟩
      dsimp only
      rw [if_neg (Nat.ne_of_lt hab), if_pos rfl, List.length_append, hlen, hlen']
    rcases List.append_eq_append_iff.mp hsplit with ⟨mid, rfl, hback⟩ | ⟨mid, rfl, hback⟩
    · rcases mid with _ | ⟨y, mid⟩
      · obtain ⟨rfl, -⟩ := List.cons.inj hback
        rw [List.append_nil]
        exact hmerged
      · obtain ⟨rfl, hrest⟩ := List.cons.inj hback
        obtain rfl : back = mid ++ x :: back' := hrest
        have hbx := hbtail x (by simp)
        exact hother (front ++ a :: b :: mid) back' (by simp) (by omega) (by omega) (by simp [Nat.add_assoc])
    · rcases mid with _ | ⟨y, mid⟩
      · obtain ⟨rfl, -⟩ := List.cons.inj hback
        rw [List.append_nil] at hmerged
        exact hmerged
      · obtain ⟨rfl, -⟩ := List.cons.inj hback
        have hxa := hfront x (by simp) a List.mem_cons_self
        exact hother front' (mid ++ a :: b :: back) (by simp) (by omega) (by omega) rfl
  · rw [getElem?_link] at hs'
    obtain ⟨s, hs, rfl⟩ := Option.map_eq_some_iff.mp hs'
    dsimp only at hlen
    split at hlen
    · exact absurd rfl hlen
    · rename_i hib
      have hlive : i ∈ (front ++ a :: b :: back).map Prod.fst := by
        by_cases hia : i = a.1
        · simp [hia]
        · rw [if_neg hia] at hlen
          exact h.alive i s hs hlen
      rw [List.map_append, List.map_cons, List.map_cons] at hlive
      rw [hfst]
      simp only [List.mem_append, List.mem_cons] at hlive ⊢
      tauto

/-! ## The candidates -/

/-- What a candidate knows of its symbols, whether it is stale or not. -/
def Queued (scores : List K) (vocab : Vocab) (text : List Char) (symbols : List Symbol) (c : Bigram K) : Prop :=
  ∃ s t, symbols[c.left]? = some s ∧ symbols[c.right]? = some t ∧ scoreOf scores vocab (slice text s.start c.size) = some c.score ∧
    (s.len ≠ 0 → t.len ≠ 0 → s.next = some c.right)

theorem queued_tryAddBigram {left right : Nat} (hnext : nextOf symbols left = some right) {c : Bigram K}
    (h : c ∈ tryAddBigram scores vocab text symbols (some left) (some right)) : Queued scores vocab text symbols c := by
  rw [tryAddBigram, Option.mem_toList] at h
  simp only [Option.bind_eq_bind, Option.bind_some, Option.bind_eq_some_iff, Option.pure_def, Option.some.injEq] at h
  obtain ⟨s, hs, t, ht, id, hid, score, hscore, rfl⟩ := h
  rw [nextOf, hs, Option.bind_some] at hnext
  exact ⟨s, t, hs, ht, Option.bind_eq_some_iff.mpr ⟨id, hid, hscore⟩, fun _ _ => hnext⟩

theorem Queued.link {left right : Nat} {s t : Symbol} (hs : symbols[left]? = some s) (ht : symbols[right]? = some t)
    (hleft : s.len ≠ 0) (hnext : s.next = some right) {c : Bigram K} (h : Queued scores vocab text symbols c) :
    Queued scores vocab text (link symbols left right t) c := by
  obtain ⟨u, v, hu, hv, hscore, hlinked⟩ := h
  have hu' := @getElem?_link symbols left right t c.left
  have hv' := @getElem?_link symbols left right t c.right
  rw [hu, Option.map_some] at hu'
  rw [hv, Option.map_some] at hv'
  refine ⟨_, _, hu', hv', hscore, fun hulen hvlen => ?_⟩
  dsimp only at hulen hvlen ⊢
  have hu0 : u.len ≠ 0 := by
    intro hzero
    by_cases hl : c.left = left
    · rw [hl, hs] at hu
      exact hleft (Option.some.inj hu ▸ hzero)
    · rw [if_neg hl, hzero, ite_self] at hulen
      exact hulen rfl
  have hv0 : v.len ≠ 0 := by
    intro hzero
    by_cases hr : c.right = left
    · rw [hr, hs] at hv
      exact hleft (Option.some.inj hv ▸ hzero)
    · rw [if_neg hr, hzero, ite_self] at hvlen
      exact hvlen rfl
  have hold := hlinked hu0 hv0
  by_cases hl : c.left = left
  · -- its right neighbour was merged away
    rw [hl, hs] at hu
    obtain rfl := Option.some.inj hu
    have hr : c.right = right := Option.some.inj (hold.symm.trans hnext)
    exact absurd (if_pos hr) hvlen
  · rw [if_neg hl]
    exact hold

/-- What every round keeps. -/
structure Inv (scores : List K) (vocab : Vocab) (text : List Char) (symbols : List Symbol) (queue : List (Bigram K))
    (live : List (Nat × List Char)) : Prop where
  holds : Holds text symbols live
  covers : Covers (rule scores vocab) tag live queue
  queued : ∀ c ∈ queue, Queued scores vocab text symbols c
  same : naive (rule scores vocab) (live.map Prod.snd) = naive (rule scores vocab) (text.map fun c => [c])
  size : symbols.length = text.length
  length : live.length ≤ text.length
  head : (live.map Prod.fst).head? = if text.isEmpty then none else some 0

variable {queue rest new : List (Bigram K)} {c : Bigram K}

theorem Inv.stale (heap : PopRule (Bigram K) Bigram.le) (h : Inv scores vocab text symbols queue live)
    (hpop : heap.pop queue = some (c, rest)) (hstep : mergeStep scores vocab text symbols c = none) :
    Inv scores vocab text symbols rest live := by
  obtain ⟨hperm, -⟩ := heap.pop_some hpop
  refine ⟨h.holds, h.covers.drop hperm ?_, fun c' hc' => h.queued c' ?_, h.same, h.size, h.length, h.head⟩
  · rintro front a b back rfl score m hrule rfl
    exact h.holds.step hstep
  · exact hperm.subset (List.mem_cons_of_mem _ hc')

/-- **One round** of the loop is one merge of the naive way. -/
theorem Inv.step (heap : PopRule (Bigram K) Bigram.le) (h : Inv scores vocab text symbols queue live) {symbols' : List Symbol}
    (hpop : heap.pop queue = some (c, rest)) (hstep : mergeStep scores vocab text symbols c = some (symbols', new)) :
    ∃ live', Inv scores vocab text symbols' (new ++ rest) live' := by
  obtain ⟨hperm, hfirst⟩ := heap.pop_some hpop
  obtain ⟨s, t, hs, ht, hslen, htlen, hsize, rfl, rfl⟩ := mergeStep_some hstep
  obtain ⟨s', t', hs', ht', hscore, hlinked⟩ := h.queued c (hperm.subset List.mem_cons_self)
  obtain rfl := Option.some.inj (hs.symm.trans hs')
  obtain rfl := Option.some.inj (ht.symm.trans ht')
  have hnext := hlinked hslen htlen
  obtain ⟨front, p, q, back, rfl⟩ := h.holds.current hs hslen hnext
  obtain ⟨s', t', hs', ht', -, -, -, -, -, htext⟩ := h.holds.pair
  obtain rfl := Option.some.inj (hs.symm.trans hs')
  obtain rfl := Option.some.inj (ht.symm.trans ht')
  have hrule : rule scores vocab p q = some (tag.key c, p ++ q) := by
    rw [← hsize, htext] at hscore
    rw [rule, hscore]
    rfl
  have hnaive := h.covers.naive_eq h.holds.sorted (c := c) rfl hrule fun other hother => by
    rcases List.mem_cons.mp (hperm.symm.subset hother) with rfl | hother
    · exact .inr ⟨rfl, Nat.le_refl _⟩
    · exact le_of_bigram (hfirst other hother)
  have hmerged := h.holds.merge ht
  have hlinks := hmerged.linked
  rw [List.map_append, List.map_cons] at hlinks
  obtain ⟨hprev, hafter⟩ := hlinks.at_split
  have hnext' : t.next = (back.map Prod.fst).head? := by
    rw [← hafter, nextOf, getElem?_link, hs]
    exact (if_pos rfl).symm
  have hbefore (front' : List (Nat × List Char)) (z : Nat × List Char) (hfront : front = front' ++ [z]) :
      (link symbols c.left c.right t)[c.left]?.bind Symbol.prev = some z.1 ∧ nextOf (link symbols c.left c.right t) z.1 = some c.left := by
    obtain rfl := hfront
    rw [List.map_append, List.append_assoc] at hlinks
    refine ⟨?_, hlinks.at_split.2⟩
    rw [List.map_append, List.map_cons, List.map_nil, List.getLast?_concat] at hprev
    exact hprev
  refine ⟨front ++ (c.left, p ++ q) :: back, hmerged, ?_, fun c' hc' => ?_, hnaive.symm.trans h.same, (length_link ..).trans h.size,
    ?_, ?_⟩
  · refine h.covers.merge h.holds.sorted hperm rfl (fun front' z hfront k n hk => ?_) fun z back' hback k n hk => ?_
    · rw [(hbefore front' z hfront).1]
      obtain rfl := hfront
      rw [List.append_assoc] at hmerged
      exact List.mem_append_left _ (hmerged.tryAddBigram hk)
    · obtain rfl := hback
      rw [hnext']
      exact List.mem_append_right _ (hmerged.tryAddBigram hk)
  · rcases List.mem_append.mp hc' with hnew | hrest
    · rcases List.mem_append.mp hnew with hnew | hnew
      · rcases List.eq_nil_or_concat' front with rfl | ⟨front', z, hfront⟩
        · rw [show (link symbols c.left c.right t)[c.left]?.bind Symbol.prev = none from hprev] at hnew
          exact nomatch hnew
        · obtain ⟨hz, hznext⟩ := hbefore front' z hfront
          rw [hz] at hnew
          exact queued_tryAddBigram hznext hnew
      · rcases back with _ | ⟨y, back⟩
        · rw [hnext'] at hnew
          exact nomatch hnew
        · rw [hnext'] at hnew
          exact queued_tryAddBigram hafter hnew
    · exact (h.queued c' (hperm.subset (List.mem_cons_of_mem _ hrest))).link hs ht hslen hnext
  · have hlength := h.length
    simp only [List.length_append, List.length_cons] at hlength ⊢
    omega
  · rw [← h.head]
    cases front <;> rfl

/-! ## The loop -/

def liveOf (text : List Char) : List (Nat × List Char) := text.mapIdx fun i c => (i, [c])

theorem liveOf_fst (text : List Char) : (liveOf text).map Prod.fst = List.range text.length :=
  List.ext_getElem (by simp [liveOf]) (by simp [liveOf])

theorem liveOf_snd (text : List Char) : (liveOf text).map Prod.snd = text.map fun c => [c] :=
  List.ext_getElem (by simp [liveOf]) (by simp [liveOf])

theorem getElem?_symbolsOf (text : List Char) (i : Nat) : (symbolsOf text)[i]? = text[i]?.map fun _ =>
    { start := i
      len := 1
      prev := if i = 0 then none else some (i - 1)
      next := if i + 1 = text.length then none else some (i + 1) } := by
  rw [symbolsOf, List.getElem?_mapIdx]

theorem flatten_singletons (text : List Char) : (text.map fun c => [c]).flatten = text := by
  induction text with
  | nil => rfl
  | cons c text ih => rw [List.map_cons, List.flatten_cons, ih]; rfl

theorem holds_symbolsOf (text : List Char) : Holds text (symbolsOf text) (liveOf text) := by
  have hsome (i : Nat) (hi : i < text.length) : text[i]? = some text[i] := List.getElem?_eq_getElem hi
  refine ⟨?_, ?_, ?_, fun front x back hsplit => ?_, fun i s hs _ => ?_⟩
  · rw [liveOf_fst]
    refine Linked.range (fun i hi => ?_) fun i hi => ?_
    · rw [nextOf, getElem?_symbolsOf, hsome i hi, Option.map_some, Option.bind_some]
      dsimp only
      split <;> split <;> first | rfl | omega
    · rw [prevOf, getElem?_symbolsOf, hsome i hi]
      rfl
  · refine List.pairwise_map.mp ?_
    rw [liveOf_fst]
    exact List.pairwise_lt_range
  · rw [liveOf_snd, flatten_singletons]
  · have hx : (liveOf text)[front.length]? = some x := by
      rw [hsplit, List.getElem?_append_right (Nat.le_refl _), Nat.sub_self]
      rfl
    have hfront : (front.map Prod.snd).flatten.length = front.length := by
      have htake : front.map Prod.snd = (text.take front.length).map fun c => [c] := by
        have hall := congrArg (List.take front.length) (liveOf_snd text)
        rw [hsplit, List.map_append, ← List.length_map (f := Prod.snd), List.take_left, List.length_map, ← List.map_take] at hall
        exact hall
      have hlt := (List.getElem?_eq_some_iff.mp hx).1
      rw [liveOf, List.length_mapIdx] at hlt
      rw [htake, flatten_singletons, List.length_take]
      omega
    rw [liveOf, List.getElem?_mapIdx] at hx
    obtain ⟨c, hc, rfl⟩ := Option.map_eq_some_iff.mp hx
    refine ⟨List.cons_ne_nil c [], ?_⟩
    rw [getElem?_symbolsOf, hc, hfront]
    exact ⟨_, rfl, rfl, rfl⟩
  · rw [liveOf_fst, List.mem_range]
    rw [getElem?_symbolsOf] at hs
    obtain ⟨c, hc, -⟩ := Option.map_eq_some_iff.mp hs
    exact (List.getElem?_eq_some_iff.mp hc).1

theorem inv_symbolsOf (scores : List K) (vocab : Vocab) (text : List Char) :
    Inv scores vocab text (symbolsOf text)
      ((List.range ((symbolsOf text).length - 1)).flatMap fun i =>
        tryAddBigram scores vocab text (symbolsOf text) (some i) (some (i + 1))) (liveOf text) := by
  have hsize : (symbolsOf text).length = text.length := List.length_mapIdx
  have hlength : (liveOf text).length = text.length := List.length_mapIdx
  have hholds := holds_symbolsOf text
  refine ⟨hholds, ?_, fun c hc => ?_, by rw [liveOf_snd], hsize, Nat.le_of_eq hlength, ?_⟩
  · intro front a b back hsplit k m hrule
    have ha : a.1 < text.length := by
      rw [← List.mem_range, ← liveOf_fst text, hsplit]
      exact List.mem_map_of_mem (by simp)
    rw [hsplit] at hholds
    have hlinked := hholds.linked
    rw [List.map_append, List.map_cons] at hlinked
    have hnext := hlinked.at_split.2
    rw [nextOf, getElem?_symbolsOf, List.getElem?_eq_getElem ha, Option.map_some, Option.bind_some] at hnext
    dsimp only at hnext
    split at hnext
    · exact nomatch hnext
    · have hb : a.1 + 1 = b.1 := Option.some.inj hnext
      refine List.mem_flatMap.mpr ⟨a.1, ?_, hb ▸ hholds.tryAddBigram hrule⟩
      rw [List.mem_range, hsize]
      omega
  · obtain ⟨i, hi, hc⟩ := List.mem_flatMap.mp hc
    rw [List.mem_range, hsize] at hi
    refine queued_tryAddBigram ?_ hc
    rw [nextOf, getElem?_symbolsOf, List.getElem?_eq_getElem (by omega)]
    exact if_neg (by omega)
  · rw [liveOf_fst]
    cases text <;> simp [List.range_succ_eq_map]

theorem emit_eq {s : Symbol} {piece : List Char} (h : slice text s.start s.len = piece) : emit vocab text s = emitPiece vocab piece := by
  rw [emit, h]
  rfl

/-- **The ids of a text** are those of the naive way. -/
theorem tokenize_eq (scores : List K) (vocab : Vocab) (heap : PopRule (Bigram K) Bigram.le) (text : List Char) :
    tokenize scores vocab text heap = naiveText scores vocab text := by
  obtain ⟨live, h⟩ := (work scores vocab text).run_induction heap (fun symbols queue => ∃ live, Inv scores vocab text symbols queue live)
    (fun symbols queue c rest ⟨live, h⟩ hpop hstep => ⟨live, h.stale heap hpop hstep⟩)
    (fun symbols queue c rest symbols' new ⟨live, h⟩ hpop hstep => h.step heap hpop hstep)
    ⟨liveOf text, inv_symbolsOf scores vocab text⟩
  unfold tokenize naiveText
  dsimp only
  rcases eq_or_ne text [] with rfl | hne
  · rw [List.map_nil, naive_none rfl]
    rfl
  · have hsymbols : (symbolsOf text).isEmpty = false := by
      rw [symbolsOf, List.isEmpty_eq_false_iff, Ne, ← List.length_eq_zero_iff, List.length_mapIdx, List.length_eq_zero_iff]
      exact hne
    rw [hsymbols, if_neg Bool.false_ne_true]
    generalize (work scores vocab text).run heap (symbolsOf text) _ = symbols at h ⊢
    have hhead : (live.map Prod.fst).head? = some 0 := by
      rw [h.head, if_neg (by simpa using hne)]
    have hlength : (live.map Prod.fst).length ≤ symbols.length := by
      rw [List.length_map, h.size]
      exact h.length
    rw [← hhead, h.holds.linked.follow_eq hlength, ← h.same, h.covers.stop, List.flatMap_map, List.flatMap_map]
    refine List.flatMap_congr fun x hx => ?_
    obtain ⟨front, back, hsplit⟩ := List.append_of_mem hx
    obtain ⟨-, s, hs, hstart, hlen⟩ := h.holds.piece front x back hsplit
    rw [hs]
    refine emit_eq ?_
    rw [slice, ← h.holds.text, hsplit, List.map_append, List.flatten_append, hstart, List.drop_left, List.map_cons, List.flatten_cons,
      hlen, List.take_left]

end

/-! ## Both -/

/-- **Merging** with a queue gives the ids of the naive way, in both of the tokenizers. -/
theorem merging_naive :
    (∀ (heap : PopRule Bpe.Candidate Bpe.Candidate.le) (merges : Merges) (vocab : Vocab) (unknown : Bpe.Unknown) (word : List Char),
      Bpe.mergeWord merges vocab heap unknown word = Bpe.naiveWord merges vocab unknown word) ∧
    ∀ (K : Type) [LinearOrder K] (heap : PopRule (Bigram K) Bigram.le) (scores : List K) (vocab : Vocab) (text : List Char),
      tokenize scores vocab text heap = naiveText scores vocab text :=
  ⟨fun heap merges vocab unknown word => Bpe.mergeWord_eq merges vocab heap unknown word,
    fun _ _ heap scores vocab text => tokenize_eq scores vocab heap text⟩

end Cuca.Local.Tokenizer.Spm
