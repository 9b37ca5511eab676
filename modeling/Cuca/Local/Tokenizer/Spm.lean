import Cuca.Lib.Linked
import Cuca.Lib.WorkQueue
import Cuca.Local.Tokenizer.Vocab

/-!
# SentencePiece merging

The characters of a text are merged, the highest score first and the leftmost pair of those, when the text of both is a token. A
candidate is stale when one of its symbols is gone or their length is not what it was.

Offsets and lengths are counted in characters; scores are any total order, as `f32::total_cmp` is one.

* `Symbol`, `Bigram`, `mergeStep` : one round of the loop;
* `tokenize` : the ids of an escaped text;
* `encodeFragment` : those of a fragment.
-/

namespace Cuca.Local.Tokenizer.Spm
open WorkQueue

/-- `SPACE_MARK` -/
def spaceMark : Char := '\u2581'

/-- A range of the text, empty once it is merged away. -/
structure Symbol where
  start : Nat
  len : Nat
  prev : Option Nat
  next : Option Nat

/-- A merge of two neighbours, with the length of both. -/
structure Bigram (K : Type) where
  score : K
  left : Nat
  right : Nat
  size : Nat

variable {K : Type}

def Bigram.le [LT K] (c c' : Bigram K) : Prop := c'.score < c.score ∨ c.score = c'.score ∧ c.left ≤ c'.left

section
variable (scores : List K) (vocab : Vocab) (text : List Char)

def slice (start len : Nat) : List Char := (text.drop start).take len

/-- The candidate of two neighbours, when their text is a token. -/
def tryAddBigram (symbols : List Symbol) (left right : Option Nat) : List (Bigram K) :=
  Option.toList do
    let left ← left
    let right ← right
    let a ← symbols[left]?
    let b ← symbols[right]?
    let id ← vocab.get (slice text a.start (a.len + b.len))
    let score ← scores[id]?
    return ⟨score, left, right, a.len + b.len⟩

/-- The symbols with two of them merged. -/
def link (symbols : List Symbol) (left right : Nat) (b : Symbol) : List Symbol :=
  let symbols := symbols.modify left fun a => { a with len := a.len + b.len, next := b.next }
  let symbols := symbols.modify right fun b => { b with len := 0 }
  match b.next with
  | some after => symbols.modify after fun s => { s with prev := some left }
  | none => symbols

/-- One candidate: nothing if it is stale, else the symbols after merging and the new candidates. -/
def mergeStep (symbols : List Symbol) (bigram : Bigram K) : Option (List Symbol × List (Bigram K)) := do
  let a ← symbols[bigram.left]?
  let b ← symbols[bigram.right]?
  guard (a.len ≠ 0 ∧ b.len ≠ 0 ∧ a.len + b.len = bigram.size)
  let symbols := link symbols bigram.left bigram.right b
  let before := symbols[bigram.left]?.bind Symbol.prev
  return (symbols, tryAddBigram scores vocab text symbols before (some bigram.left) ++
    tryAddBigram scores vocab text symbols (some bigram.left) b.next)

variable {scores vocab text}

theorem mergeStep_some {symbols symbols' : List Symbol} {bigram : Bigram K} {new : List (Bigram K)}
    (h : mergeStep scores vocab text symbols bigram = some (symbols', new)) :
    ∃ a b, symbols[bigram.left]? = some a ∧ symbols[bigram.right]? = some b ∧ a.len ≠ 0 ∧ b.len ≠ 0 ∧
      a.len + b.len = bigram.size ∧ symbols' = link symbols bigram.left bigram.right b ∧
      new = tryAddBigram scores vocab text symbols' (symbols'[bigram.left]?.bind Symbol.prev) (some bigram.left) ++
        tryAddBigram scores vocab text symbols' (some bigram.left) b.next := by
  simp only [mergeStep, Option.bind_eq_bind, Option.bind_eq_some_iff, Option.guard_eq_some', Option.pure_def, Option.some.injEq,
    Prod.mk.injEq] at h
  obtain ⟨a, ha, b, hb, -, ⟨hleft, hright, hsize⟩, rfl, rfl⟩ := h
  exact ⟨a, b, ha, hb, hleft, hright, hsize, rfl, rfl⟩

def Symbol.live (s : Symbol) : Bool := s.len != 0

theorem countP_link {symbols : List Symbol} {left right : Nat} {a b : Symbol} (ha : symbols[left]? = some a)
    (hb : symbols[right]? = some b) (hleft : a.len ≠ 0) (hright : b.len ≠ 0) :
    (link symbols left right b).countP Symbol.live < symbols.countP Symbol.live := by
  have hmodify := @countP_modify _ Symbol.live (fun a => { a with len := a.len + b.len, next := b.next }) symbols left fun x hx => by
    obtain rfl := Option.some.inj (ha.symm.trans hx)
    simp only [Symbol.live]
    rw [bne_iff_ne.mpr hleft, bne_iff_ne]
    omega
  obtain ⟨b', hb', hlive⟩ : ∃ b', (symbols.modify left fun a => { a with len := a.len + b.len, next := b.next })[right]? = some b' ∧
      b'.live = true := by
    rw [List.getElem?_modify, hb]
    split
    · exact ⟨_, rfl, by simp [Symbol.live, hright]⟩
    · exact ⟨_, rfl, by simp [Symbol.live, hright]⟩
  have hlt := countP_modify_lt Symbol.live (fun b => { b with len := 0 }) hb' hlive rfl
  unfold link
  dsimp only
  rw [hmodify] at hlt
  split
  · rw [countP_modify]
    · exact hlt
    · exact fun _ _ => rfl
  · exact hlt

variable (scores vocab text)

/-- Each merge leaves one symbol less. -/
def work : Work (List Symbol) (Bigram K) where
  step := mergeStep scores vocab text
  size := List.countP Symbol.live
  shrinks := by
    intro symbols bigram symbols' new h
    obtain ⟨a, b, ha, hb, hleft, hright, -, rfl, -⟩ := mergeStep_some h
    exact countP_link ha hb hleft hright

def symbolsOf : List Symbol :=
  text.mapIdx fun i _ =>
    { start := i
      len := 1
      prev := if i = 0 then none else some (i - 1)
      next := if i + 1 = text.length then none else some (i + 1) }

/-- The ids of a symbol. -/
def emit (symbol : Symbol) : List Nat :=
  match vocab.get (slice text symbol.start symbol.len) with
  | some id => [id]
  | none => vocab.pushByteTokens (slice text symbol.start symbol.len)

/-- The ids of an escaped text. -/
def tokenize [LT K] (heap : PopRule (Bigram K) Bigram.le) : List Nat :=
  let symbols := symbolsOf text
  if symbols.isEmpty then []
  else
    let queue := (List.range (symbols.length - 1)).flatMap fun i => tryAddBigram scores vocab text symbols (some i) (some (i + 1))
    let symbols := (work scores vocab text).run heap symbols queue
    let order := follow (fun i => symbols[i]?.bind Symbol.next) symbols.length (some 0)
    order.flatMap fun i => (symbols[i]?.map (emit vocab text)).getD []

end

end Cuca.Local.Tokenizer.Spm
