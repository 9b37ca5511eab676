import Cuca.Lib.Linked
import Cuca.Lib.WorkQueue
import Cuca.Local.Tokenizer.Vocab

/-!
# Byte-pair merging

A word is a linked list of symbols in an array. A heap holds candidates for merging, and gives out the one of the lowest rank, the
leftmost of those; candidates whose symbols were merged since are dropped.

Offsets into a word are counted in characters.

* `Merges`, `Merges.new` : the rules, by the ids of the pair;
* `Symbol`, `Candidate`, `mergeStep` : one round of the loop;
* `mergeWord` : the ids of a word.
-/

namespace Cuca.Local.Tokenizer
open WorkQueue

/-- The ranks and the results of the rules, the first rule of a pair first. -/
structure Merges where
  table : List ((Nat × Nat) × (Nat × Nat))

namespace Merges

def get (merges : Merges) (left right : Nat) : Option (Nat × Nat) := merges.table.lookup (left, right)

/-- The two halves of a rule, at the first space that is not its first character. -/
def splitRule : List Char → Option (List Char × List Char)
  | [] => none
  | c :: rest => match rest.findIdx? (· == ' ') with
    | some i => some (c :: rest.take i, rest.drop (i + 1))
    | none => none

/-- Adds the rules from one rank on. -/
def addRules (vocab : Vocab) (strict : Bool) : Nat → List (List Char) → Merges → Except CucaError Merges
  | _, [], merges => .ok merges
  | rank, rule :: rules, merges =>
    match splitRule rule with
    | none =>
      let rule := String.ofList rule
      .error (localErr s!"merge rule {rank} is malformed: `{rule}`")
    | some (left, right) =>
      match vocab.get left, vocab.get right, vocab.get (left ++ right) with
      | some leftId, some rightId, some mergedId =>
        let table := if (merges.get leftId rightId).isSome then merges.table
          else merges.table ++ [((leftId, rightId), (rank, mergedId))]
        addRules vocab strict (rank + 1) rules ⟨table⟩
      | _, _, _ =>
        if strict then .error (localErr s!"merge rule {rank} references a token outside the vocabulary")
        else addRules vocab strict (rank + 1) rules merges

def new (vocab : Vocab) (rules : List (List Char)) (strict : Bool) : Except CucaError Merges := addRules vocab strict 0 rules ⟨[]⟩

end Merges

namespace Bpe

/-- A range of the word, with the id when it is a token; not alive once it is merged into its left neighbour. -/
structure Symbol where
  id : Option Nat
  start : Nat
  stop : Nat
  prev : Option Nat
  next : Option Nat
  alive : Bool

/-- Rank, left and right. -/
abbrev Candidate := Nat × Nat × Nat

def Candidate.le (c c' : Candidate) : Prop :=
  c.1 < c'.1 ∨ c.1 = c'.1 ∧ (c.2.1 < c'.2.1 ∨ c.2.1 = c'.2.1 ∧ c.2.2 ≤ c'.2.2)

/-- What to emit for a character that is not a token. -/
inductive Unknown where
  | byteTokens
  | drop
  deriving DecidableEq, Repr

section
variable (merges : Merges) (vocab : Vocab)

/-- The candidate of a symbol with its right neighbour. -/
def pushPair (symbols : List Symbol) (left : Nat) : List Candidate :=
  Option.toList do
    let a ← symbols[left]?
    let right ← a.next
    let b ← symbols[right]?
    let entry ← merges.get (← a.id) (← b.id)
    return (entry.1, left, right)

/-- The symbols with two of them merged. -/
def link (symbols : List Symbol) (left right merged : Nat) (b : Symbol) : List Symbol :=
  let symbols := symbols.modify left fun a => { a with id := some merged, stop := b.stop, next := b.next }
  let symbols := symbols.modify right fun b => { b with alive := false }
  match b.next with
  | some after => symbols.modify after fun s => { s with prev := some left }
  | none => symbols

/-- One candidate: nothing if it is stale, else the symbols after merging and the new candidates. -/
def mergeStep (symbols : List Symbol) : Candidate → Option (List Symbol × List Candidate)
  | (rank, left, right) => do
    let a ← symbols[left]?
    let b ← symbols[right]?
    guard (a.alive ∧ b.alive ∧ a.next = some right)
    let (current, merged) ← merges.get (← a.id) (← b.id)
    guard (current = rank)
    let symbols := link symbols left right merged b
    let before := symbols[left]?.bind Symbol.prev
    return (symbols, before.toList.flatMap (pushPair merges symbols) ++ pushPair merges symbols left)

variable {merges}

theorem mergeStep_some {symbols symbols' : List Symbol} {rank left right : Nat} {new : List Candidate}
    (h : mergeStep merges symbols (rank, left, right) = some (symbols', new)) :
    ∃ a b x y merged, symbols[left]? = some a ∧ symbols[right]? = some b ∧ a.alive = true ∧ b.alive = true ∧ a.next = some right ∧
      a.id = some x ∧ b.id = some y ∧ merges.get x y = some (rank, merged) ∧ symbols' = link symbols left right merged b ∧
      new = (symbols'[left]?.bind Symbol.prev).toList.flatMap (pushPair merges symbols') ++ pushPair merges symbols' left := by
  simp only [mergeStep, Option.bind_eq_bind, Option.bind_eq_some_iff, Option.guard_eq_some', Option.pure_def, Option.some.injEq,
    Prod.mk.injEq] at h
  obtain ⟨a, ha, b, hb, -, ⟨hleft, hright, hnext⟩, x, hx, y, hy, ⟨current, merged⟩, hget, -, rfl, rfl, rfl⟩ := h
  exact ⟨a, b, x, y, merged, ha, hb, hleft, hright, hnext, hx, hy, hget, rfl, rfl⟩

theorem countP_link {symbols : List Symbol} {left right merged : Nat} {b : Symbol} (hb : symbols[right]? = some b)
    (halive : b.alive = true) : (link symbols left right merged b).countP Symbol.alive < symbols.countP Symbol.alive := by
  have hleft := @countP_modify _ Symbol.alive (fun a => { a with id := some merged, stop := b.stop, next := b.next }) symbols left
    fun _ _ => rfl
  obtain ⟨b', hb', halive'⟩ : ∃ b', (symbols.modify left fun a => { a with id := some merged, stop := b.stop, next := b.next })[right]? =
      some b' ∧ b'.alive = true := by
    rw [List.getElem?_modify, hb]
    split
    · exact ⟨_, rfl, halive⟩
    · exact ⟨_, rfl, halive⟩
  have hright := countP_modify_lt Symbol.alive (fun b => { b with alive := false }) hb' halive' rfl
  unfold link
  dsimp only
  rw [hleft] at hright
  split
  · rw [countP_modify]
    · exact hright
    · exact fun _ _ => rfl
  · exact hright

variable (merges)

/-- Each merge leaves one symbol less. -/
def work : Work (List Symbol) Candidate where
  step := mergeStep merges
  size := List.countP Symbol.alive
  shrinks := by
    rintro symbols ⟨rank, left, right⟩ symbols' new h
    obtain ⟨a, b, x, y, merged, -, hb, -, halive, -, -, -, -, rfl, -⟩ := mergeStep_some h
    exact countP_link hb halive

def symbolsOf (word : List Char) : List Symbol :=
  word.mapIdx fun i c =>
    { id := vocab.get [c]
      start := i
      stop := i + 1
      prev := if i = 0 then none else some (i - 1)
      next := if i + 1 < word.length then some (i + 1) else none
      alive := true }

/-- The ids of a symbol. -/
def emit (unknown : Unknown) (word : List Char) (symbol : Symbol) : List Nat :=
  match symbol.id, unknown with
  | some id, _ => [id]
  | none, .byteTokens => vocab.pushByteTokens ((word.drop symbol.start).take (symbol.stop - symbol.start))
  | none, .drop => []

/-- The ids of a word. -/
def mergeWord (heap : PopRule Candidate Candidate.le) (unknown : Unknown) (word : List Char) : List Nat :=
  let symbols := symbolsOf vocab word
  let queue := (List.range (symbols.length - 1)).flatMap (pushPair merges symbols)
  let symbols := (work merges).run heap symbols queue
  let order := follow (fun i => symbols[i]?.bind Symbol.next) symbols.length (if symbols.isEmpty then none else some 0)
  order.flatMap fun i => (symbols[i]?.map (emit vocab unknown word)).getD []

end

end Bpe

end Cuca.Local.Tokenizer
