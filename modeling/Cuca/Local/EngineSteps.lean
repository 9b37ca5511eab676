import Cuca.Lib.Hoare
import Cuca.Local.Engine

/-!
# What the steps of the engine do

* `Trunk.Lawful` : the model's logits are a function of the tokens its cache holds; passes and truncations keep the account of them;
* `Seen` : what a consumer gets to see of a run;
* `Agrees` : tokens that are the greedy ones one after the other;
* `draft_triple`, `verify_triple` : the two halves of a round.
-/

namespace Cuca.Local

/-- The logits that are asked for, after a prefix. -/
def logitsOf {F : Type} (f : List Token → List F) (x tokens : List Token) : Want → Option (List F)
  | .none => none
  | .last => some (f (x ++ tokens))
  | .all => some ((List.range tokens.length).flatMap fun j => f (x ++ tokens.take (j + 1)))

/-- A model whose cache holds tokens, with logits that are a function of them. It may keep less than a truncation asks for, but not
less than its end, and not less than any position of a verification. -/
structure Trunk.Lawful {S F : Type} (t : Trunk S F) (f : List Token → List F) (holds : S → List Token) : Prop where
  width : ∃ vocab, ∀ x, (f x).length = vocab
  forward_ok : ∀ s tokens want tap pass, (t.forwardExt s tokens (holds s).length want tap).2 = .ok pass →
    holds (t.forwardExt s tokens (holds s).length want tap).1 = holds s ++ tokens ∧ pass.logits = logitsOf f (holds s) tokens want
  truncate_le : ∀ s len, (t.truncateCache s len).2 ≤ len ∧ (t.truncateCache s len).2 ≤ (holds s).length
  truncate_holds : ∀ s len, holds (t.truncateCache s len).1 = (holds s).take (t.truncateCache s len).2
  truncate_end : ∀ s len, (holds s).length ≤ len → (t.truncateCache s len).2 = (holds s).length
  rollback : ∀ s tokens tap pass, (t.forwardExt s tokens (holds s).length .all tap).2 = .ok pass → tokens.length ≤ t.rollbackRows →
    ∀ len, (holds s).length < len → len ≤ (holds s).length + tokens.length →
      (t.truncateCache (t.forwardExt s tokens (holds s).length .all tap).1 len).2 = len
  checkpoint : ∀ s, holds (t.checkpoint s) = holds s

/-- A model whose passes do not fail while there is room. -/
def Trunk.Total {S F : Type} (t : Trunk S F) (holds : S → List Token) (capacity : Nat) : Prop :=
  ∀ s tokens want tap, tokens ≠ [] → (holds s).length + tokens.length ≤ capacity →
    ∃ pass, (t.forwardExt s tokens (holds s).length want tap).2 = .ok pass

theorem Trunk.Lawful.truncate_zero {S F : Type} {t : Trunk S F} {f : List Token → List F} {holds : S → List Token}
    (h : t.Lawful f holds) (s : S) : holds (t.truncateCache s 0).1 = [] := by
  rw [h.truncate_holds, Nat.le_zero.mp (h.truncate_le s 0).1, List.take_zero]

namespace Engine
open Hoare
variable {m : Machine}

/-! ## What a consumer sees -/

structure Seen (m : Machine) where
  parser : m.P
  pushed : List Token
  delivered : List (Except CucaError m.B)
  tick : Nat
  promptCache : Option (Nat × Nat)
  usage : Option Usage

def seen (s : Run m) : Seen m := ⟨s.parser, s.pushed, s.delivered, s.tick, s.promptCache, s.usage⟩

/-- The run, with another view of it. -/
def withSeen (s : Run m) (o : Seen m) : Run m :=
  { s with
    parser := o.parser
    pushed := o.pushed
    delivered := o.delivered
    tick := o.tick
    promptCache := o.promptCache
    usage := o.usage }

@[simp] theorem seen_withSeen (s : Run m) (o : Seen m) : seen (withSeen s o) = o := rfl
@[simp] theorem engine_withSeen (s : Run m) (o : Seen m) : (withSeen s o).engine = s.engine := rfl
@[simp] theorem pushed_withSeen (s : Run m) (o : Seen m) : (withSeen s o).pushed = o.pushed := rfl
@[simp] theorem logits_withSeen (s : Run m) (o : Seen m) : (withSeen s o).logits = s.logits := rfl
@[simp] theorem forced_withSeen (s : Run m) (o : Seen m) : (withSeen s o).forced = s.forced := rfl
@[simp] theorem withSeen_withSeen (s : Run m) (o o' : Seen m) : withSeen (withSeen s o) o' = withSeen s o' := rfl

/-- Items that are sent until the consumer is gone. -/
def sendSeen (w : World) : List (Except CucaError m.B) → Seen m → Seen m × Bool
  | [], o => (o, true)
  | item :: items, o =>
    if w.gone o.tick then (o, false) else sendSeen w items { o with delivered := o.delivered ++ [item], tick := o.tick + 1 }

def pushSeen (w : World) (o : Seen m) (id : Token) : Seen m × Bool :=
  sendSeen w (m.parser.push o.parser id).2 { o with parser := (m.parser.push o.parser id).1, pushed := o.pushed ++ [id] }

theorem sendSeen_keeps (w : World) (items : List (Except CucaError m.B)) (o : Seen m) :
    (sendSeen w items o).1.pushed = o.pushed ∧ (sendSeen w items o).1.parser = o.parser ∧
      (sendSeen w items o).1.promptCache = o.promptCache := by
  induction items generalizing o with
  | nil => exact ⟨rfl, rfl, rfl⟩
  | cons item items ih =>
    rw [sendSeen]
    split
    · exact ⟨rfl, rfl, rfl⟩
    · exact ih _

theorem pushSeen_pushed (w : World) (o : Seen m) (id : Token) : (pushSeen w o id).1.pushed = o.pushed ++ [id] :=
  (sendSeen_keeps w _ _).1

theorem pushSeen_promptCache (w : World) (o : Seen m) (id : Token) : (pushSeen w o id).1.promptCache = o.promptCache :=
  (sendSeen_keeps w _ _).2.2

theorem sendAll_triple (w : World) (items : List (Except CucaError m.B)) (s : Run m) :
    Triple (· = s) (items.forM (send w)) (fun _ s' => sendSeen w items (seen s) = (seen s', true) ∧ s' = withSeen s (seen s'))
      (fun stop s' => stop = .gone ∧ sendSeen w items (seen s) = (seen s', false) ∧ s' = withSeen s (seen s')) := by
  induction items generalizing s with
  | nil => exact Triple.pure fun _ hs => hs ▸ ⟨rfl, rfl⟩
  | cons item items ih =>
    by_cases hgone : w.gone s.tick
    · refine Triple.bind (fun _ _ => False) ?_ fun _ _ h => h.elim
      refine Triple.get fun s' hs' => ?_
      obtain rfl := hs'
      rw [if_pos hgone]
      refine Triple.throw fun s' hs' => ?_
      obtain rfl := hs'
      exact ⟨rfl, by rw [sendSeen, if_pos (show w.gone (seen s').tick = true from hgone)], rfl⟩
    · refine Triple.bind (fun _ s' => s' = { s with delivered := s.delivered ++ [item], tick := s.tick + 1 }) ?_ fun _ => ?_
      · refine Triple.get fun s' hs' => ?_
        obtain rfl := hs'
        rw [if_neg hgone]
        exact Triple.set fun _ _ => rfl
      · have hsend : sendSeen w (item :: items) (seen s) =
            sendSeen w items (seen { s with delivered := s.delivered ++ [item], tick := s.tick + 1 }) := by
          rw [sendSeen, if_neg (show ¬ w.gone (seen s).tick = true from hgone)]
          rfl
        rw [hsend]
        exact ih _

theorem pushToken_triple (w : World) (id : Token) (s : Run m) :
    Triple (· = s) (pushToken w id) (fun _ s' => pushSeen w (seen s) id = (seen s', true) ∧ s' = withSeen s (seen s'))
      (fun stop s' => stop = .gone ∧ pushSeen w (seen s) id = (seen s', false) ∧ s' = withSeen s (seen s')) := by
  refine Triple.get fun s' hs' => ?_
  obtain rfl := hs'
  refine Triple.bind (fun _ s'' => s'' =
    { s' with parser := (m.parser.push s'.parser id).1, pushed := s'.pushed ++ [id] }) (Triple.set fun _ _ => rfl) fun _ => ?_
  exact sendAll_triple w _ _

/-! ## The generator -/

@[simp] theorem seen_setRng (s : Run m) (rng : m.G) : seen (Run.setRng s rng) = seen s := by
  unfold Run.setRng
  split <;> rfl

@[simp] theorem model_setRng (s : Run m) (rng : m.G) : (Run.setRng s rng).engine.model = s.engine.model := by
  unfold Run.setRng
  split <;> rfl

@[simp] theorem cached_setRng (s : Run m) (rng : m.G) : (Run.setRng s rng).engine.cached = s.engine.cached := by
  unfold Run.setRng
  split <;> rfl

@[simp] theorem drafter_setRng (s : Run m) (rng : m.G) : (Run.setRng s rng).engine.drafter = s.engine.drafter := by
  unfold Run.setRng
  split <;> rfl

@[simp] theorem logits_setRng (s : Run m) (rng : m.G) : (Run.setRng s rng).logits = s.logits := by
  unfold Run.setRng
  split <;> rfl

@[simp] theorem forced_setRng (s : Run m) (rng : m.G) : (Run.setRng s rng).forced = s.forced := by
  unfold Run.setRng
  split <;> rfl

/-! ## Drafts -/

theorem draftChain_length (w : World) (job : Job m) (n k : Nat) (x : m.X) (d d' : Drafting m) {drafts : List Token}
    (h : draftChain w job n k x d = (d', .ok drafts)) : drafts.length ≤ k := by
  induction k generalizing x d d' drafts with
  | zero =>
    obtain ⟨-, heq⟩ := Prod.mk.inj h
    obtain rfl := Except.ok.inj heq
    exact Nat.le_refl 0
  | succ k ih =>
    rw [draftChain] at h
    split at h
    · obtain ⟨-, heq⟩ := Prod.mk.inj h
      obtain rfl := Except.ok.inj heq
      exact Nat.zero_le _
    · exact nomatch (Prod.mk.inj h).2
    · split at h
      · exact nomatch (Prod.mk.inj h).2
      · obtain ⟨-, heq⟩ := Prod.mk.inj h
        obtain rfl := Except.ok.inj heq
        exact Nat.zero_le _
      · split at h
        · rename_i hrest
          obtain ⟨-, heq⟩ := Prod.mk.inj h
          obtain rfl := Except.ok.inj heq
          exact Nat.succ_le_succ (ih _ _ _ hrest)
        · exact nomatch (Prod.mk.inj h).2

theorem draft_triple (w : World) (job : Job m) (budget : Nat) (id : Token) (s : Run m) :
    Triple (· = s) (draft w job budget id) (fun r s' => r.1.length ≤ draftCap w job budget s ∧ ∃ rng, s' = Run.setRng s rng ∨ s' = s)
      (fun stop s' => (∃ fault, stop = .failed .drafter fault) ∧ s.engine.drafter.isSome = true ∧ ∃ rng, s' = Run.setRng s rng) := by
  refine Triple.get fun s' hs' => ?_
  subst s'
  split
  · rename_i d h hd _
    refine Triple.ite (fun _ => ?_) fun _ => Triple.pure fun s' hs' => ⟨Nat.zero_le _, Run.rng s, .inr hs'⟩
    refine Triple.bind (fun _ s'' => ∃ rng, s'' = Run.setRng s rng) (Triple.set fun _ _ => ⟨_, rfl⟩) fun _ => ?_
    rcases hchain : draftChain w job s.rounds (draftCap w job budget s) _ _ with ⟨d', fault | drafts⟩
    · refine Triple.bind (fun _ _ => False) (Triple.throw fun s' hs' => ⟨⟨fault, rfl⟩, (by rw [hd]; rfl), hs'⟩) fun _ _ h => h.elim
    · refine Triple.bind (fun r s' => r = drafts ∧ ∃ rng, s' = Run.setRng s rng) (Triple.pure fun s' hs' => ⟨rfl, hs'⟩) fun r => ?_
      refine Triple.pure fun s' ⟨hr, rng, hs'⟩ => ⟨?_, rng, .inl hs'⟩
      rw [hr]
      exact draftChain_length w job _ _ _ _ _ hchain
  · exact Triple.pure fun s' hs' => ⟨Nat.zero_le _, Run.rng s, .inr hs'⟩

/-! ## Rows -/

theorem length_rows {F : Type} {g : Nat → List F} {width : Nat} (hwidth : ∀ i, (g i).length = width) (n : Nat) :
    ((List.range n).flatMap g).length = n * width := by
  induction n with
  | zero => rw [Nat.zero_mul]; rfl
  | succ n ih =>
    rw [List.range_succ, List.flatMap_append, List.length_append, ih, List.flatMap_singleton, hwidth, Nat.succ_mul]

theorem rowOf_rows {g : Nat → List m.F} {width n j : Nat} (hwidth : ∀ i, (g i).length = width) (hj : j < n) :
    rowOf ((List.range n).flatMap g) width j = g j := by
  obtain ⟨k, rfl⟩ := Nat.exists_eq_add_of_lt hj
  rw [show j + k + 1 = j + (k + 1) by omega, List.range_add, List.flatMap_append, rowOf]
  rw [List.drop_left' (length_rows hwidth j), List.flatMap_map, List.range_succ_eq_map, List.flatMap_cons]
  exact List.take_left' (hwidth j)

theorem rowOf_logits {f : List Token → List m.F} {vocab : Nat} (hwidth : ∀ x, (f x).length = vocab) {x drafts : List Token} {id : Token}
    {rows : List m.F} (hrows : logitsOf f x (id :: drafts) (if drafts.isEmpty then .last else .all) = some rows) {j : Nat}
    (hj : j ≤ drafts.length) :
    rowOf rows (if drafts.isEmpty then rows.length else rows.length / (id :: drafts).length) j = f (x ++ (id :: drafts).take (j + 1)) := by
  cases drafts with
  | nil =>
    obtain rfl := Nat.le_zero.mp hj
    obtain rfl := Option.some.inj hrows
    show (List.drop (0 * (f (x ++ [id])).length) (f (x ++ [id]))).take (f (x ++ [id])).length = f (x ++ [id])
    rw [Nat.zero_mul, List.drop_zero, List.take_length]
  | cons d drafts =>
    obtain rfl := Option.some.inj hrows
    show rowOf _ (_ / _) j = _
    rw [length_rows fun i => hwidth _, Nat.mul_div_cancel_left vocab (show 0 < (id :: d :: drafts).length from Nat.succ_pos _)]
    exact rowOf_rows (g := fun j => f (x ++ (id :: d :: drafts).take (j + 1))) (fun i => hwidth _) (Nat.lt_succ_of_le hj)

/-! ## Verification -/

/-- Tokens that are the greedy ones, each after those before. -/
def Agrees (m : Machine) (f : List Token → List m.F) : List Token → List Token → Prop
  | _, [] => True
  | x, d :: ds => greedy m (f x) = d ∧ Agrees m f (x ++ [d]) ds

theorem oneMore_ok {r : Except Fault (Nat × Option Token) × m.G} {n : Nat} {forced : Option Token} {rng : m.G}
    (h : oneMore r = (.ok (n, forced), rng)) : ∃ n', n = n' + 1 ∧ r = (.ok (n', forced), rng) := by
  obtain ⟨fault | ⟨n', forced'⟩, rng'⟩ := r
  · exact nomatch (Prod.mk.inj h).1
  · obtain ⟨heq, rfl⟩ := Prod.mk.inj h
    obtain ⟨rfl, rfl⟩ := Prod.mk.inj (Except.ok.inj heq)
    exact ⟨n', rfl, rfl⟩

theorem accept_le {job : Job m} {row : Nat → List m.F} {dists : List m.Q} {j : Nat} {drafts : List Token} {rng rng' : m.G} {n : Nat}
    {forced : Option Token} (h : accept job row dists j drafts rng = (.ok (n, forced), rng')) : n ≤ drafts.length := by
  induction drafts generalizing j rng n forced with
  | nil =>
    obtain ⟨heq, -⟩ := Prod.mk.inj h
    obtain ⟨rfl, -⟩ := Prod.mk.inj (Except.ok.inj heq)
    exact Nat.le_refl 0
  | cons d drafts ih =>
    have hrest {rng : m.G} (h : oneMore (accept job row dists (j + 1) drafts rng) = (.ok (n, forced), rng')) :
        n ≤ (d :: drafts).length := by
      obtain ⟨n', rfl, haccept⟩ := oneMore_ok h
      exact Nat.succ_le_succ (ih haccept)
    have hzero {forced' : Option Token} {rng : m.G} (h : ((.ok (0, forced') : Except Fault (Nat × Option Token)), rng) = (.ok (n, forced), rng')) :
        n ≤ (d :: drafts).length := by
      obtain ⟨heq, -⟩ := Prod.mk.inj h
      obtain ⟨rfl, -⟩ := Prod.mk.inj (Except.ok.inj heq)
      exact Nat.zero_le _
    rw [accept] at h
    split at h
    · split at h
      · exact hrest h
      · exact hzero h
    · split at h
      · exact nomatch (Prod.mk.inj h).1
      · dsimp only at h
        split at h
        · exact hrest h
        · split at h
          · exact hzero h
          · exact nomatch (Prod.mk.inj h).1

theorem accept_greedy {job : Job m} (hgreedy : job.greedy = true) {f : List Token → List m.F} (x : List Token)
    {row : Nat → List m.F} {dists : List m.Q} {j : Nat} {drafts : List Token} {rng : m.G}
    (hrow : ∀ i ≤ drafts.length, row (j + i) = f (x ++ drafts.take i)) :
    ∃ n, accept job row dists j drafts rng = (.ok (n, none), rng) ∧ Agrees m f x (drafts.take n) := by
  induction drafts generalizing j x with
  | nil => exact ⟨0, rfl, trivial⟩
  | cons d drafts ih =>
    rw [accept, if_pos hgreedy]
    have hhead : row j = f x := by
      have h := hrow 0 (Nat.zero_le _)
      rwa [Nat.add_zero, List.take_zero, List.append_nil] at h
    by_cases hagrees : greedy m (row j) = d
    · obtain ⟨n, haccept, hrest⟩ := ih (x ++ [d]) (j := j + 1) fun i hi => by
        have h := hrow (i + 1) (Nat.succ_le_succ hi)
        rwa [List.take_succ_cons, List.append_cons, show j + (i + 1) = j + 1 + i by omega] at h
      refine ⟨n + 1, ?_, ?_, hrest⟩
      · rw [if_pos hagrees, haccept]
        rfl
      · rw [← hhead]
        exact hagrees
    · exact ⟨0, if_neg hagrees, trivial⟩

def Blames (m : Machine) (total : Prop) (job : Job m) (s : Run m) (stop : Stop) : Prop :=
  ∃ origin fault, stop = .failed origin fault ∧ (total → job.greedy = true → origin = .drafter ∧ s.engine.drafter.isSome = true)

theorem orThrow_triple {α : Type} (origin : Origin) (result : Except Fault α) (s : Run m) :
    Triple (· = s) (orThrow origin result) (fun a s' => s' = s ∧ result = .ok a)
      (fun stop s' => s' = s ∧ ∃ fault, result = .error fault ∧ stop = .failed origin fault) := by
  cases result with
  | ok a => exact Triple.pure fun _ hs => ⟨hs, rfl⟩
  | error fault => exact Triple.throw fun _ hs => ⟨hs, fault, rfl, rfl⟩

theorem forward_triple (tokens : List Token) (start : Nat) (want : Want) (tapped : Hidden) (s : Run m) :
    Triple (· = s) (forward tokens start want tapped)
      (fun pass s' => s' = { s with engine := { s.engine with
          model := (m.trunk.forwardExt s.engine.model tokens start want tapped).1 } } ∧
        (m.trunk.forwardExt s.engine.model tokens start want tapped).2 = .ok pass)
      (fun stop s' => seen s' = seen s ∧ ∃ fault, (m.trunk.forwardExt s.engine.model tokens start want tapped).2 = .error fault ∧
        stop = .failed .model fault) := by
  refine Triple.get fun s' hs' => ?_
  subst s'
  refine Triple.bind (fun _ s' => s' = { s with engine := { s.engine with
    model := (m.trunk.forwardExt s.engine.model tokens start want tapped).1 } }) (Triple.set fun _ _ => rfl) fun _ => ?_
  exact (orThrow_triple _ _ _).weaken (fun _ h => h) (fun _ _ h => h) fun _ _ ⟨h, hfault⟩ => ⟨h ▸ rfl, hfault⟩

theorem observe_triple (pos : Nat) (tokens : List Token) (rows : List m.F) (s : Run m) :
    Triple (· = s) (observe pos tokens rows)
      (fun _ s' => ∃ d, s' = { s with engine := { s.engine with drafter := d } } ∧ d.isSome = s.engine.drafter.isSome)
      (fun stop s' => seen s' = seen s ∧ s.engine.drafter.isSome = true ∧ ∃ fault, stop = .failed .drafter fault) := by
  refine Triple.get fun s' hs' => ?_
  subst s'
  split
  · rename_i hnone
    exact Triple.pure fun s' hs' => ⟨none, by rw [hs', ← hnone], by rw [hnone]⟩
  · rename_i d hsome
    refine Triple.bind (fun _ s' => s' = { s with engine := { s.engine with
      drafter := some (m.drafter.observe d s.engine.model pos tokens rows).1 } }) (Triple.set fun _ _ => rfl) fun _ => ?_
    refine (orThrow_triple _ _ _).weaken (fun _ h => h) (fun _ s' ⟨h, _⟩ => ⟨_, h, (by rw [hsome]; rfl)⟩) ?_
    exact fun stop s' ⟨h, fault, _, hstop⟩ => ⟨h ▸ rfl, (by rw [hsome]; rfl), fault, hstop⟩

def Consistent (holds : m.S → List Token) (e : Engine m) : Prop := holds e.model = e.cached

section
variable {f : List Token → List m.F} {holds : m.S → List Token} (hlaw : m.trunk.Lawful f holds)
include hlaw

/-- **Verification** keeps a token and the drafts that are accepted. -/
theorem verify_triple (job : Job m) (id : Token) (drafts : List Token) (dists : List m.Q) (s : Run m)
    (hcached : Consistent holds s.engine) (hroll : drafts ≠ [] → drafts.length + 1 ≤ m.trunk.rollbackRows)
    (hroom : s.engine.cached.length + drafts.length + 1 ≤ m.contextLength) :
    Triple (· = s) (verify job id drafts dists)
      (fun n s' => n ≤ drafts.length ∧ Consistent holds s'.engine ∧ s'.engine.cached = s.engine.cached ++ id :: drafts.take n ∧
        s'.logits = f s'.engine.cached ∧ seen s' = seen s ∧ s'.engine.drafter.isSome = s.engine.drafter.isSome ∧
        (job.greedy = true → s'.forced = none ∧ Agrees m f (s.engine.cached ++ [id]) (drafts.take n)))
      (fun stop s' => seen s' = seen s ∧ Blames m (m.trunk.Total holds m.contextLength) job s stop) := by
  obtain ⟨vocab, hwidth⟩ := hlaw.width
  refine Triple.get fun s' hs' => ?_
  subst s'
  have hstart : s.engine.cached.length = (holds s.engine.model).length := by rw [hcached]
  refine Triple.bind _ ((forward_triple _ _ _ _ s).weaken (fun _ h => h) (fun _ _ h => h) fun stop s' ⟨hseen, fault, hfault, hstop⟩ => ?_)
    fun pass => ?_
  · refine ⟨hseen, _, _, hstop, fun htotal _ => ?_⟩
    obtain ⟨pass, hpass⟩ := htotal s.engine.model (id :: drafts) (if drafts.isEmpty then .last else .all) (tap s)
      (List.cons_ne_nil _ _) (by rw [← hstart, List.length_cons]; omega)
    rw [hstart, hpass] at hfault
    exact nomatch hfault
  refine Triple.of_eq fun s' ⟨hs', hpass⟩ => ?_
  rw [hstart] at hs' hpass
  obtain ⟨hholds, hlogits⟩ := hlaw.forward_ok _ _ _ _ _ hpass
  obtain ⟨rows, hrows⟩ : ∃ rows, logitsOf f (holds s.engine.model) (id :: drafts) (if drafts.isEmpty then .last else .all) = some rows := by
    cases drafts <;> exact ⟨_, rfl⟩
  rw [hlogits, hrows]
  -- the rows of the pass
  refine Triple.bind (fun a s'' => s'' = s' ∧ a = rows) (Triple.pure fun _ h => ⟨h, rfl⟩) fun a => ?_
  refine Triple.of_eq fun s'' ⟨hs'', ha⟩ => ?_
  subst s'' a
  refine Triple.get fun s'' hs'' => ?_
  subst s''
  -- acceptance
  obtain ⟨width, hwidthOf⟩ : ∃ width, width = if drafts.isEmpty then rows.length else rows.length / (id :: drafts).length := ⟨_, rfl⟩
  have hrowOf : ∀ i ≤ drafts.length, rowOf rows width i = f (s.engine.cached ++ (id :: drafts).take (i + 1)) := fun i hi => by
    rw [hwidthOf, ← hcached]
    exact rowOf_logits hwidth hrows hi
  rw [← hwidthOf]
  have hgreedyAccept (hgreedy : job.greedy = true) : ∃ n, accept job (rowOf rows width) dists 0 drafts (Run.rng s') =
      (.ok (n, none), Run.rng s') ∧ Agrees m f (s.engine.cached ++ [id]) (drafts.take n) :=
    accept_greedy hgreedy _ fun i hi => by
      rw [Nat.zero_add, hrowOf i hi, List.take_succ_cons, List.append_cons]
  rcases haccept : accept job (rowOf rows width) dists 0 drafts (Run.rng s') with ⟨fault | ⟨n, forced⟩, rng⟩
  · refine Triple.bind (fun _ s'' => s'' = Run.setRng s' rng) (Triple.set fun _ _ => rfl) fun _ => ?_
    refine Triple.bind (fun _ _ => False) (Triple.throw fun s'' hs'' => ⟨?_, _, _, rfl, fun _ hgreedy => ?_⟩) fun _ _ h => h.elim
    · rw [hs'', seen_setRng, hs']
      rfl
    · obtain ⟨n, hn, -⟩ := hgreedyAccept hgreedy
      rw [haccept] at hn
      exact nomatch (Prod.mk.inj hn).1
  have hle := accept_le haccept
  refine Triple.bind (fun _ s'' => s'' = Run.setRng s' rng) (Triple.set fun _ _ => rfl) fun _ => ?_
  refine Triple.bind (fun a s'' => s'' = Run.setRng s' rng ∧ a = (n, forced)) (Triple.pure fun _ h => ⟨h, rfl⟩) fun a => ?_
  refine Triple.of_eq fun s'' ⟨hs'', ha⟩ => ?_
  subst a
  refine Triple.get fun t ht => ?_
  subst t
  -- the positions to keep
  have hmodel : s''.engine.model = (m.trunk.forwardExt s.engine.model (id :: drafts) (holds s.engine.model).length
      (if drafts.isEmpty then .last else .all) (tap s)).1 := by
    rw [hs'', model_setRng, hs']
  have hkeep : (m.trunk.truncateCache s''.engine.model (s.engine.cached.length + 1 + n)).2 = s.engine.cached.length + 1 + n := by
    rw [hmodel]
    rcases hdrafts : drafts with _ | ⟨d, rest⟩
    · rw [hdrafts] at hle hholds
      obtain rfl := Nat.le_zero.mp hle
      have hlength : (holds s.engine.model ++ [id]).length = s.engine.cached.length + 1 := by
        rw [List.length_append, hstart, List.length_singleton]
      have hend : (holds s.engine.model ++ [id]).length ≤ s.engine.cached.length + 1 + 0 := Nat.le_of_eq hlength
      rw [hlaw.truncate_end _ _ (by rw [hholds]; exact hend), hholds, hlength]
    · rw [hdrafts] at hpass hle hroll
      have hmost := hroll (List.cons_ne_nil _ _)
      simp only [List.length_cons] at hle hmost
      exact hlaw.rollback _ _ _ _ hpass hmost _ (by omega) (by simp only [List.length_cons]; omega)
  have htruncated : holds (m.trunk.truncateCache s''.engine.model (s.engine.cached.length + 1 + n)).1 =
      s.engine.cached ++ id :: drafts.take n := by
    rw [hlaw.truncate_holds, hkeep, hmodel, hholds, hcached, List.take_append, List.take_of_length_le (by omega)]
    rw [show s.engine.cached.length + 1 + n - s.engine.cached.length = n + 1 by omega, List.take_succ_cons]
  have hsame : seen s'' = seen s ∧ s''.engine.cached = s.engine.cached ∧ s''.engine.drafter = s.engine.drafter := by
    refine ⟨?_, ?_, ?_⟩
    · rw [hs'', seen_setRng, hs']; rfl
    · rw [hs'', cached_setRng, hs']
    · rw [hs'', drafter_setRng, hs']
  have hforced (hgreedy : job.greedy = true) : forced = none ∧ Agrees m f (s.engine.cached ++ [id]) (drafts.take n) := by
    obtain ⟨n', hn', hagrees⟩ := hgreedyAccept hgreedy
    obtain ⟨heq, -⟩ := Prod.mk.inj (haccept.symm.trans hn')
    obtain ⟨rfl, hnone⟩ := Prod.mk.inj (Except.ok.inj heq)
    exact ⟨hnone, hagrees⟩
  clear haccept
  refine Triple.bind (fun _ t => t = { s'' with engine := { s''.engine with
    model := (m.trunk.truncateCache s''.engine.model (s.engine.cached.length + 1 + n)).1 } }) (Triple.set fun _ _ => rfl) fun _ => ?_
  rw [if_pos hkeep]
  refine Triple.bind (fun _ t => t = { s'' with engine := { s''.engine with
    model := (m.trunk.truncateCache s''.engine.model (s.engine.cached.length + 1 + n)).1 } }) (Triple.pure fun t ht => ht) fun _ => ?_
  -- what is kept is cached, and observed
  refine Triple.bind (fun _ t => Consistent holds t.engine ∧ t.engine.cached = s.engine.cached ++ id :: drafts.take n ∧
    seen t = seen s ∧ t.engine.drafter = s.engine.drafter) (Triple.modify fun t ht => ?_) fun _ => ?_
  · rw [ht]
    refine ⟨?_, by rw [hsame.2.1], hsame.1, hsame.2.2⟩
    show holds (m.trunk.truncateCache s''.engine.model (s.engine.cached.length + 1 + n)).1 = s''.engine.cached ++ id :: drafts.take n
    rw [htruncated, hsame.2.1]
  refine Triple.get fun t ht => ?_
  obtain ⟨hconsistent, hcached', hseen, hdrafter⟩ := ht
  have htail (g : Run m → Run m) (hg : ∀ u, (g u).engine = u.engine ∧ seen (g u) = seen u ∧ (g u).forced = forced ∧
      (g u).logits = rowOf rows width n) :
      Triple (fun u => Consistent holds u.engine ∧ u.engine.cached = s.engine.cached ++ id :: drafts.take n ∧
        seen u = seen s ∧ u.engine.drafter.isSome = s.engine.drafter.isSome)
        (do modify g; return n)
        (fun n s' => n ≤ drafts.length ∧ Consistent holds s'.engine ∧ s'.engine.cached = s.engine.cached ++ id :: drafts.take n ∧
          s'.logits = f s'.engine.cached ∧ seen s' = seen s ∧ s'.engine.drafter.isSome = s.engine.drafter.isSome ∧
          (job.greedy = true → s'.forced = none ∧ Agrees m f (s.engine.cached ++ [id]) (drafts.take n)))
        (fun stop s' => seen s' = seen s ∧ Blames m (m.trunk.Total holds m.contextLength) job s stop) := by
    refine Triple.bind (fun _ u => ∃ u', u = g u' ∧ Consistent holds u'.engine ∧
      u'.engine.cached = s.engine.cached ++ id :: drafts.take n ∧ seen u' = seen s ∧
      u'.engine.drafter.isSome = s.engine.drafter.isSome) (Triple.modify fun u hu => ⟨u, rfl, hu⟩) fun _ => ?_
    refine Triple.pure fun u ⟨u', hu, h1, h2, h3, h4⟩ => ?_
    obtain ⟨g1, g2, g3, g4⟩ := hg u'
    rw [← hu] at g1 g2 g3 g4
    rw [g1, g2, g3, g4, h2, hrowOf n hle, List.take_succ_cons]
    exact ⟨hle, h1, rfl, rfl, h3, h4, hforced⟩
  split
  · refine Triple.bind (fun _ u => Consistent holds u.engine ∧ u.engine.cached = s.engine.cached ++ id :: drafts.take n ∧
      seen u = seen s ∧ u.engine.drafter.isSome = s.engine.drafter.isSome) ?_ fun _ => htail _ fun u => ⟨rfl, rfl, rfl, rfl⟩
    refine (observe_triple _ _ _ t).weaken (fun _ h => h) ?_ ?_
    · rintro _ u ⟨d, rfl, hsome⟩
      exact ⟨hconsistent, hcached', hseen, by rw [← hdrafter]; exact hsome⟩
    · rintro stop u ⟨hseen', hsome, fault, rfl⟩
      exact ⟨hseen'.trans hseen, .drafter, fault, rfl, fun _ _ => ⟨rfl, hdrafter ▸ hsome⟩⟩
  · refine Triple.weaken (htail _ ?_) (fun u hu => ?_) (fun _ _ h => h) fun _ _ h => h
    · exact fun u => ⟨rfl, rfl, rfl, rfl⟩
    rw [hu]
    exact ⟨hconsistent, hcached', hseen, by rw [hdrafter]⟩

end

end Engine

end Cuca.Local
