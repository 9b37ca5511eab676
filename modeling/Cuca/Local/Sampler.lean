import Cuca.Lib.Draws
import Cuca.Local.Engine

/-!
# The sampler

Temperature, top-k, softmax and top-p turn logits into candidates with probabilities, one of which is drawn. Arithmetic is exact; the
exponential is a parameter.

* `warpCandidates`, `Dist.warp` : the candidates, unnormalised and normalised;
* `Dist.prob`, `Dist.draw`, `Dist.residual`;
* `IsDist` : distinct candidates with probabilities that sum to one;
* `isDist_warp`, `isDist_residual` : what `warp` and `residual` make is one;
* `sample_eq_draw` : to sample is to warp and draw.
-/

namespace Cuca.Local

variable {K : Type} [Field K] [LinearOrder K]

/-- The candidates that survive, with their probabilities. -/
structure Dist (K : Type) where
  candidates : List (K × Token)
  deriving DecidableEq, Repr

/-! ## Candidates -/

/-- The first maximum. -/
def argmax (logits : List K) : Token :=
  (logits.foldl (fun (acc : Nat × Token × Option K) v =>
    match acc.2.2 with
    | none => (acc.1 + 1, acc.1, some v)
    | some best => (acc.1 + 1, if best < v then (acc.1, some v) else acc.2)) (0, 0, none)).2.1

/-- `by_logit_desc` -/
def byLogitDesc (a b : K × Token) : Bool := b.1 < a.1 || (a.1 == b.1 && a.2 ≤ b.2)

/-- The shortest prefix whose cumulative probability reaches `topP`. -/
def cutTopP (topP : K) : K → List (K × Token) → List (K × Token)
  | _, [] => []
  | cumulative, c :: candidates =>
    if topP ≤ cumulative + c.1 then [c] else c :: cutTopP topP (cumulative + c.1) candidates

/-- `NUCLEUS_FIRST` -/
def nucleusFirst : Nat := 256

/-- How many of the best are ranked: more while their mass is below `topP`. -/
def nucleus (mass : Nat → K) (topP : K) (vocabulary : Nat) : Nat → Nat → Nat
  | 0, m => m
  | fuel + 1, m => if topP ≤ mass m ∨ vocabulary ≤ m then m else nucleus mass topP vocabulary fuel (min (m * 4) vocabulary)

def maximum : List K → K
  | [] => 0
  | l :: logits => logits.foldl max l

def warpCandidates (exp : K → K) (logits : List K) (temperature : K) (topK : Nat) (topP : K) : List (K × Token) :=
  let logits := logits.map (· / temperature)
  let candidates := logits.zipIdx
  let ranked := candidates.mergeSort byLogitDesc
  if 0 < topK ∧ topK < candidates.length then
    let candidates := ranked.take topK
    let best := maximum (candidates.map Prod.fst)
    let candidates := candidates.map fun c => (exp (c.1 - best), c.2)
    let sum := (candidates.map Prod.fst).sum
    cutTopP topP 0 (candidates.map fun c => (c.1 / sum, c.2))
  else
    let best := maximum logits
    let sum := (logits.map fun l => exp (l - best)).sum
    if 1 ≤ topP then candidates.map fun c => (exp (c.1 - best) / sum, c.2)
    else
      let mass m := ((ranked.take m).map fun c => exp (c.1 - best)).sum / sum
      let m := nucleus mass topP candidates.length candidates.length (min nucleusFirst candidates.length)
      cutTopP topP 0 ((ranked.take m).map fun c => (exp (c.1 - best) / sum, c.2))

/-! ## Distributions -/

namespace Dist

def warp (exp : K → K) (logits : List K) (temperature : K) (topK : Nat) (topP : K) : Dist K :=
  let candidates := warpCandidates exp logits temperature topK topP
  let total := (candidates.map Prod.fst).sum
  ⟨candidates.map fun c => (c.1 / total, c.2)⟩

def prob (d : Dist K) (id : Token) : K := (d.candidates.find? fun c => c.2 = id).elim 0 Prod.fst

/-- The candidate that `target` falls on; without candidates it panics. -/
def draw (d : Dist K) (target : K) : Option Token := d.candidates.getLast?.map fun last => Draws.pick last.2 0 d.candidates target

/-- The positive part of the difference, normalised; none where the two coincide. -/
def residual (d other : Dist K) : Option (Dist K) :=
  let candidates := (d.candidates.map fun c => (c.1 - other.prob c.2, c.2)).filter fun c => 0 < c.1
  let total := (candidates.map Prod.fst).sum
  if candidates.isEmpty ∨ total ≤ 0 then none else some ⟨candidates.map fun c => (c.1 / total, c.2)⟩

end Dist

/-- The next token from its logits. -/
def sample (exp : K → K) (logits : List K) (temperature : K) (topK : Nat) (topP : K) (target : K) : Option Token :=
  if temperature ≤ 0 ∨ logits.length ≤ 1 then some (argmax logits)
  else
    let candidates := warpCandidates exp logits temperature topK topP
    let total := (candidates.map Prod.fst).sum
    candidates.getLast?.map fun last => Draws.pick last.2 0 candidates (target * total)

/-- Distinct candidates, with probabilities. -/
structure IsDist (d : Dist K) : Prop where
  nonneg : ∀ c ∈ d.candidates, 0 ≤ c.1
  total : (d.candidates.map Prod.fst).sum = 1
  nodup : (d.candidates.map Prod.snd).Nodup

/-- There are candidates, distinct and of positive weight. -/
structure Weighted (candidates : List (K × Token)) : Prop where
  nonempty : candidates ≠ []
  positive : ∀ c ∈ candidates, 0 < c.1
  nodup : (candidates.map Prod.snd).Nodup

variable [IsStrictOrderedRing K]

theorem Weighted.sum_pos {candidates : List (K × Token)} (h : Weighted candidates) : 0 < (candidates.map Prod.fst).sum := by
  apply List.sum_pos
  · intro w hw
    obtain ⟨c, hc, rfl⟩ := List.mem_map.mp hw
    exact h.positive c hc
  · simpa using h.nonempty

omit [LinearOrder K] [IsStrictOrderedRing K] in
theorem sum_div (candidates : List (K × Token)) (total : K) :
    ((candidates.map fun c => (c.1 / total, c.2)).map Prod.fst).sum = (candidates.map Prod.fst).sum / total := by
  induction candidates with
  | nil => simp
  | cons c candidates ih =>
    simp only [List.map_cons, List.sum_cons] at *
    rw [ih, add_div]

theorem Weighted.isDist {candidates : List (K × Token)} (h : Weighted candidates) :
    IsDist ⟨candidates.map fun c => (c.1 / (candidates.map Prod.fst).sum, c.2)⟩ where
  nonneg c hc := by
    obtain ⟨c', hc', rfl⟩ := List.mem_map.mp hc
    exact (div_pos (h.positive c' hc') h.sum_pos).le
  total := by
    rw [sum_div]
    exact div_self h.sum_pos.ne'
  nodup := by
    rw [List.map_map]
    exact h.nodup

/-! ## Warping -/

omit [IsStrictOrderedRing K] in
theorem cutTopP_begins (topP : K) (candidates : List (K × Token)) (cumulative : K) : cutTopP topP cumulative candidates <+: candidates := by
  induction candidates generalizing cumulative with
  | nil => exact List.prefix_rfl
  | cons c candidates ih =>
    unfold cutTopP
    split
    · exact List.prefix_append [c] candidates
    · exact List.prefix_cons_inj c |>.mpr (ih _)

omit [IsStrictOrderedRing K] in
theorem Weighted.cutTopP {candidates : List (K × Token)} (h : Weighted candidates) (topP : K) : Weighted (cutTopP topP 0 candidates) where
  nonempty := by
    cases candidates with
    | nil => exact absurd rfl h.nonempty
    | cons c candidates =>
      unfold Local.cutTopP
      split <;> exact List.cons_ne_nil _ _
  positive c hc := h.positive c ((cutTopP_begins topP candidates 0).subset hc)
  nodup := h.nodup.sublist ((cutTopP_begins topP candidates 0).sublist.map _)

omit [IsStrictOrderedRing K] in
theorem weighted_map {candidates : List (K × Token)} (hne : candidates ≠ []) (hnodup : (candidates.map Prod.snd).Nodup) (weight : K → K)
    (hweight : ∀ c ∈ candidates, 0 < weight c.1) : Weighted (candidates.map fun c => (weight c.1, c.2)) where
  nonempty := by simpa using hne
  positive c hc := by
    obtain ⟨c', hc', rfl⟩ := List.mem_map.mp hc
    exact hweight c' hc'
  nodup := by
    rw [List.map_map]
    exact hnodup

omit [Field K] [IsStrictOrderedRing K] in
theorem nucleus_pos (mass : Nat → K) (topP : K) {vocabulary : Nat} (hvocabulary : 0 < vocabulary) (fuel : Nat) {m : Nat} (hm : 0 < m) :
    0 < nucleus mass topP vocabulary fuel m := by
  induction fuel generalizing m with
  | zero => exact hm
  | succ fuel ih =>
    unfold nucleus
    split
    · exact hm
    · exact ih (by omega)

theorem weighted_warpCandidates {exp : K → K} (hexp : ∀ x, 0 < exp x) {logits : List K} (hlogits : logits ≠ []) (temperature : K) (topK : Nat)
    (topP : K) : Weighted (warpCandidates exp logits temperature topK topP) := by
  have hids : ((logits.map (· / temperature)).zipIdx.map Prod.snd).Nodup := by
    rw [List.zipIdx_map_snd]
    exact List.nodup_range'
  have hcandidates : (logits.map (· / temperature)).zipIdx ≠ [] := by simpa using hlogits
  have hperm := List.mergeSort_perm (logits.map (· / temperature)).zipIdx byLogitDesc
  have hranked : (((logits.map (· / temperature)).zipIdx.mergeSort byLogitDesc).map Prod.snd).Nodup := (hperm.map Prod.snd).nodup_iff.mpr hids
  have hlength := hperm.length_eq
  have hpositive := List.length_pos_of_ne_nil hcandidates
  -- the best of the ranking
  have hbest (n : Nat) (hn : 0 < n) :
      ((logits.map (· / temperature)).zipIdx.mergeSort byLogitDesc).take n ≠ [] ∧
        ((((logits.map (· / temperature)).zipIdx.mergeSort byLogitDesc).take n).map Prod.snd).Nodup := by
    refine ⟨?_, hranked.sublist ((List.take_sublist _ _).map _)⟩
    rw [← List.length_pos_iff, List.length_take]
    omega
  have hsum (best : K) : 0 < ((logits.map (· / temperature)).map fun l => exp (l - best)).sum := by
    apply List.sum_pos
    · intro w hw
      obtain ⟨l, -, rfl⟩ := List.mem_map.mp hw
      exact hexp _
    · simpa using hlogits
  unfold warpCandidates
  dsimp only
  split
  · rename_i htop
    obtain ⟨hne, hnodup⟩ := hbest topK htop.1
    have hweighted := weighted_map hne hnodup (fun l => exp (l - maximum ((((logits.map (· / temperature)).zipIdx.mergeSort byLogitDesc).take
      topK).map Prod.fst))) fun c _ => hexp _
    exact (weighted_map hweighted.nonempty hweighted.nodup (· / _) fun c hc => div_pos (hweighted.positive c hc) hweighted.sum_pos).cutTopP topP
  · split
    · exact weighted_map hcandidates hids (fun l => exp (l - _) / _) fun c _ => div_pos (hexp _) (hsum _)
    · obtain ⟨hne, hnodup⟩ := hbest _ (nucleus_pos _ topP hpositive _ (m := min nucleusFirst _) (lt_min (by decide) hpositive))
      exact (weighted_map hne hnodup (fun l => exp (l - _) / _) fun c _ => div_pos (hexp _) (hsum _)).cutTopP topP

/-- **What `warp` makes of logits is a distribution.** -/
theorem isDist_warp {exp : K → K} (hexp : ∀ x, 0 < exp x) {logits : List K} (hlogits : logits ≠ []) (temperature : K) (topK : Nat) (topP : K) :
    IsDist (Dist.warp exp logits temperature topK topP) :=
  (weighted_warpCandidates hexp hlogits temperature topK topP).isDist

theorem pick_div {β : Type} (last : β) {total : K} (htotal : 0 < total) (steps : List (K × β)) (acc u : K) :
    Draws.pick last acc steps (u * total) = Draws.pick last (acc / total) (steps.map fun step => (step.1 / total, step.2)) u := by
  induction steps generalizing acc with
  | nil => rfl
  | cons step steps ih =>
    simp only [Draws.pick, List.map_cons, ← add_div, ih, lt_div_iff₀ htotal]

/-- **To sample is to warp and draw.** -/
theorem sample_eq_draw {exp : K → K} (hexp : ∀ x, 0 < exp x) {logits : List K} (hlogits : 1 < logits.length) {temperature : K}
    (htemperature : 0 < temperature) (topK : Nat) (topP target : K) :
    IsDist (Dist.warp exp logits temperature topK topP) ∧
      sample exp logits temperature topK topP target = (Dist.warp exp logits temperature topK topP).draw target := by
  have hne : logits ≠ [] := List.ne_nil_of_length_pos (by omega : 0 < logits.length)
  refine ⟨isDist_warp hexp hne temperature topK topP, ?_⟩
  have hweighted := weighted_warpCandidates hexp hne temperature topK topP
  unfold sample Dist.draw Dist.warp
  rw [if_neg (by rintro (h | h) <;> [exact absurd h (not_le.mpr htemperature); omega])]
  dsimp only
  rw [List.getLast?_map, Option.map_map]
  congr 1
  funext last
  simp only [Function.comp_apply, pick_div last.2 hweighted.sum_pos, zero_div]

theorem sample_eq_draw_tie : IsDist (Dist.warp (fun _ => (1 : ℚ)) [0, 0] 1 2 1) ∧
    sample (fun _ => (1 : ℚ)) [0, 0] 1 2 1 (1 / 3) = (Dist.warp (fun _ => (1 : ℚ)) [0, 0] 1 2 1).draw (1 / 3) :=
  sample_eq_draw (fun _ => zero_lt_one) (by decide) zero_lt_one 2 1 (1 / 3)

/-! ## Probabilities -/

variable {d : Dist K}

namespace IsDist

theorem ne_nil (h : IsDist d) : d.candidates ≠ [] := by
  intro hnil
  have htotal := h.total
  rw [hnil] at htotal
  exact zero_ne_one htotal

end IsDist

omit [IsStrictOrderedRing K] [LinearOrder K] in
theorem prob_cons (c : K × Token) (candidates : List (K × Token)) (id : Token) :
    Dist.prob ⟨c :: candidates⟩ id = if c.2 = id then c.1 else Dist.prob ⟨candidates⟩ id := by
  unfold Dist.prob
  rw [List.find?_cons]
  by_cases hid : c.2 = id
  · simp [hid]
  · simp [hid]

omit [IsStrictOrderedRing K] [LinearOrder K] in
theorem prob_eq_zero {candidates : List (K × Token)} {id : Token} (h : id ∉ candidates.map Prod.snd) : Dist.prob ⟨candidates⟩ id = 0 := by
  induction candidates with
  | nil => rfl
  | cons c candidates ih =>
    rw [List.map_cons, List.mem_cons, not_or] at h
    rw [prob_cons, if_neg (Ne.symm h.1), ih h.2]

omit [IsStrictOrderedRing K] [LinearOrder K] in
theorem sum_candidates {candidates : List (K × Token)} (hnodup : (candidates.map Prod.snd).Nodup) {ids : Finset Token}
    (hids : ∀ c ∈ candidates, c.2 ∈ ids) (F : K → Token → K) (hF : ∀ id, F 0 id = 0) :
    (candidates.map fun c => F c.1 c.2).sum = ∑ id ∈ ids, F (Dist.prob ⟨candidates⟩ id) id := by
  induction candidates with
  | nil =>
    rw [List.map_nil, List.sum_nil]
    exact (Finset.sum_eq_zero fun id _ => hF id).symm
  | cons c candidates ih =>
    rw [List.map_cons, List.nodup_cons] at hnodup
    have hmem := hids c List.mem_cons_self
    rw [List.map_cons, List.sum_cons, ih hnodup.2 fun c hc => hids c (List.mem_cons_of_mem _ hc), ← Finset.add_sum_erase _ _ hmem,
      ← Finset.add_sum_erase ids (fun id => F (Dist.prob ⟨c :: candidates⟩ id) id) hmem, prob_eq_zero hnodup.1, hF, zero_add, prob_cons,
      if_pos rfl]
    congr 1
    apply Finset.sum_congr rfl
    intro id hid
    rw [prob_cons, if_neg (Finset.ne_of_mem_erase hid).symm]

omit [IsStrictOrderedRing K] in
theorem IsDist.prob_nonneg (h : IsDist d) (id : Token) : 0 ≤ d.prob id := by
  unfold Dist.prob
  cases hfind : d.candidates.find? fun c => c.2 = id with
  | none => exact le_refl 0
  | some c => exact h.nonneg c (List.mem_of_find?_eq_some hfind)

def support (p q : Dist K) : Finset Token := (p.candidates.map Prod.snd ++ q.candidates.map Prod.snd).toFinset

omit [Field K] [LinearOrder K] [IsStrictOrderedRing K] in
theorem mem_support_left {p q : Dist K} (c : K × Token) (hc : c ∈ p.candidates) : c.2 ∈ support p q := by
  simp only [support, List.mem_toFinset, List.mem_append]
  exact .inl (List.mem_map_of_mem hc)

def excess (p q : Dist K) (id : Token) : K := max 0 (p.prob id - q.prob id)

omit [IsStrictOrderedRing K] in
theorem sum_positive (l : List (K × Token)) (g : Token → K) :
    ((l.filter fun c => 0 < c.1).map fun c => c.1 * g c.2).sum = (l.map fun c => max 0 c.1 * g c.2).sum := by
  induction l with
  | nil => rfl
  | cons c l ih =>
    rw [List.filter_cons]
    by_cases hc : 0 < c.1
    · rw [if_pos (by simpa using hc), List.map_cons, List.sum_cons, List.map_cons, List.sum_cons, ih, max_eq_right hc.le]
    · rw [if_neg (by simpa using hc), List.map_cons, List.sum_cons, ih, max_eq_left (not_lt.mp hc), zero_mul, zero_add]

theorem sum_excess {p q : Dist K} (hp : IsDist p) (hq : IsDist q) (g : Token → K) :
    (((p.candidates.map fun c => (c.1 - q.prob c.2, c.2)).filter fun c => 0 < c.1).map fun c => c.1 * g c.2).sum =
      ∑ id ∈ support p q, excess p q id * g id := by
  rw [sum_positive, List.map_map]
  refine sum_candidates hp.nodup mem_support_left (fun w id => max 0 (w - q.prob id) * g id) fun id => ?_
  rw [zero_sub, max_eq_left (neg_nonpos.mpr (hq.prob_nonneg id)), zero_mul]

theorem residual_eq {p q : Dist K} (hp : IsDist p) (hq : IsDist q) :
    (p.residual q = none ∧ ∑ id ∈ support p q, excess p q id = 0) ∨
      ∃ r, p.residual q = some r ∧ IsDist r ∧ 0 < ∑ id ∈ support p q, excess p q id ∧
        ∀ g : Token → K, (r.candidates.map fun c => c.1 * g c.2).sum =
          (∑ id ∈ support p q, excess p q id * g id) / ∑ id ∈ support p q, excess p q id := by
  have hnonneg : 0 ≤ ∑ id ∈ support p q, excess p q id := Finset.sum_nonneg fun id _ => le_max_left _ _
  have htotal : (((p.candidates.map fun c => (c.1 - q.prob c.2, c.2)).filter fun c => 0 < c.1).map Prod.fst).sum =
      ∑ id ∈ support p q, excess p q id := by
    have h := sum_excess hp hq fun _ => 1
    simpa only [mul_one] using h
  unfold Dist.residual
  dsimp only
  by_cases hnone : ((p.candidates.map fun c => (c.1 - q.prob c.2, c.2)).filter fun c => 0 < c.1).isEmpty ∨
      (((p.candidates.map fun c => (c.1 - q.prob c.2, c.2)).filter fun c => 0 < c.1).map Prod.fst).sum ≤ 0
  · rw [if_pos hnone]
    refine .inl ⟨rfl, ?_⟩
    obtain hempty | hle := hnone
    · rw [← htotal, List.isEmpty_iff.mp hempty]
      rfl
    · exact le_antisymm (htotal ▸ hle) hnonneg
  · rw [if_neg hnone]
    obtain ⟨hne, hpos⟩ := not_or.mp hnone
    have hweighted : Weighted ((p.candidates.map fun c => (c.1 - q.prob c.2, c.2)).filter fun c => 0 < c.1) :=
      { nonempty := fun h => hne (List.isEmpty_iff.mpr h)
        positive := fun c hc => by simpa using (List.mem_filter.mp hc).2
        nodup := by
          refine List.Nodup.sublist (List.filter_sublist.map _) ?_
          rw [List.map_map]
          exact hp.nodup }
    refine .inr ⟨_, rfl, hweighted.isDist, htotal ▸ not_le.mp hpos, fun g => ?_⟩
    rw [htotal, ← sum_excess hp hq g, List.map_map]
    generalize ((p.candidates.map fun c => (c.1 - q.prob c.2, c.2)).filter fun c => 0 < c.1) = left
    induction left with
    | nil => simp
    | cons c left ih =>
      simp only [List.map_cons, List.sum_cons, Function.comp_apply, add_div] at *
      rw [ih, div_mul_eq_mul_div]

/-- **A residual is a distribution.** -/
theorem isDist_residual {p q r : Dist K} (hp : IsDist p) (hq : IsDist q) (h : p.residual q = some r) : IsDist r := by
  obtain ⟨hnone, -⟩ | ⟨r', hsome, hr', -⟩ := residual_eq hp hq
  · exact nomatch hnone.symm.trans h
  · exact Option.some.inj (hsome.symm.trans h) ▸ hr'

end Cuca.Local
