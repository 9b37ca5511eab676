import Cuca.Lib.Ranking
import Cuca.Local.Sampler

/-!
# The nucleus search

What the sampler ranks of a vocabulary is not sorted whole: the `topK` best are selected, or else as many of the best as reach `topP`, more and
more of them. Selection and sorting are those of the standard library, in whatever order they leave what ties.

* `warpCandidates` : the search, where `widen` is its loop;
* `plain` : everything sorted, softmax over what is kept, and the shortest prefix;
* `warpCandidates_eq` : the search is the one of the sampler, which ranks first;
* `warpCandidates_plain` : it leaves what the plain algorithm leaves.
-/

namespace Cuca.Local.Nucleus
open Ranking
open Std (TransCmp OrientedCmp)

variable {K : Type} [Field K] [LinearOrder K]

/-! ## The search -/

/-- `by_logit_desc` -/
def byLogitDesc (a b : K × Token) : Ordering := (compare b.1 a.1).then (compare a.2 b.2)

variable (s : SliceSort (K × Token)) (weight : K → K)

/-- The `m` best of `v` come first and, while their mass is below `topP`, more of them; the loop ends as fewer are left to be ranked. -/
def widen (sum topP : K) (v m : Nat) (candidates : List (K × Token)) : Option (Nat × List (K × Token)) :=
  if m < v then
    if m = 0 then none
    else
      match s.selectNth byLogitDesc candidates (m - 1) with
      | none => none
      | some selected =>
        let mass := ((selected.take m).map fun c => weight c.1).sum / sum
        if topP ≤ mass then some (m, selected) else widen sum topP v (min (m * 4) v) selected
  else some (m, candidates)
termination_by v - m
decreasing_by omega

def warpCandidates (exp : K → K) (logits : List K) (temperature : K) (topK : Nat) (topP : K) : Option (List (K × Token)) :=
  let logits := logits.map (· / temperature)
  let candidates := logits.zipIdx
  if 0 < topK ∧ topK < candidates.length then do
    let candidates ← s.selectNth byLogitDesc candidates (topK - 1)
    let candidates := s.sort byLogitDesc (candidates.take topK)
    let best := (← candidates.head?).1
    let candidates := candidates.map fun c => (exp (c.1 - best), c.2)
    let sum := (candidates.map Prod.fst).sum
    return cutTopP topP 0 (candidates.map fun c => (c.1 / sum, c.2))
  else
    let best := maximum logits
    let sum := (logits.map fun l => exp (l - best)).sum
    if 1 ≤ topP then some (candidates.map fun c => (exp (c.1 - best) / sum, c.2))
    else do
      let (m, candidates) ← widen s (fun l => exp (l - best)) sum topP candidates.length (min nucleusFirst candidates.length) candidates
      let candidates := s.sort byLogitDesc (candidates.take m)
      return cutTopP topP 0 (candidates.map fun c => (exp (c.1 - best) / sum, c.2))

/-! ## The plain algorithm -/

/-- The shortest prefix whose probabilities reach `topP`. -/
def shortest (topP : K) (candidates : List (K × Token)) : List (K × Token) :=
  candidates.take ((List.range (candidates.length + 1)).findIdx fun n => topP ≤ ((candidates.take n).map Prod.fst).sum)

def softmax (exp : K → K) (candidates : List (K × Token)) : List (K × Token) :=
  let best := maximum (candidates.map Prod.fst)
  let total := (candidates.map fun c => exp (c.1 - best)).sum
  candidates.map fun c => (exp (c.1 - best) / total, c.2)

/-- Sort by the logits, keep, softmax, and cut. -/
def plain (exp : K → K) (logits : List K) (temperature : K) (topK : Nat) (topP : K) : List (K × Token) :=
  let ranked := sortBy byLogitDesc logits.zipIdx
  let kept := if topK = 0 then ranked else ranked.take topK
  shortest topP (softmax exp (kept.map fun c => (c.1 / temperature, c.2)))

/-! ## Ranking -/

instance : TransCmp (byLogitDesc (K := K)) := by
  have hlogit : TransCmp fun a b : K × Token => compare b.1 a.1 := transCmp_descending Prod.fst
  have hid : TransCmp fun a b : K × Token => compare a.2 b.2 := inferInstanceAs (TransCmp (compareOn Prod.snd))
  exact inferInstanceAs (TransCmp (compareLex _ _))

omit [Field K] in
theorem eq_of_byLogitDesc {a b : K × Token} (h : byLogitDesc a b = .eq) : a = b := by
  unfold byLogitDesc at h
  rw [Ordering.then_eq_eq, compare_eq_iff_eq, compare_eq_iff_eq] at h
  exact Prod.ext h.1.symm h.2

omit [Field K] in
theorem isLE_byLogitDesc {a b : K × Token} : (byLogitDesc a b).isLE = Local.byLogitDesc a b := by
  unfold byLogitDesc Local.byLogitDesc
  rcases lt_trichotomy a.1 b.1 with h | h | h
  · rw [compare_gt_iff_gt.mpr h]
    simp [h.ne, not_lt.mpr h.le]
  · rw [h, compare_eq_iff_eq.mpr rfl]
    rcases lt_trichotomy a.2 b.2 with hid | hid | hid
    · simp [compare_lt_iff_lt.mpr hid, hid.le]
    · simp [hid]
    · simp [compare_gt_iff_gt.mpr hid, not_le.mpr hid]
  · rw [compare_lt_iff_lt.mpr h]
    simp [h]

omit [Field K] in
theorem mergeSort_eq (candidates : List (K × Token)) : candidates.mergeSort Local.byLogitDesc = sortBy byLogitDesc candidates := by
  have htrans : ∀ a b c : K × Token, Local.byLogitDesc a b → Local.byLogitDesc b c → Local.byLogitDesc a c := by
    intro a b c hab hbc
    rw [← isLE_byLogitDesc] at hab hbc ⊢
    exact TransCmp.isLE_trans hab hbc
  have htotal : ∀ a b : K × Token, Local.byLogitDesc a b || Local.byLogitDesc b a := by
    intro a b
    rw [← isLE_byLogitDesc, ← isLE_byLogitDesc, show byLogitDesc a b = (byLogitDesc b a).swap from OrientedCmp.eq_swap]
    cases byLogitDesc b a <;> rfl
  have hsorted := List.pairwise_mergeSort htrans htotal candidates
  refine @sorted_unique _ byLogitDesc _ _ _ _ (fun a _ b _ => eq_of_byLogitDesc) (List.mergeSort_perm candidates _)
    (sortBy_perm byLogitDesc candidates) (hsorted.imp fun h => ?_) (sortBy_sorted candidates)
  rw [isLE_byLogitDesc]
  exact h

omit [Field K] in
theorem distinguishes (candidates : List (K × Token)) : Distinguishes byLogitDesc candidates := fun _ _ _ _ => eq_of_byLogitDesc

/-! ## The search ranks first -/

/-- **The loop** ends, with as many ranked as a whole sort would ask for, and they are the first of it. -/
theorem widen_eq {all : List (K × Token)} (sum topP : K) {m : Nat} (hm : all ≠ [] → 0 < m) {fuel : Nat} (hfuel : all.length - m ≤ fuel)
    {candidates : List (K × Token)} (hperm : candidates.Perm all) :
    ∃ n selected, widen s weight sum topP all.length m candidates = some (n, selected) ∧
      n = nucleus (fun m => (((sortBy byLogitDesc all).take m).map fun c => weight c.1).sum / sum) topP all.length fuel m ∧
      s.sort byLogitDesc (selected.take n) = (sortBy byLogitDesc all).take n := by
  induction fuel generalizing m candidates with
  | zero =>
    refine ⟨m, candidates, ?_, rfl, ?_⟩
    · rw [widen, if_neg (by omega)]
    · rw [List.take_of_length_le (by rw [hperm.length_eq]; omega), s.sort_eq (distinguishes _), sortBy_congr (distinguishes _) hperm,
        List.take_of_length_le (by rw [length_sortBy]; omega)]
  | succ fuel ih =>
    rw [widen, nucleus]
    by_cases hmore : m < all.length
    · have hm' := hm (List.ne_nil_of_length_pos (Nat.zero_lt_of_lt hmore))
      obtain ⟨selected, hselect, hselected, hsorted⟩ :=
        s.selectNth_eq (distinguishes candidates) (Nat.ne_of_gt hm') (hperm.length_eq ▸ Nat.le_of_lt hmore)
      rw [sortBy_congr (distinguishes _) hperm] at hsorted
      have hfirst : (selected.take m).Perm ((sortBy byLogitDesc all).take m) := hsorted ▸ (s.sort_perm byLogitDesc _).symm
      have hmass := ((hfirst.map fun c => weight c.1).sum_eq)
      rw [if_pos hmore, if_neg (Nat.ne_of_gt hm'), hselect]
      dsimp only
      rw [hmass]
      by_cases hreached : topP ≤ (((sortBy byLogitDesc all).take m).map fun c => weight c.1).sum / sum
      · rw [if_pos hreached, if_pos (.inl hreached)]
        exact ⟨m, selected, rfl, rfl, hsorted⟩
      · rw [if_neg hreached, if_neg (not_or.mpr ⟨hreached, Nat.not_le.mpr hmore⟩)]
        exact ih (fun _ => by omega) (by omega) (hselected.trans hperm)
    · rw [if_neg hmore, if_pos (.inr (Nat.le_of_not_lt hmore))]
      refine ⟨m, candidates, rfl, rfl, ?_⟩
      rw [List.take_of_length_le (by rw [hperm.length_eq]; omega), s.sort_eq (distinguishes _), sortBy_congr (distinguishes _) hperm,
        List.take_of_length_le (by rw [length_sortBy]; omega)]

theorem maximum_of_head {l : K} {logits : List K} (h : ∀ l' ∈ logits, l' ≤ l) : maximum (l :: logits) = l := by
  unfold maximum
  dsimp only
  induction logits with
  | nil => rfl
  | cons l' logits ih =>
    rw [List.foldl_cons, max_eq_left (h l' List.mem_cons_self)]
    exact ih fun l'' hl'' => h l'' (List.mem_cons_of_mem _ hl'')

omit [Field K] in
theorem fst_le_of_isLE {a b : K × Token} (h : (byLogitDesc a b).isLE) : b.1 ≤ a.1 := by
  rw [isLE_byLogitDesc] at h
  unfold Local.byLogitDesc at h
  rw [Bool.or_eq_true, Bool.and_eq_true, decide_eq_true_eq, beq_iff_eq] at h
  rcases h with h | h
  · exact h.le
  · exact h.1.ge

/-- **The search** is the sampler's, which ranks the whole vocabulary first. -/
theorem warpCandidates_eq (exp : K → K) (logits : List K) (temperature : K) (topK : Nat) (topP : K) :
    warpCandidates s exp logits temperature topK topP = some (Local.warpCandidates exp logits temperature topK topP) := by
  unfold warpCandidates Local.warpCandidates
  dsimp only
  obtain ⟨candidates, hcandidates⟩ : ∃ candidates, (logits.map (· / temperature)).zipIdx = candidates := ⟨_, rfl⟩
  rw [hcandidates, mergeSort_eq]
  by_cases htop : 0 < topK ∧ topK < candidates.length
  · obtain ⟨selected, hselect, -, hsorted⟩ := s.selectNth_eq (distinguishes candidates) (Nat.ne_of_gt htop.1) (Nat.le_of_lt htop.2)
    rw [if_pos htop, if_pos htop, hselect]
    dsimp only [Option.bind_eq_bind, Option.bind_some]
    rw [hsorted]
    have hranked : ((sortBy byLogitDesc candidates).take topK).Pairwise fun a b => (byLogitDesc a b).isLE :=
      (sortBy_sorted candidates).sublist (List.take_sublist _ _)
    rcases hkept : (sortBy byLogitDesc candidates).take topK with _ | ⟨best, rest⟩
    · have hlength := congrArg List.length hkept
      rw [List.length_take, length_sortBy, List.length_nil] at hlength
      omega
    · rw [hkept] at hranked
      have hmax : maximum ((best :: rest).map Prod.fst) = best.1 := by
        refine maximum_of_head fun l hl => ?_
        obtain ⟨c, hc, rfl⟩ := List.mem_map.mp hl
        exact fst_le_of_isLE ((List.pairwise_cons.mp hranked).1 c hc)
      rw [hmax]
      rfl
  · rw [if_neg htop, if_neg htop]
    split
    · rfl
    · obtain ⟨n, selected, hwiden, hn, hsorted⟩ := widen_eq s (fun l => exp (l - maximum (logits.map (· / temperature))))
        ((logits.map (· / temperature)).map fun l => exp (l - maximum (logits.map (· / temperature)))).sum topP
        (show candidates ≠ [] → 0 < min nucleusFirst candidates.length from fun h => lt_min (by decide) (List.length_pos_of_ne_nil h))
        (show candidates.length - min nucleusFirst candidates.length ≤ candidates.length by omega) (List.Perm.refl candidates)
      rw [hwiden]
      dsimp only [Option.bind_eq_bind, Option.bind_some, Option.pure_def]
      rw [hsorted, hn]

/-! ## The plain algorithm -/

section
variable [IsStrictOrderedRing K]

omit [IsStrictOrderedRing K] in
theorem cutTopP_eq (topP : K) (candidates : List (K × Token)) {cumulative : K} (h : cumulative < topP) :
    cutTopP topP cumulative candidates =
      candidates.take ((List.range (candidates.length + 1)).findIdx fun n => topP ≤ cumulative + ((candidates.take n).map Prod.fst).sum) := by
  induction candidates generalizing cumulative with
  | nil => rw [List.take_nil]; rfl
  | cons c candidates ih =>
    rw [cutTopP, List.length_cons, List.range_succ_eq_map, List.findIdx_cons]
    simp only [List.take_zero, List.map_nil, List.sum_nil, add_zero, decide_eq_false (not_le.mpr h), cond_false, List.take_succ_cons,
      List.findIdx_map]
    by_cases hreached : topP ≤ cumulative + c.1
    · rw [if_pos hreached, List.range_succ_eq_map, List.findIdx_cons]
      simp [hreached]
    · rw [if_neg hreached, ih (not_le.mp hreached)]
      simp only [Function.comp_def, List.take_succ_cons, List.map_cons, List.sum_cons, add_assoc]

omit [IsStrictOrderedRing K] in
theorem cutTopP_shortest {topP : K} (h : 0 < topP) (candidates : List (K × Token)) : cutTopP topP 0 candidates = shortest topP candidates := by
  rw [cutTopP_eq topP candidates h]
  simp only [shortest, zero_add]

omit [IsStrictOrderedRing K] in
theorem cutTopP_take {topP : K} {candidates : List (K × Token)} {cumulative : K} (h : cumulative < topP) {m : Nat}
    (hm : topP ≤ cumulative + ((candidates.take m).map Prod.fst).sum ∨ candidates.length ≤ m) :
    cutTopP topP cumulative (candidates.take m) = cutTopP topP cumulative candidates := by
  induction candidates generalizing cumulative m with
  | nil => rw [List.take_nil]
  | cons c candidates ih =>
    rcases m with _ | m
    · rcases hm with hm | hm
      · rw [List.take_zero, List.map_nil, List.sum_nil, add_zero] at hm
        exact absurd hm (not_le.mpr h)
      · exact absurd hm (Nat.not_succ_le_zero _)
    · rw [List.take_succ_cons, cutTopP, cutTopP]
      split
      · rfl
      · rename_i hreached
        rw [ih (not_le.mp hreached)]
        rcases hm with hm | hm
        · rw [List.take_succ_cons, List.map_cons, List.sum_cons, ← add_assoc] at hm
          exact .inl hm
        · exact .inr (Nat.le_of_succ_le_succ hm)

theorem cutTopP_all {candidates : List (K × Token)} (hpos : ∀ c ∈ candidates, 0 < c.1) {topP cumulative : K}
    (h : cumulative + (candidates.map Prod.fst).sum ≤ topP) : cutTopP topP cumulative candidates = candidates := by
  induction candidates generalizing cumulative with
  | nil => rfl
  | cons c candidates ih =>
    have hrest := fun c' hc' => hpos c' (List.mem_cons_of_mem c hc')
    rw [List.map_cons, List.sum_cons, ← add_assoc] at h
    rw [cutTopP, ih hrest h]
    rcases candidates with _ | ⟨c', candidates⟩
    · split <;> rfl
    · rw [if_neg]
      have hsum : 0 < ((c' :: candidates).map Prod.fst).sum := by
        apply List.sum_pos
        · intro w hw
          obtain ⟨c'', hc'', rfl⟩ := List.mem_map.mp hw
          exact hrest c'' hc''
        · simp
      exact not_le.mpr (lt_of_lt_of_le (lt_add_of_pos_right _ hsum) h)

omit [Field K] [IsStrictOrderedRing K] in
theorem nucleus_reaches (mass : Nat → K) (topP : K) (v : Nat) {m : Nat} (hm : v ≠ 0 → 0 < m) {fuel : Nat} (hfuel : v - m ≤ fuel) :
    topP ≤ mass (nucleus mass topP v fuel m) ∨ v ≤ nucleus mass topP v fuel m := by
  induction fuel generalizing m with
  | zero => exact .inr (by rw [nucleus]; omega)
  | succ fuel ih =>
    rw [nucleus]
    split
    · assumption
    · rename_i hmore
      have hlt := not_le.mp (not_or.mp hmore).2
      have hm' := hm (Nat.ne_of_gt (Nat.zero_lt_of_lt hlt))
      exact ih (fun _ => by omega) (by omega)

omit [IsStrictOrderedRing K] in
theorem maximum_spec {logits : List K} (h : logits ≠ []) : maximum logits ∈ logits ∧ ∀ l ∈ logits, l ≤ maximum logits := by
  rcases logits with _ | ⟨l, logits⟩
  · exact absurd rfl h
  · unfold maximum
    dsimp only
    clear h
    induction logits generalizing l with
    | nil => simp
    | cons l' logits ih =>
      obtain ⟨hmem, hle⟩ := ih (max l l')
      rw [List.foldl_cons]
      have hfirst := hle (max l l') List.mem_cons_self
      refine ⟨?_, fun x hx => ?_⟩
      · rcases List.mem_cons.mp hmem with heq | hmem
        · rw [heq]
          rcases max_choice l l' with hmax | hmax
          · rw [hmax]
            exact List.mem_cons_self
          · rw [hmax]
            exact List.mem_cons_of_mem _ List.mem_cons_self
        · exact List.mem_cons_of_mem _ (List.mem_cons_of_mem _ hmem)
      · rcases List.mem_cons.mp hx with rfl | hx
        · exact (le_max_left _ _).trans hfirst
        · rcases List.mem_cons.mp hx with rfl | hx
          · exact (le_max_right _ _).trans hfirst
          · exact hle x (List.mem_cons_of_mem _ hx)

omit [IsStrictOrderedRing K] in
theorem maximum_perm {logits logits' : List K} (h : logits.Perm logits') : maximum logits = maximum logits' := by
  by_cases hne : logits = []
  · rw [hne, List.Perm.nil_eq (hne ▸ h)]
  · have hne' : logits' ≠ [] := fun hnil => hne (List.Perm.eq_nil (hnil ▸ h))
    exact le_antisymm ((maximum_spec hne').2 _ (h.subset (maximum_spec hne).1)) ((maximum_spec hne).2 _ (h.symm.subset (maximum_spec hne').1))

theorem sortBy_div {temperature : K} (h : 0 < temperature) (logits : List K) :
    (sortBy byLogitDesc logits.zipIdx).map (fun c => (c.1 / temperature, c.2)) = sortBy byLogitDesc (logits.map (· / temperature)).zipIdx := by
  rw [List.zipIdx_map]
  refine map_sortBy (fun c : K × Token => (c.1 / temperature, c.2)) fun a _ b _ => ?_
  have hcompare : compare (b.1 / temperature) (a.1 / temperature) = compare b.1 a.1 := by
    rcases lt_trichotomy b.1 a.1 with hlt | heq | hgt
    · rw [compare_lt_iff_lt.mpr hlt, compare_lt_iff_lt.mpr (div_lt_div_of_pos_right hlt h)]
    · rw [heq, compare_eq_iff_eq.mpr rfl, compare_eq_iff_eq.mpr rfl]
    · rw [compare_gt_iff_gt.mpr hgt, compare_gt_iff_gt.mpr (div_lt_div_of_pos_right hgt h)]
  unfold byLogitDesc
  rw [hcompare]

omit [IsStrictOrderedRing K] in
theorem softmax_perm (exp : K → K) {logits : List K} {candidates : List (K × Token)} (h : candidates.Perm logits.zipIdx) :
    softmax exp candidates = candidates.map fun c => (exp (c.1 - maximum logits) / (logits.map fun l => exp (l - maximum logits)).sum, c.2) := by
  have hfirst : (candidates.map Prod.fst).Perm logits := by
    have hmap := h.map Prod.fst
    rwa [List.zipIdx_map_fst] at hmap
  unfold softmax
  dsimp only
  rw [maximum_perm hfirst, ← (hfirst.map fun l => exp (l - maximum logits)).sum_eq, List.map_map]
  rfl

omit [IsStrictOrderedRing K] in
theorem softmax_sum (exp : K → K) (candidates : List (K × Token)) (n : Nat) :
    (((softmax exp candidates).take n).map Prod.fst).sum =
      ((candidates.take n).map fun c => exp (c.1 - maximum (candidates.map Prod.fst))).sum /
        (candidates.map fun c => exp (c.1 - maximum (candidates.map Prod.fst))).sum := by
  unfold softmax
  dsimp only
  rw [← List.map_take, List.map_map]
  generalize candidates.take n = first
  induction first with
  | nil => simp
  | cons c first ih =>
    simp only [List.map_cons, List.sum_cons, Function.comp_apply] at *
    rw [ih, add_div]

/-- **The search leaves what the plain algorithm leaves**, in its order where anything is cut. -/
theorem warpCandidates_plain {exp : K → K} (hexp : ∀ x, 0 < exp x) (logits : List K) {temperature : K} (htemperature : 0 < temperature)
    (topK : Nat) {topP : K} (hpos : 0 < topP) :
    ∃ candidates, warpCandidates s exp logits temperature topK topP = some candidates ∧
      candidates.Perm (plain exp logits temperature topK topP) ∧
      (topP < 1 ∨ 0 < topK ∧ topK < logits.length → candidates = plain exp logits temperature topK topP) := by
  refine ⟨_, warpCandidates_eq s exp logits temperature topK topP, ?_⟩
  have hlength : (logits.map (· / temperature)).zipIdx.length = logits.length := by rw [List.length_zipIdx, List.length_map]
  unfold Local.warpCandidates plain
  dsimp only
  rw [mergeSort_eq, hlength, ← cutTopP_shortest hpos]
  have hranked := sortBy_div htemperature logits
  have hperm := sortBy_perm byLogitDesc (logits.map (· / temperature)).zipIdx
  obtain ⟨ranked, hrankedEq⟩ : ∃ ranked, sortBy byLogitDesc (logits.map (· / temperature)).zipIdx = ranked := ⟨_, rfl⟩
  rw [hrankedEq] at hranked hperm ⊢
  by_cases htop : 0 < topK ∧ topK < logits.length
  · have hkept : ((sortBy byLogitDesc logits.zipIdx).take topK).map (fun c => (c.1 / temperature, c.2)) = ranked.take topK := by
      rw [List.map_take, hranked]
    rw [if_pos htop, if_neg (Nat.ne_of_gt htop.1), hkept]
    have hsoft : ((ranked.take topK).map fun c => (exp (c.1 - maximum ((ranked.take topK).map Prod.fst)), c.2)).map (fun c =>
        (c.1 / (((ranked.take topK).map fun c => (exp (c.1 - maximum ((ranked.take topK).map Prod.fst)), c.2)).map Prod.fst).sum, c.2)) =
        softmax exp (ranked.take topK) := by
      unfold softmax
      simp only [List.map_map, Function.comp_def]
    rw [hsoft]
    exact ⟨List.Perm.refl _, fun _ => rfl⟩
  · have hkept : (if topK = 0 then sortBy byLogitDesc logits.zipIdx else (sortBy byLogitDesc logits.zipIdx).take topK) =
        sortBy byLogitDesc logits.zipIdx := by
      split
      · rfl
      · rw [List.take_of_length_le (by rw [length_sortBy, List.length_zipIdx]; omega)]
    rw [if_neg htop, hkept, hranked]
    have hsoft := softmax_perm exp hperm
    by_cases hall : 1 ≤ topP
    · rw [if_pos hall]
      have hsum := softmax_sum exp ranked ranked.length
      rw [List.take_of_length_le (Nat.le_refl _), List.take_of_length_le (by rw [hsoft, List.length_map])] at hsum
      have hcut : cutTopP topP 0 (softmax exp ranked) = softmax exp ranked := by
        refine cutTopP_all (fun c hc => ?_) ?_
        · obtain ⟨c', hc', rfl⟩ := List.mem_map.mp hc
          refine div_pos (hexp _) (List.sum_pos _ (fun w hw => ?_) ?_)
          · obtain ⟨c'', -, rfl⟩ := List.mem_map.mp hw
            exact hexp _
          · exact fun hnil => List.ne_nil_of_mem hc' (List.map_eq_nil_iff.mp hnil)
        · rw [zero_add, hsum]
          exact (div_self_le_one _).trans hall
      rw [hcut, hsoft]
      refine ⟨(hperm.map _).symm, ?_⟩
      rintro (hless | hless)
      · exact absurd hless (not_lt.mpr hall)
      · exact absurd hless htop
    · rw [if_neg hall]
      obtain ⟨mass, hmass⟩ : ∃ mass, (fun m => ((ranked.take m).map fun c => exp (c.1 - maximum (logits.map (· / temperature)))).sum /
        ((logits.map (· / temperature)).map fun l => exp (l - maximum (logits.map (· / temperature)))).sum) = mass := ⟨_, rfl⟩
      rw [hmass]
      obtain ⟨n, hn⟩ : ∃ n, nucleus mass topP logits.length logits.length (min nucleusFirst logits.length) = n := ⟨_, rfl⟩
      have hreaches := nucleus_reaches mass topP logits.length (show logits.length ≠ 0 → 0 < min nucleusFirst logits.length from fun h =>
        lt_min (by decide) (Nat.pos_of_ne_zero h)) (show logits.length - min nucleusFirst logits.length ≤ logits.length by omega)
      rw [hn] at hreaches ⊢
      have hfirst : (ranked.map Prod.fst).Perm (logits.map (· / temperature)) := by
        have hmap := hperm.map Prod.fst
        rwa [List.zipIdx_map_fst] at hmap
      have hcut : cutTopP topP 0 ((softmax exp ranked).take n) = cutTopP topP 0 (softmax exp ranked) := by
        refine cutTopP_take hpos ?_
        rw [zero_add, softmax_sum, maximum_perm hfirst, hsoft, List.length_map, hperm.length_eq, hlength]
        have hsum := (hfirst.map fun l => exp (l - maximum (logits.map (· / temperature)))).sum_eq
        rw [List.map_map] at hsum
        rw [← hmass] at hreaches
        dsimp only at hreaches
        rw [← hsum] at hreaches
        exact hreaches
      rw [List.map_take, ← hsoft, hcut]
      exact ⟨List.Perm.refl _, fun _ => rfl⟩

end

def growing (x : ℚ) : ℚ := if x < 0 then 1 / (1 - x) else 1 + x

theorem growing_pos (x : ℚ) : 0 < growing x := by
  unfold growing
  split
  · exact div_pos one_pos (by linarith)
  · linarith

theorem warpCandidates_plain_ties : ∃ candidates, warpCandidates (SliceSort.whole (ℚ × Token)) growing [1, 3, 3, 0] 2 3 (1 / 2) = some candidates ∧
    candidates.Perm (plain growing [1, 3, 3, 0] 2 3 (1 / 2)) ∧
    ((1 / 2 : ℚ) < 1 ∨ 0 < 3 ∧ 3 < [1, 3, 3, (0 : ℚ)].length → candidates = plain growing [1, 3, 3, 0] 2 3 (1 / 2)) :=
  warpCandidates_plain (SliceSort.whole (ℚ × Token)) growing_pos [1, 3, 3, 0] (by norm_num) 3 (by norm_num)

end Cuca.Local.Nucleus
