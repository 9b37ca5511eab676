import Cuca.Lib.Chunks
import Cuca.Lib.Parallel
import Cuca.Local.Nucleus

/-!
# The routing kernel

A mixture of experts sends each token to the experts of largest probability. The host sorts; the kernel has a thread for each expert, and finds
the best by a reduction in halves, again and again. Arithmetic is exact; the exponential is a parameter.

* `route` : the host; `routeRow` is its choice for a token;
* `kernel` : the phases of the kernel between barriers;
* `kernel_independent` : no thread reads what another writes;
* `routeKernel_route` : the kernel writes the host's choice, whatever the schedules.
-/

namespace Cuca.Local.Route
open Chunks Parallel Ranking
open Std (TransCmp OrientedCmp)

variable {K : Type} [Field K] [LinearOrder K]

/-! ## The host -/

structure MoeSpec where
  nExpert : Nat
  nUsed : Nat
  normWeights : Bool

def probsOf (exp : K → K) (row : List K) : List K := row.map fun l => exp (l - maximum row)

def byProb (probs : List K) (a b : Nat) : Ordering := (compare (probs.getD b 0) (probs.getD a 0)).then (compare a b)

variable (sort : SliceSort Nat) (exp : K → K)

/-- The experts of a token, with their weights. -/
def routeRow (spec : MoeSpec) (row : List K) : List (Nat × K) :=
  let probs := probsOf exp row
  let kept := (sort.sort (byProb probs) (List.range spec.nExpert)).take spec.nUsed
  let denominator := if spec.normWeights then (kept.map fun e => probs.getD e 0).sum else probs.sum
  kept.map fun e => (e, probs.getD e 0 / denominator)

def push (token : Nat) (perExpert : List (List (Nat × K))) (kept : Nat × K) : List (List (Nat × K)) :=
  perExpert.set kept.1 (perExpert.getD kept.1 [] ++ [(token, kept.2)])

/-- Tokens and weights for each expert; no experts, or fewer than are used, are a panic. -/
def route (spec : MoeSpec) (logits : List K) (t : Nat) : Option (List (List (Nat × K))) :=
  let rows := (chunks spec.nExpert logits).take t
  if spec.nExpert = 0 ∨ (spec.nExpert < spec.nUsed ∧ rows ≠ []) then none
  else some (rows.zipIdx.foldl (fun perExpert row => (routeRow sort exp spec row.1).foldl (push row.2) perExpert)
    (List.replicate spec.nExpert []))

/-! ## What the host chooses -/

instance (probs : List K) : TransCmp (byProb probs) := by
  have : TransCmp fun a b : Nat => compare (probs.getD b 0) (probs.getD a 0) := transCmp_descending fun e => probs.getD e 0
  exact inferInstanceAs (TransCmp (compareLex _ _))

/-- `x` is no better than `y`. -/
def Worse (x y : K × Nat) : Prop := x.1 < y.1 ∨ (x.1 = y.1 ∧ y.2 ≤ x.2)

theorem worse_of_isLE {probs : List K} {a b : Nat} (h : (byProb probs a b).isLE) : Worse (probs.getD b 0, b) (probs.getD a 0, a) := by
  unfold byProb at h
  rcases lt_trichotomy (probs.getD b 0) (probs.getD a 0) with hlt | heq | hgt
  · exact .inl hlt
  · rw [compare_eq_iff_eq.mpr heq] at h
    exact .inr ⟨heq, Nat.isLE_compare.mp h⟩
  · rw [compare_gt_iff_gt.mpr hgt] at h
    exact absurd h Bool.false_ne_true

theorem routeRow_eq (spec : MoeSpec) (row : List K) : ∃ order : List Nat, order.Perm (List.range spec.nExpert) ∧
    order.Pairwise (fun a b => Worse ((probsOf exp row).getD b 0, b) ((probsOf exp row).getD a 0, a)) ∧
    routeRow sort exp spec row = (order.take spec.nUsed).map fun e => (e, (probsOf exp row).getD e 0 /
      if spec.normWeights then ((order.take spec.nUsed).map fun e => (probsOf exp row).getD e 0).sum else (probsOf exp row).sum) := by
  refine ⟨sort.sort (byProb (probsOf exp row)) (List.range spec.nExpert), sort.sort_perm _ _, ?_, rfl⟩
  exact (sort.sorted (byProb (probsOf exp row)) _).imp worse_of_isLE

theorem lt_of_mem_routeRow {spec : MoeSpec} {row : List K} {kept : Nat × K} (h : kept ∈ routeRow sort exp spec row) : kept.1 < spec.nExpert := by
  obtain ⟨order, hperm, _, heq⟩ := routeRow_eq sort exp spec row
  rw [heq] at h
  obtain ⟨e, he, rfl⟩ := List.mem_map.mp h
  exact List.mem_range.mp (hperm.subset (List.mem_of_mem_take he))

omit [Field K] [LinearOrder K] in
theorem mem_pushes (token : Nat) {kepts : List (Nat × K)} {perExpert : List (List (Nat × K))} (h : ∀ kept ∈ kepts, kept.1 < perExpert.length) :
    (kepts.foldl (push token) perExpert).length = perExpert.length ∧ ∀ e t w, (t, w) ∈ (kepts.foldl (push token) perExpert).getD e [] ↔
      (t, w) ∈ perExpert.getD e [] ∨ (t = token ∧ (e, w) ∈ kepts) := by
  induction kepts generalizing perExpert with
  | nil => simp
  | cons kept kepts ih =>
    have hkept := h kept List.mem_cons_self
    have hlength : (push token perExpert kept).length = perExpert.length := List.length_set
    have hpush (e t : Nat) (w : K) : (t, w) ∈ (push token perExpert kept).getD e [] ↔
        (t, w) ∈ perExpert.getD e [] ∨ (t = token ∧ (e, w) = kept) := by
      unfold push
      rw [List.getD_eq_getElem?_getD, List.getElem?_set]
      by_cases he : kept.1 = e
      · subst he
        simp [hkept, Prod.ext_iff]
      · simp [he, Prod.ext_iff, Ne.symm he]
    rw [List.foldl_cons]
    have hrest (kept' : Nat × K) (hkept' : kept' ∈ kepts) : kept'.1 < (push token perExpert kept).length :=
      hlength ▸ h kept' (List.mem_cons_of_mem _ hkept')
    obtain ⟨hlen, hmem⟩ := ih hrest
    refine ⟨hlen.trans hlength, fun e t w => ?_⟩
    rw [hmem, hpush, List.mem_cons, or_assoc, ← and_or_left]

/-- **The host** sends each token to the experts of its row. -/
theorem route_spec (spec : MoeSpec) (logits : List K) (t : Nat) (hn : 0 < spec.nExpert) (hused : spec.nUsed ≤ spec.nExpert) :
    ∃ perExpert, route sort exp spec logits t = some perExpert ∧ ∀ e token w, (token, w) ∈ perExpert.getD e [] ↔
      ∃ row, ((chunks spec.nExpert logits).take t)[token]? = some row ∧ (e, w) ∈ routeRow sort exp spec row := by
  have hguard : ¬(spec.nExpert = 0 ∨ (spec.nExpert < spec.nUsed ∧ (chunks spec.nExpert logits).take t ≠ [])) := by omega
  refine ⟨_, if_neg hguard, ?_⟩
  have hrun (rows : List (List K × Nat)) (perExpert : List (List (Nat × K))) (hlength : perExpert.length = spec.nExpert) (e token : Nat) (w : K) :
      (token, w) ∈ (rows.foldl (fun perExpert row => (routeRow sort exp spec row.1).foldl (push row.2) perExpert) perExpert).getD e [] ↔
        (token, w) ∈ perExpert.getD e [] ∨ ∃ row, (row, token) ∈ rows ∧ (e, w) ∈ routeRow sort exp spec row := by
    induction rows generalizing perExpert with
    | nil => simp
    | cons row rows ih =>
      have hexperts (kept : Nat × K) (hkept : kept ∈ routeRow sort exp spec row.1) : kept.1 < perExpert.length :=
        hlength ▸ lt_of_mem_routeRow sort exp hkept
      obtain ⟨hlen, hmem⟩ := mem_pushes row.2 hexperts
      rw [List.foldl_cons, ih _ (hlen.trans hlength), hmem, or_assoc]
      refine or_congr_right ?_
      constructor
      · rintro (⟨rfl, hrow⟩ | ⟨row', hrow', hin⟩)
        · exact ⟨row.1, List.mem_cons_self, hrow⟩
        · exact ⟨row', List.mem_cons_of_mem _ hrow', hin⟩
      · rintro ⟨row', hrow', hin⟩
        rcases List.mem_cons.mp hrow' with heq | hrow'
        · subst heq
          exact .inl ⟨rfl, hin⟩
        · exact .inr ⟨row', hrow', hin⟩
  intro e token w
  rw [hrun _ _ List.length_replicate]
  have hnone : (token, w) ∉ (List.replicate spec.nExpert ([] : List (Nat × K))).getD e [] := by
    rw [List.getD_eq_getElem?_getD, List.getElem?_replicate]
    split <;> exact List.not_mem_nil
  rw [or_iff_right hnone]
  simp only [List.mem_zipIdx_iff_getElem?]

/-! ## The kernel -/

/-- Shared memory, the registers of the threads, and the output. -/
inductive Cell where
  | red (i : Nat)
  | probs (i : Nat)
  | who (i : Nat)
  | mine (t : Nat)
  | top (t : Nat)
  | total (t : Nat)
  | best (t : Nat)
  | bestP (t : Nat)
  | kept
  | out (i : Nat)

def Value (K : Type) : Cell → Type
  | .who _ | .best _ => Nat
  | _ => K

section
variable (mem : Memory (Value K)) (i : Nat)

def red : K := mem (.red i)

def probs : K := mem (.probs i)

def who : Nat := mem (.who i)

def mine : K := mem (.mine i)

def top : K := mem (.top i)

def total : K := mem (.total i)

def best : Nat := mem (.best i)

def bestP : K := mem (.bestP i)

def keptSum : K := mem .kept

def out : K := mem (.out i)

end

/-- What the kernel is launched with, and the token of the cube. -/
structure Call (K : Type) where
  logits : List K
  tokens : Nat
  norm : Bool
  nExpert : Nat
  nUsed : Nat
  tok : Nat

/-- Whether the expert `b` is better than `a`; the lower one where they tie. -/
def better (a b : K × Nat) : Bool := a.1 < b.1 || (b.1 == a.1 && b.2 < a.2)

def pickMax (a b : K) : K := if a < b then b else a

def pickBest (a b : K × Nat) : K × Nat := if better a b then b else a

def pairs (mem : Memory (Value K)) (t : Nat) : K × Nat := (red mem t, who mem t)

namespace Call
variable (call : Call K)

def base : Nat := call.tok * call.nExpert

def spec : MoeSpec := ⟨call.nExpert, call.nUsed, call.norm⟩

def row : List K := (call.logits.drop call.base).take call.nExpert

def expertsAt : Nat := call.tok * call.nUsed

def weightsAt : Nat := call.tokens * call.nUsed + call.tok * call.nUsed

def logit (t : Nat) : K := if t < call.nExpert then call.logits.getD (call.base + t) 0 else call.logits.getD call.base 0

def load : Phase (Value K) where
  owns t
    | .mine i | .red i => i = t
    | _ => false
  act t mem
    | .mine _ | .red _ => call.logit t
    | c => mem c

/-- A step of the maximum. -/
def maxStep (s : Nat) : Phase (Value K) where
  owns t
    | .red i => i = t ∧ t < s
    | _ => false
  act t mem
    | .red _ => (if red mem t < red mem (t + s) then red mem (t + s) else red mem t : K)
    | c => mem c

def readTop : Phase (Value K) where
  owns t
    | .top i => i = t
    | _ => false
  act _ mem
    | .top _ => (red mem 0 : K)
    | c => mem c

/-- Idle threads are below every probability. -/
def putProb : Phase (Value K) where
  owns t
    | .probs i => i = t
    | _ => false
  act t mem
    | .probs _ => (if t < call.nExpert then exp (mine mem t - top mem t) else (top mem t - top mem t) - 1 : K)
    | c => mem c

def putTotal : Phase (Value K) where
  owns t
    | .red i => t = 0 ∧ i = 0
    | _ => false
  act _ mem
    | .red _ => ((List.range call.nExpert).foldl (fun total e => total + probs mem e) 0 : K)
    | c => mem c

def readTotal : Phase (Value K) where
  owns t
    | .total i => i = t
    | .kept => t = 0
    | _ => false
  act _ mem
    | .total _ => (red mem 0 : K)
    | .kept => (0 : K)
    | c => mem c

def putRed : Phase (Value K) where
  owns t
    | .red i | .who i => i = t
    | _ => false
  act t mem
    | .red _ => (probs mem t : K)
    | .who _ => t
    | c => mem c

/-- A step of the selection. -/
def argStep (s : Nat) : Phase (Value K) where
  owns t
    | .red i | .who i => i = t ∧ t < s
    | _ => false
  act t mem
    | .red _ => (if better (red mem t, who mem t) (red mem (t + s), who mem (t + s)) then red mem (t + s) else red mem t : K)
    | .who _ => (if better (red mem t, who mem t) (red mem (t + s), who mem (t + s)) then who mem (t + s) else who mem t : Nat)
    | c => mem c

def readBest : Phase (Value K) where
  owns t
    | .best i | .bestP i => i = t
    | _ => false
  act _ mem
    | .best _ => (who mem 0 : Nat)
    | .bestP _ => (red mem 0 : K)
    | c => mem c

/-- The selected expert is put out, and is taken. -/
def putBest (i : Nat) : Phase (Value K) where
  owns t
    | .out j => t = 0 ∧ (j = call.expertsAt + i ∨ j = call.weightsAt + i)
    | .kept => t = 0
    | .probs _ => t = 0
    | _ => false
  act _ mem
    | .out j => (if j = call.weightsAt + i then bestP mem 0 else best mem 0 : K)
    | .kept => (keptSum mem + bestP mem 0 : K)
    | .probs e => (if e = best mem 0 then (top mem 0 - top mem 0) - 2 else probs mem e : K)
    | c => mem c

def divide : Phase (Value K) where
  owns t
    | .out j => t = 0 ∧ call.weightsAt ≤ j ∧ j < call.weightsAt + call.nUsed
    | _ => false
  act _ mem
    | .out j => (out mem j / (if call.norm then keptSum mem else total mem 0) : K)
    | c => mem c

def reduce (dim steps : Nat) : List (Phase (Value K)) := putRed :: ((sizes dim steps).map argStep ++ [readBest])

def select (dim steps i : Nat) : List (Phase (Value K)) := reduce dim steps ++ [call.putBest i]

def prepare (dim steps : Nat) : List (Phase (Value K)) :=
  call.load :: ((sizes dim steps).map maxStep ++ [readTop, call.putProb exp, call.putTotal, readTotal])

/-- `route_kernel`, phase by phase. -/
def kernel (dim steps : Nat) : List (Phase (Value K)) :=
  call.prepare exp dim steps ++ ((List.range call.nUsed).flatMap (call.select dim steps) ++ [call.divide])

/-! ## No thread reads what another writes -/

variable {call} {exp} {dim : Nat}

section
omit [LinearOrder K]

theorem load_independent : Independent call.load dim where
  disjoint t _ t' _ c hc hc' := by
    cases c <;> simp [load] at hc hc'
    · rw [← hc, hc']
    · rw [← hc, hc']
  apart t _ mem mem' h c hc := by
    cases c <;> simp [load] at hc
    · rfl
    · rfl

omit [Field K] in
theorem readTop_independent : Independent (readTop (K := K)) dim where
  disjoint t _ t' _ c hc hc' := by
    cases c <;> simp [readTop] at hc hc'
    rw [← hc, hc']
  apart t _ mem mem' h c hc := by
    cases c <;> simp [readTop] at hc
    exact h (.red 0) fun _ _ _ => rfl

theorem putProb_independent : Independent (call.putProb exp) dim where
  disjoint t _ t' _ c hc hc' := by
    cases c <;> simp [putProb] at hc hc'
    rw [← hc, hc']
  apart t _ mem mem' h c hc := by
    cases c <;> simp [putProb] at hc
    have hmine : mine mem t = mine mem' t := h (.mine t) fun _ _ _ => rfl
    have htop : top mem t = top mem' t := h (.top t) fun _ _ _ => rfl
    unfold putProb
    dsimp only
    rw [hmine, htop]

theorem putTotal_independent : Independent call.putTotal dim := by
  refine Independent.single fun t c hc => ?_
  cases c <;> simp [putTotal] at hc
  exact hc.1

theorem readTotal_independent : Independent (readTotal (K := K)) dim where
  disjoint t _ t' _ c hc hc' := by
    cases c <;> simp [readTotal] at hc hc'
    · rw [← hc, hc']
    · rw [hc, hc']
  apart t _ mem mem' h c hc := by
    cases c <;> simp [readTotal] at hc
    · exact h (.red 0) fun _ _ _ => rfl
    · rfl

omit [Field K] in
theorem putRed_independent : Independent (putRed (K := K)) dim where
  disjoint t _ t' _ c hc hc' := by
    cases c <;> simp [putRed] at hc hc'
    · rw [← hc, hc']
    · rw [← hc, hc']
  apart t _ mem mem' h c hc := by
    cases c <;> simp [putRed] at hc
    · exact h (.probs t) fun _ _ _ => rfl
    · rfl

omit [Field K] in
theorem readBest_independent : Independent (readBest (K := K)) dim where
  disjoint t _ t' _ c hc hc' := by
    cases c <;> simp [readBest] at hc hc'
    · rw [← hc, hc']
    · rw [← hc, hc']
  apart t _ mem mem' h c hc := by
    cases c <;> simp [readBest] at hc
    · exact h (.who 0) fun _ _ _ => rfl
    · exact h (.red 0) fun _ _ _ => rfl

theorem putBest_independent (i : Nat) : Independent (call.putBest i) dim := by
  refine Independent.single fun t c hc => ?_
  cases c <;> simp [putBest] at hc
  · exact hc
  · exact hc
  · exact hc.1

theorem divide_independent : Independent call.divide dim := by
  refine Independent.single fun t c hc => ?_
  cases c <;> simp [divide] at hc
  exact hc.1

end

omit [Field K] in
theorem maxStep_independent (s : Nat) : Independent (maxStep (K := K) s) dim where
  disjoint t _ t' _ c hc hc' := by
    cases c <;> simp [maxStep] at hc hc'
    rw [← hc.1, hc'.1]
  apart t _ mem mem' h c hc := by
    cases c <;> simp [maxStep] at hc
    have hlow : red mem t = red mem' t := h (.red t) fun t' _ hne => by simp [maxStep, Ne.symm hne]
    have hhigh : red mem (t + s) = red mem' (t + s) := h (.red (t + s)) fun t' _ _ => by
      simp [maxStep]
      omega
    unfold maxStep
    dsimp only
    rw [hlow, hhigh]

omit [Field K] in
theorem argStep_independent (s : Nat) : Independent (argStep (K := K) s) dim where
  disjoint t _ t' _ c hc hc' := by
    cases c <;> simp [argStep] at hc hc'
    · rw [← hc.1, hc'.1]
    · rw [← hc.1, hc'.1]
  apart t _ mem mem' h c hc := by
    have hlow (c : Cell) (hcell : c = .red t ∨ c = .who t) : mem c = mem' c := by
      refine h c fun t' _ hne => ?_
      rcases hcell with rfl | rfl <;> simp [argStep, Ne.symm hne]
    have hhigh (c : Cell) (hcell : c = .red (t + s) ∨ c = .who (t + s)) : mem c = mem' c := by
      refine h c fun t' _ hne => ?_
      rcases hcell with rfl | rfl <;> simp [argStep] <;> omega
    have hred : red mem t = red mem' t := hlow _ (.inl rfl)
    have hwho : who mem t = who mem' t := hlow _ (.inr rfl)
    have hred' : red mem (t + s) = red mem' (t + s) := hhigh _ (.inl rfl)
    have hwho' : who mem (t + s) = who mem' (t + s) := hhigh _ (.inr rfl)
    cases c <;> simp [argStep] at hc
    · unfold argStep
      dsimp only
      rw [hred, hwho, hred', hwho']
    · unfold argStep
      dsimp only
      rw [hred, hwho, hred', hwho']

/-- **No thread** reads what another writes before the next barrier. -/
theorem kernel_independent (steps : Nat) : ∀ p ∈ call.kernel exp dim steps, Independent p dim := by
  intro p hp
  unfold kernel prepare at hp
  simp only [List.cons_append, List.mem_cons, List.mem_append, List.mem_map, List.mem_flatMap, select, reduce, List.not_mem_nil, or_false] at hp
  rcases hp with rfl | (⟨s, _, rfl⟩ | rfl | rfl | rfl | rfl) | ⟨i, _, rfl | (⟨s, _, rfl⟩ | rfl) | rfl⟩ | rfl
  · exact load_independent
  · exact maxStep_independent s
  · exact readTop_independent
  · exact putProb_independent
  · exact putTotal_independent
  · exact readTotal_independent
  · exact putRed_independent
  · exact argStep_independent s
  · exact readBest_independent
  · exact putBest_independent i
  · exact divide_independent

/-! ## What the phases leave -/

variable {mem : Memory (Value K)}

omit [Field K] in
theorem red_maxStep {s : Nat} (hs : s ≤ dim) (mem : Memory (Value K)) :
    red (together (maxStep s) dim mem) = treeStep pickMax (red mem) s := by
  funext t
  unfold treeStep
  by_cases ht : t < s
  · rw [if_pos ht]
    exact together_owned (maxStep_independent s) (t := t) (by omega) (by simp [maxStep, ht])
  · rw [if_neg ht]
    refine together_other fun t' _ => ?_
    simp [maxStep]
    omega

omit [Field K] in
theorem pairs_argStep {s : Nat} (hs : s ≤ dim) (mem : Memory (Value K)) :
    pairs (together (argStep s) dim mem) = treeStep pickBest (pairs mem) s := by
  funext t
  unfold treeStep pairs
  by_cases ht : t < s
  · have hred : red (together (argStep s) dim mem) t =
        if better (red mem t, who mem t) (red mem (t + s), who mem (t + s)) then red mem (t + s) else red mem t :=
      together_owned (argStep_independent s) (t := t) (by omega) (by simp [argStep, ht])
    have hwho : who (together (argStep s) dim mem) t =
        if better (red mem t, who mem t) (red mem (t + s), who mem (t + s)) then who mem (t + s) else who mem t :=
      together_owned (argStep_independent s) (t := t) (by omega) (by simp [argStep, ht])
    rw [if_pos ht, hred, hwho]
    unfold pickBest
    split <;> rfl
  · have hred : red (together (argStep s) dim mem) t = red mem t := together_other fun t' _ => by
      simp [argStep]
      omega
    have hwho : who (together (argStep s) dim mem) t = who mem t := together_other fun t' _ => by
      simp [argStep]
      omega
    rw [if_neg ht, hred, hwho]

end Call

/-! ## The order of the experts -/

omit [Field K] in
theorem worse_trans (x y z : K × Nat) (hxy : Worse x y) (hyz : Worse y z) : Worse x z := by
  rcases hxy with hxy | ⟨hxy, hid⟩
  · rcases hyz with hyz | ⟨hyz, _⟩
    · exact .inl (hxy.trans hyz)
    · exact .inl (hyz ▸ hxy)
  · rcases hyz with hyz | ⟨hyz, hid'⟩
    · exact .inl (hxy ▸ hyz)
    · exact .inr ⟨hxy.trans hyz, hid'.trans hid⟩

omit [Field K] in
theorem worse_antisymm {x y : K × Nat} (hxy : Worse x y) (hyx : Worse y x) : x = y := by
  rcases hxy with hxy | ⟨hxy, hid⟩
  · rcases hyx with hyx | ⟨hyx, _⟩
    · exact absurd hxy (not_lt.mpr hyx.le)
    · exact absurd hyx.symm hxy.ne
  · rcases hyx with hyx | ⟨_, hid'⟩
    · exact absurd hxy hyx.ne'
    · exact Prod.ext hxy (Nat.le_antisymm hid' hid)

omit [Field K] in
theorem better_iff {x y : K × Nat} : better x y = true ↔ ¬Worse y x := by
  unfold better Worse
  rw [Bool.or_eq_true, Bool.and_eq_true, decide_eq_true_eq, decide_eq_true_eq, beq_iff_eq, not_or, not_lt, not_and, Nat.not_le]
  constructor
  · rintro (h | ⟨heq, hid⟩)
    · exact ⟨h.le, fun heq => absurd heq h.ne'⟩
    · exact ⟨heq.ge, fun _ => hid⟩
  · rintro ⟨hle, hid⟩
    rcases lt_or_eq_of_le hle with h | h
    · exact .inl h
    · exact .inr ⟨h.symm, hid h.symm⟩

omit [Field K] in
theorem pickBest_spec (x y : K × Nat) : (pickBest x y = x ∨ pickBest x y = y) ∧ Worse x (pickBest x y) ∧ Worse y (pickBest x y) := by
  unfold pickBest
  by_cases h : better x y = true
  · rw [if_pos h]
    refine ⟨.inr rfl, ?_, .inr ⟨rfl, le_rfl⟩⟩
    rw [better_iff, Worse, not_or, not_lt, not_and, Nat.not_le] at h
    rcases lt_or_eq_of_le h.1 with hlt | heq
    · exact .inl hlt
    · exact .inr ⟨heq, (h.2 heq.symm).le⟩
  · rw [if_neg h]
    refine ⟨.inl rfl, .inr ⟨rfl, le_rfl⟩, ?_⟩
    rwa [better_iff, not_not] at h

omit [Field K] in
theorem pickMax_spec (x y : K) : (pickMax x y = x ∨ pickMax x y = y) ∧ x ≤ pickMax x y ∧ y ≤ pickMax x y := by
  unfold pickMax
  by_cases h : x < y
  · rw [if_pos h]
    exact ⟨.inr rfl, h.le, le_rfl⟩
  · rw [if_neg h]
    exact ⟨.inl rfl, le_rfl, not_lt.mp h⟩

def level (p : Nat → K) (order : List Nat) (n i t : Nat) : K := if t ∈ order.take i then -2 else if t < n then p t else -1

section
variable [IsStrictOrderedRing K] {p : Nat → K} {order : List Nat} {n : Nat} (hpos : ∀ e, 0 ≤ p e) (hperm : order.Perm (List.range n))
  (hsorted : order.Pairwise fun a b => Worse (p b, b) (p a, a))
include hpos hperm hsorted

/-- **The best** that is left is the next of the order. -/
theorem best_eq {dim i : Nat} (hi : i < order.length) (hdim : n ≤ dim) {x : K × Nat}
    (h : Best Worse (fun t => (level p order n i t, t)) dim x) : x = (p order[i], order[i]) := by
  have hmem {e : Nat} : e ∈ order ↔ e < n := hperm.mem_iff.trans List.mem_range
  have hnodup : order.Nodup := hperm.nodup_iff.mpr List.nodup_range
  have hnext : order[i] < n := hmem.mp (List.getElem_mem hi)
  have hfree : order[i] ∉ order.take i := by
    intro htaken
    obtain ⟨j, hj, heq⟩ := List.mem_take_iff_getElem.mp htaken
    have := (List.Nodup.getElem_inj_iff hnodup).mp heq
    omega
  have hlevel : level p order n i order[i] = p order[i] := by
    unfold level
    rw [if_neg hfree, if_pos hnext]
  obtain ⟨⟨t, _, rfl⟩, hall⟩ := h
  have hworse := hall order[i] (hnext.trans_le hdim)
  dsimp only at hworse
  rw [hlevel] at hworse
  -- the best is no sentinel, as the next of the order is not
  have hleft : t ∉ order.take i ∧ t < n := by
    have hnonneg : 0 ≤ level p order n i t := by
      rcases hworse with hlt | ⟨heq, _⟩
      · exact (hpos _).trans hlt.le
      · exact (hpos _).trans heq.le
    unfold level at hnonneg
    split at hnonneg
    · linarith
    · split at hnonneg
      · exact ⟨‹_›, ‹_›⟩
      · linarith
  have hat : level p order n i t = p t := by
    unfold level
    rw [if_neg hleft.1, if_pos hleft.2]
  dsimp only
  rw [hat] at hworse ⊢
  obtain ⟨k, hk, rfl⟩ := List.getElem_of_mem (hmem.mpr hleft.2)
  have hik : i ≤ k := by
    by_contra hlt
    exact hleft.1 (List.mem_take_iff_getElem.mpr ⟨k, by omega, rfl⟩)
  rcases Nat.eq_or_lt_of_le hik with rfl | hlt
  · rfl
  · exact worse_antisymm (List.pairwise_iff_getElem.mp hsorted i k hi hk hlt) hworse

end

/-! ## The selection -/

/-- Memory after `i` experts have been selected. -/
structure Selected (call : Call K) (dim : Nat) (p : Nat → K) (order : List Nat) (i : Nat) (before mem : Memory (Value K)) : Prop where
  left : ∀ t < dim, probs mem t = level p order call.nExpert i t
  sum : total mem 0 = ((List.range call.nExpert).map p).sum
  kept : keptSum mem = ((order.take i).map p).sum
  experts : ∀ j < i, ∀ e, order[j]? = some e → out mem (call.expertsAt + j) = e
  weights : ∀ j < i, ∀ e, order[j]? = some e → out mem (call.weightsAt + j) = p e
  other : ∀ j, (∀ k < i, j ≠ call.expertsAt + k ∧ j ≠ call.weightsAt + k) → out mem j = out before j

namespace Call
variable [IsStrictOrderedRing K] {exp : K → K} {call : Call K} {p : Nat → K} {order : List Nat} {steps i : Nat} {before mem : Memory (Value K)}

omit [Field K] [LinearOrder K] [IsStrictOrderedRing K] in
theorem expertsAt_lt (htok : call.tok < call.tokens) {j k : Nat} (hj : j < call.nUsed) : call.expertsAt + j < call.weightsAt + k := by
  have hrow := Nat.mul_le_mul_right call.nUsed (show call.tok + 1 ≤ call.tokens from htok)
  rw [Nat.succ_mul] at hrow
  unfold expertsAt weightsAt
  omega

omit [IsStrictOrderedRing K] [Field K] in
theorem reduce_other {dim : Nat} {c : Cell} (hc : ∀ j, c ≠ .red j ∧ c ≠ .who j ∧ c ≠ .best j ∧ c ≠ .bestP j) :
    rounds dim (reduce dim steps) mem c = mem c := by
  refine rounds_other fun q hq t _ => ?_
  simp only [reduce, List.mem_cons, List.mem_append, List.mem_map, List.not_mem_nil, or_false] at hq
  rcases hq with rfl | ⟨s, _, rfl⟩ | rfl
  · cases c <;> simp [putRed] at hc ⊢
  · cases c <;> simp [argStep] at hc ⊢
  · cases c <;> simp [readBest] at hc ⊢

theorem reduce_best (hpos : ∀ e, 0 ≤ p e) (hperm : order.Perm (List.range call.nExpert))
    (hsorted : order.Pairwise fun a b => Worse (p b, b) (p a, a)) (hdim : call.nExpert ≤ 2 ^ steps) (hi : i < order.length)
    (hleft : ∀ t < 2 ^ steps, probs mem t = level p order call.nExpert i t) :
    best (rounds (2 ^ steps) (reduce (2 ^ steps) steps) mem) 0 = order[i] ∧
      bestP (rounds (2 ^ steps) (reduce (2 ^ steps) steps) mem) 0 = p order[i] := by
  have hzero : 0 < 2 ^ steps := Nat.two_pow_pos steps
  unfold reduce
  rw [rounds_cons, rounds_append, rounds_cons]
  generalize hput : together putRed (2 ^ steps) mem = mem₁
  -- the levels with their experts are reduced, and the registers get what is first then
  have hpairs (t : Nat) (ht : t < 2 ^ steps) : pairs mem₁ t = (level p order call.nExpert i t, t) := by
    have hred : red mem₁ t = probs mem t := hput ▸ together_owned putRed_independent ht (by simp [putRed])
    have hwho : who mem₁ t = t := hput ▸ together_owned putRed_independent ht (by simp [putRed])
    unfold pairs
    rw [hred, hwho, hleft t ht]
  have hbest := tree_best worse_trans pickBest_spec (fun x => .inr ⟨rfl, le_rfl⟩) steps (pairs mem₁)
  rw [← rounds_tree fun s hs mem => pairs_argStep hs mem] at hbest
  generalize rounds (2 ^ steps) ((sizes (2 ^ steps) steps).map argStep) mem₁ = mem₂ at hbest ⊢
  have hnext : pairs mem₂ 0 = (p order[i], order[i]) := by
    obtain ⟨⟨t, ht, heq⟩, hall⟩ := hbest
    refine best_eq hpos hperm hsorted hi hdim ⟨⟨t, ht, heq.trans (hpairs t ht)⟩, fun t ht => ?_⟩
    dsimp only
    rw [← hpairs t ht]
    exact hall t ht
  obtain ⟨hred, hwho⟩ := Prod.mk.inj hnext
  have hreg : best (together readBest (2 ^ steps) mem₂) 0 = who mem₂ 0 := together_owned readBest_independent hzero (by simp [readBest])
  have hregP : bestP (together readBest (2 ^ steps) mem₂) 0 = red mem₂ 0 := together_owned readBest_independent hzero (by simp [readBest])
  exact ⟨hreg.trans hwho, hregP.trans hred⟩

theorem select_spec (hpos : ∀ e, 0 ≤ p e) (hperm : order.Perm (List.range call.nExpert))
    (hsorted : order.Pairwise fun a b => Worse (p b, b) (p a, a)) (hdim : call.nExpert ≤ 2 ^ steps) (htok : call.tok < call.tokens)
    (hused : call.nUsed ≤ call.nExpert) (hi : i < call.nUsed) (h : Selected call (2 ^ steps) p order i before mem) :
    Selected call (2 ^ steps) p order (i + 1) before (rounds (2 ^ steps) (call.select (2 ^ steps) steps i) mem) := by
  have hi' : i < order.length := by
    rw [hperm.length_eq, List.length_range]
    omega
  have hzero : 0 < 2 ^ steps := Nat.two_pow_pos steps
  obtain ⟨hbest, hbestP⟩ := reduce_best hpos hperm hsorted hdim hi' h.left
  have hframe {c : Cell} (hc : ∀ j, c ≠ .red j ∧ c ≠ .who j ∧ c ≠ .best j ∧ c ≠ .bestP j) :=
    (reduce_other hc : rounds (2 ^ steps) (reduce (2 ^ steps) steps) mem c = mem c)
  unfold select
  rw [rounds_append, rounds_cons]
  generalize rounds (2 ^ steps) (reduce (2 ^ steps) steps) mem = mem₁ at *
  have hput {c : Cell} (hc : (call.putBest i).owns 0 c = true) : together (call.putBest i) (2 ^ steps) mem₁ c = (call.putBest i).act 0 mem₁ c :=
    together_owned (putBest_independent i) hzero hc
  have htake : order.take (i + 1) = order.take i ++ [order[i]] := by
    rw [List.take_succ_eq_append_getElem hi']
  have hout {j : Nat} (hj : j = call.expertsAt + i ∨ j = call.weightsAt + i) : out (together (call.putBest i) (2 ^ steps) mem₁) j =
      if j = call.weightsAt + i then bestP mem₁ 0 else best mem₁ 0 := hput (c := .out j) (by simpa [putBest] using hj)
  have hsame {j : Nat} (hj : j ≠ call.expertsAt + i ∧ j ≠ call.weightsAt + i) : out (together (call.putBest i) (2 ^ steps) mem₁) j = out mem j := by
    have hother : out (together (call.putBest i) (2 ^ steps) mem₁) j = out mem₁ j := together_other fun t _ => by
      simp [putBest, hj.1, hj.2]
    exact hother.trans (hframe fun j' => by simp)
  refine ⟨fun t ht => ?_, ?_, ?_, fun j hj e he => ?_, fun j hj e he => ?_, fun j hj => ?_⟩
  · have hprobs : probs mem₁ t = probs mem t := hframe fun j => by simp
    have hafter : probs (together (call.putBest i) (2 ^ steps) mem₁) t =
      if t = best mem₁ 0 then (top mem₁ 0 - top mem₁ 0) - 2 else probs mem₁ t := hput (by simp [putBest])
    have hmem : t ∈ order.take (i + 1) ↔ t ∈ order.take i ∨ t = order[i] := by
      rw [htake, List.mem_append, List.mem_singleton]
    show probs (together (call.putBest i) (2 ^ steps) mem₁) t = _
    rw [hafter, hbest, hprobs, h.left t ht, sub_self, zero_sub]
    unfold level
    simp only [hmem]
    by_cases heq : t = order[i]
    · rw [if_pos heq, if_pos (.inr heq)]
    · rw [if_neg heq]
      simp only [heq, or_false]
  · have htotal : total mem₁ 0 = total mem 0 := hframe fun j => by simp
    exact (together_other fun t _ => rfl : total (together (call.putBest i) (2 ^ steps) mem₁) 0 = total mem₁ 0).trans (htotal.trans h.sum)
  · have hkept : keptSum mem₁ = keptSum mem := hframe fun j => by simp
    have hafter : keptSum (together (call.putBest i) (2 ^ steps) mem₁) = keptSum mem₁ + bestP mem₁ 0 := hput (by simp [putBest])
    show keptSum (together (call.putBest i) (2 ^ steps) mem₁) = _
    rw [hafter, hkept, hbestP, h.kept, htake, List.map_append, List.sum_append, List.map_singleton, List.sum_singleton]
  · have hapart : call.expertsAt + j < call.weightsAt + i := expertsAt_lt htok (by omega)
    rcases Nat.lt_succ_iff_lt_or_eq.mp hj with hlt | rfl
    · exact (hsame ⟨by omega, by omega⟩).trans (h.experts j hlt e he)
    · rw [List.getElem?_eq_getElem hi', Option.some.injEq] at he
      refine (hout (.inl rfl)).trans ?_
      rw [if_neg (by omega), hbest, he]
  · have hapart : call.expertsAt + i < call.weightsAt + j := expertsAt_lt htok hi
    rcases Nat.lt_succ_iff_lt_or_eq.mp hj with hlt | rfl
    · exact (hsame ⟨by omega, by omega⟩).trans (h.weights j hlt e he)
    · rw [List.getElem?_eq_getElem hi', Option.some.injEq] at he
      refine (hout (.inr rfl)).trans ?_
      rw [if_pos rfl, hbestP, he]
  · exact (hsame (hj i (Nat.lt_succ_self i))).trans (h.other j fun k hk => hj k (Nat.lt_succ_of_lt hk))

theorem selects_spec (hpos : ∀ e, 0 ≤ p e) (hperm : order.Perm (List.range call.nExpert))
    (hsorted : order.Pairwise fun a b => Worse (p b, b) (p a, a)) (hdim : call.nExpert ≤ 2 ^ steps) (htok : call.tok < call.tokens)
    (hused : call.nUsed ≤ call.nExpert) (hi : i ≤ call.nUsed) (h : Selected call (2 ^ steps) p order 0 before mem) :
    Selected call (2 ^ steps) p order i before (rounds (2 ^ steps) ((List.range i).flatMap (call.select (2 ^ steps) steps)) mem) := by
  induction i with
  | zero => exact h
  | succ i ih =>
    rw [List.range_succ, List.flatMap_append, rounds_append, List.flatMap_singleton]
    exact select_spec hpos hperm hsorted hdim htok hused hi (ih (by omega))

/-! ## What comes before -/

omit [LinearOrder K] [IsStrictOrderedRing K] in
theorem getD_row {t : Nat} (ht : t < call.nExpert) : call.row.getD t 0 = call.logit t := by
  unfold row logit
  rw [if_pos ht, List.getD_eq_getElem?_getD, List.getD_eq_getElem?_getD, List.getElem?_take_of_lt ht, List.getElem?_drop]

omit [LinearOrder K] [IsStrictOrderedRing K] [Field K] in
theorem length_row (htok : call.tok < call.tokens) (hlogits : call.tokens * call.nExpert ≤ call.logits.length) :
    call.row.length = call.nExpert := by
  have hrow := Nat.mul_le_mul_right call.nExpert (show call.tok + 1 ≤ call.tokens from htok)
  rw [Nat.succ_mul] at hrow
  unfold row base
  rw [List.length_take, List.length_drop]
  omega

omit [IsStrictOrderedRing K] in
theorem top_eq (hn : 0 < call.nExpert) (hdim : call.nExpert ≤ 2 ^ steps) (hrow : call.row.length = call.nExpert) :
    red (rounds (2 ^ steps) (call.load :: (sizes (2 ^ steps) steps).map maxStep) mem) 0 = maximum call.row := by
  rw [rounds_cons]
  generalize hload : together call.load (2 ^ steps) mem = mem₁
  have hlogit (t : Nat) (ht : t < 2 ^ steps) : red mem₁ t = call.logit t := hload ▸ together_owned load_independent ht (by simp [load])
  have hbest := tree_best (show ∀ x y z : K, x ≤ y → y ≤ z → x ≤ z from fun _ _ _ => le_trans) pickMax_spec le_refl steps (red mem₁)
  rw [← rounds_tree fun s hs mem => red_maxStep hs mem] at hbest
  obtain ⟨⟨t, ht, heq⟩, hall⟩ := hbest
  obtain ⟨hmem, hle⟩ := Nucleus.maximum_spec (List.ne_nil_of_length_pos (hrow ▸ hn))
  have hin {t : Nat} (ht : t < call.nExpert) : call.logit t ∈ call.row := by
    rw [← getD_row ht, List.getD_eq_getElem _ _ (hrow ▸ ht)]
    exact List.getElem_mem _
  -- idle threads hold the logit of the first expert
  have hany (t : Nat) : call.logit t ∈ call.row := by
    by_cases ht : t < call.nExpert
    · exact hin ht
    · have hfirst := hin hn
      unfold logit at hfirst ⊢
      rw [if_neg ht]
      rwa [if_pos hn, Nat.add_zero] at hfirst
  apply le_antisymm
  · rw [heq, hlogit t ht]
    exact hle _ (hany t)
  · obtain ⟨j, hj, hval⟩ := List.getElem_of_mem hmem
    have hj' : j < call.nExpert := hrow ▸ hj
    have hbound := hall j (hj'.trans_le hdim)
    rwa [hlogit j (hj'.trans_le hdim), ← getD_row hj', List.getD_eq_getElem _ _ hj, hval] at hbound

omit [IsStrictOrderedRing K] in
theorem prob_eq {t : Nat} (ht : t < call.nExpert) (hrow : call.row.length = call.nExpert) :
    exp (call.logit t - maximum call.row) = (probsOf exp call.row).getD t 0 := by
  have hlogit := getD_row ht
  rw [List.getD_eq_getElem _ _ (hrow ▸ ht)] at hlogit
  unfold probsOf
  rw [List.getD_eq_getElem _ _ (by rw [List.length_map, hrow]; exact ht), List.getElem_map, hlogit]

omit [IsStrictOrderedRing K] in
/-- **The first phases** leave the probabilities, and their sum. -/
theorem prepare_spec (hn : 0 < call.nExpert) (hdim : call.nExpert ≤ 2 ^ steps) (hrow : call.row.length = call.nExpert) (order : List Nat) :
    Selected call (2 ^ steps) (fun e => (probsOf exp call.row).getD e 0) order 0 mem
      (rounds (2 ^ steps) (call.prepare exp (2 ^ steps) steps) mem) := by
  have hzero : 0 < 2 ^ steps := Nat.two_pow_pos steps
  have hout (j : Nat) : out (rounds (2 ^ steps) (call.prepare exp (2 ^ steps) steps) mem) j = out mem j := by
    refine rounds_other fun q hq t _ => ?_
    simp only [prepare, List.mem_cons, List.mem_append, List.mem_map, List.not_mem_nil, or_false] at hq
    rcases hq with rfl | ⟨s, _, rfl⟩ | rfl | rfl | rfl | rfl <;> rfl
  have hmine (t : Nat) (ht : t < 2 ^ steps) :
      mine (rounds (2 ^ steps) (call.load :: (sizes (2 ^ steps) steps).map maxStep) mem) t = call.logit t := by
    have hload : mine (together call.load (2 ^ steps) mem) t = call.logit t := together_owned load_independent ht (by simp [load])
    have hkeep : mine (rounds (2 ^ steps) ((sizes (2 ^ steps) steps).map maxStep) (together call.load (2 ^ steps) mem)) t =
        mine (together call.load (2 ^ steps) mem) t := by
      refine rounds_other fun q hq t' _ => ?_
      obtain ⟨s, _, rfl⟩ := List.mem_map.mp hq
      rfl
    rw [rounds_cons, hkeep, hload]
  have htop : red (rounds (2 ^ steps) (call.load :: (sizes (2 ^ steps) steps).map maxStep) mem) 0 = maximum call.row := top_eq hn hdim hrow
  have hsplit : call.prepare exp (2 ^ steps) steps =
    call.load :: (sizes (2 ^ steps) steps).map maxStep ++ [readTop, call.putProb exp, call.putTotal, readTotal] := rfl
  rw [hsplit, rounds_append] at hout ⊢
  generalize rounds (2 ^ steps) (call.load :: (sizes (2 ^ steps) steps).map maxStep) mem = mem₂ at *
  rw [rounds_cons, rounds_cons, rounds_cons, rounds_cons] at hout ⊢
  -- one phase after the other
  generalize h₃ : together readTop (2 ^ steps) mem₂ = mem₃ at *
  have htop₃ (t : Nat) (ht : t < 2 ^ steps) : top mem₃ t = maximum call.row := by
    rw [← htop, ← h₃]
    exact together_owned readTop_independent ht (by simp [readTop])
  have hmine₃ (t : Nat) (ht : t < 2 ^ steps) : mine mem₃ t = call.logit t := by
    rw [← hmine t ht, ← h₃]
    exact together_other fun t' _ => rfl
  generalize h₄ : together (call.putProb exp) (2 ^ steps) mem₃ = mem₄ at *
  have hprobs₄ (t : Nat) (ht : t < 2 ^ steps) : probs mem₄ t = if t < call.nExpert then (probsOf exp call.row).getD t 0 else -1 := by
    have hact : probs mem₄ t = if t < call.nExpert then exp (mine mem₃ t - top mem₃ t) else (top mem₃ t - top mem₃ t) - 1 :=
      h₄ ▸ together_owned putProb_independent ht (by simp [putProb])
    rw [hact, hmine₃ t ht, htop₃ t ht, sub_self, zero_sub]
    split
    · exact prob_eq ‹_› hrow
    · rfl
  generalize h₅ : together call.putTotal (2 ^ steps) mem₄ = mem₅ at *
  have hred₅ : red mem₅ 0 = ((List.range call.nExpert).map fun e => (probsOf exp call.row).getD e 0).sum := by
    have hact : red mem₅ 0 = (List.range call.nExpert).foldl (fun total e => total + probs mem₄ e) 0 :=
      h₅ ▸ together_owned putTotal_independent hzero (by simp [putTotal])
    rw [hact, ← List.foldl_map, ← List.sum_eq_foldl]
    congr 1
    refine List.map_congr_left fun e he => ?_
    rw [List.mem_range] at he
    rw [hprobs₄ e (he.trans_le hdim), if_pos he]
  have hprobs₅ (t : Nat) : probs mem₅ t = probs mem₄ t := h₅ ▸ together_other fun t' _ => rfl
  refine ⟨fun t ht => ?_, ?_, ?_, fun j hj => absurd hj (Nat.not_lt_zero j), fun j hj => absurd hj (Nat.not_lt_zero j), fun j _ => hout j⟩
  · have hprobs : probs (together readTotal (2 ^ steps) mem₅) t = probs mem₅ t := together_other fun t' _ => rfl
    show probs (together readTotal (2 ^ steps) mem₅) t = _
    rw [hprobs, hprobs₅, hprobs₄ t ht]
    unfold level
    rw [List.take_zero, if_neg List.not_mem_nil]
  · have htotal : total (together readTotal (2 ^ steps) mem₅) 0 = red mem₅ 0 := together_owned readTotal_independent hzero (by simp [readTotal])
    exact htotal.trans hred₅
  · have hkept : keptSum (together readTotal (2 ^ steps) mem₅) = 0 := together_owned readTotal_independent hzero (by simp [readTotal])
    exact hkept

/-! ## The whole kernel -/

/-- **The output** of the phases, for an order of the experts. -/
theorem kernel_spec {p : Nat → K} (hp : p = fun e => (probsOf exp call.row).getD e 0) (hpos : ∀ e, 0 ≤ p e)
    (hperm : order.Perm (List.range call.nExpert)) (hsorted : order.Pairwise fun a b => Worse (p b, b) (p a, a)) (hn : 0 < call.nExpert)
    (hdim : call.nExpert ≤ 2 ^ steps) (hrow : call.row.length = call.nExpert) (htok : call.tok < call.tokens)
    (hused : call.nUsed ≤ call.nExpert) {mem' : Memory (Value K)} (hmem : mem' = rounds (2 ^ steps) (call.kernel exp (2 ^ steps) steps) mem) :
    (∀ j < call.nUsed, ∀ e, order[j]? = some e → out mem' (call.expertsAt + j) = e ∧ out mem' (call.weightsAt + j) =
      p e / (if call.norm then ((order.take call.nUsed).map p).sum else ((List.range call.nExpert).map p).sum)) ∧
      ∀ j, (∀ k < call.nUsed, j ≠ call.expertsAt + k ∧ j ≠ call.weightsAt + k) → out mem' j = out mem j := by
  have hzero : 0 < 2 ^ steps := Nat.two_pow_pos steps
  have hprepared : Selected call (2 ^ steps) p order 0 mem (rounds (2 ^ steps) (call.prepare exp (2 ^ steps) steps) mem) :=
    hp ▸ prepare_spec hn hdim hrow order
  have hselected := selects_spec hpos hperm hsorted hdim htok hused le_rfl hprepared
  unfold kernel at hmem
  rw [rounds_append, rounds_append, rounds_cons] at hmem
  generalize rounds (2 ^ steps) ((List.range call.nUsed).flatMap (call.select (2 ^ steps) steps))
    (rounds (2 ^ steps) (call.prepare exp (2 ^ steps) steps) mem) = mem₁ at *
  have hdivided {j : Nat} (hj : j < call.nUsed) : out mem' (call.weightsAt + j) =
      out mem₁ (call.weightsAt + j) / (if call.norm then keptSum mem₁ else total mem₁ 0) :=
    hmem ▸ together_owned divide_independent hzero (c := .out (call.weightsAt + j)) (by simp [divide]; omega)
  have hsame {j : Nat} (hj : ∀ k < call.nUsed, j ≠ call.weightsAt + k) : out mem' j = out mem₁ j := by
    refine hmem ▸ together_other fun t _ => ?_
    simp [divide]
    intro _ hle
    by_contra hlt
    exact hj (j - call.weightsAt) (by omega) (by omega)
  refine ⟨fun j hj e he => ⟨?_, ?_⟩, fun j hj => ?_⟩
  · rw [hsame fun k _ => (expertsAt_lt htok hj).ne, hselected.experts j hj e he]
  · rw [hdivided hj, hselected.weights j hj e he, hselected.kept, hselected.sum]
  · rw [hsame fun k hk => (hj k hk).2, hselected.other j hj]

/-- **The kernel** gives a token the experts and the weights of the host, in the host's order, whatever the order of its threads' steps; it
writes nothing else. -/
theorem routeKernel_route (sort : SliceSort Nat) (hexp : ∀ x, 0 ≤ exp x) (hn : 0 < call.nExpert) (hdim : call.nExpert ≤ 2 ^ steps)
    (hused : call.nUsed ≤ call.nExpert) (htok : call.tok < call.tokens) (hlogits : call.tokens * call.nExpert ≤ call.logits.length)
    (mem : Memory (Value K)) : ∃ perExpert, route sort exp call.spec call.logits call.tokens = some perExpert ∧
      (∀ e w, (call.tok, w) ∈ perExpert.getD e [] ↔ (e, w) ∈ routeRow sort exp call.spec call.row) ∧
      (routeRow sort exp call.spec call.row).length = call.nUsed ∧
      (∃ mem', Runs (2 ^ steps) (call.kernel exp (2 ^ steps) steps) mem mem') ∧
      ∀ mem', Runs (2 ^ steps) (call.kernel exp (2 ^ steps) steps) mem mem' →
        (∀ (i e : Nat) (w : K), (routeRow sort exp call.spec call.row)[i]? = some (e, w) →
          out mem' (call.expertsAt + i) = e ∧ out mem' (call.weightsAt + i) = w) ∧
        ∀ j, (∀ k < call.nUsed, j ≠ call.expertsAt + k ∧ j ≠ call.weightsAt + k) → out mem' j = out mem j := by
  have hrow := length_row htok hlogits
  obtain ⟨perExpert, hroute, hmem⟩ := route_spec sort exp call.spec call.logits call.tokens hn hused
  obtain ⟨order, hperm, hsorted, heq⟩ := routeRow_eq sort exp call.spec call.row
  have hchunk : ((chunks call.nExpert call.logits).take call.tokens)[call.tok]? = some call.row := by
    rw [List.getElem?_take_of_lt htok, getElem?_chunks (htok.trans_le ((Nat.le_div_iff_mul_le hn).mpr hlogits))]
    rfl
  have hpos (e : Nat) : 0 ≤ (probsOf exp call.row).getD e 0 := by
    unfold probsOf
    rw [List.getD_eq_getElem?_getD, List.getElem?_map]
    cases call.row[e]? with
    | none => exact le_rfl
    | some l => exact hexp _
  have hruns (mem' : Memory (Value K)) : Runs (2 ^ steps) (call.kernel exp (2 ^ steps) steps) mem mem' ↔
      mem' = rounds (2 ^ steps) (call.kernel exp (2 ^ steps) steps) mem := runs_iff (kernel_independent steps)
  refine ⟨perExpert, hroute, fun e w => ?_, ?_, ⟨_, (hruns _).mpr rfl⟩, fun mem' hrun => ?_⟩
  · rw [hmem]
    constructor
    · rintro ⟨row, hat, hin⟩
      rw [show call.spec.nExpert = call.nExpert from rfl, hchunk, Option.some.injEq] at hat
      exact hat ▸ hin
    · intro hin
      exact ⟨call.row, hchunk, hin⟩
  · rw [heq, List.length_map, List.length_take, hperm.length_eq, List.length_range]
    exact Nat.min_eq_left hused
  · obtain ⟨hchosen, hother⟩ := kernel_spec rfl hpos hperm hsorted hn hdim hrow htok hused ((hruns mem').mp hrun)
    refine ⟨fun i e w hi => ?_, hother⟩
    rw [heq, List.getElem?_map, Option.map_eq_some_iff] at hi
    obtain ⟨e', hat, hpair⟩ := hi
    obtain ⟨rfl, rfl⟩ := Prod.mk.inj hpair
    rw [show call.spec.nUsed = call.nUsed from rfl] at hat ⊢
    have hi : i < call.nUsed := by
      by_contra hge
      rw [List.getElem?_eq_none (by rw [List.length_take]; omega)] at hat
      cases hat
    rw [List.getElem?_take_of_lt hi] at hat
    obtain ⟨hexpert, hweight⟩ := hchosen i hi e' hat
    have hprobs : probsOf exp call.row = (List.range call.nExpert).map fun e => (probsOf exp call.row).getD e 0 := by
      have hlength : (probsOf exp call.row).length = call.nExpert := by
        unfold probsOf
        rw [List.length_map, hrow]
      apply List.ext_getElem
      · rw [List.length_map, List.length_range, hlength]
      · intro j hj _
        rw [List.getElem_map, List.getElem_range, List.getD_eq_getElem _ _ hj]
    rw [← hprobs] at hweight
    exact ⟨hexpert, hweight⟩

end Call

def tied : Call ℚ := ⟨[0, 2, 2, 1, 0, 1], 2, true, 3, 2, 1⟩

def blank : Memory (Value ℚ)
  | .who _ | .best _ => (0 : Nat)
  | .red _ | .probs _ | .mine _ | .top _ | .total _ | .bestP _ | .kept | .out _ => (0 : ℚ)

theorem routeKernel_route_tied : ∃ mem', Runs 4 (tied.kernel Nucleus.growing 4 2) blank mem' ∧
    out mem' 2 = 0 ∧ out mem' 3 = 2 ∧ out mem' 6 = 1 / 2 ∧ out mem' 7 = 1 / 2 := by
  have h := Call.routeKernel_route (SliceSort.whole Nat) (fun x => (Nucleus.growing_pos x).le) (show 0 < tied.nExpert by decide)
    (show 3 ≤ 2 ^ 2 by decide) (by decide) (by decide) (by decide) blank
  obtain ⟨_, _, _, _, ⟨mem', hruns⟩, hall⟩ := h
  have hrow : routeRow (SliceSort.whole Nat) Nucleus.growing tied.spec tied.row = [(0, 1 / 2), (2, 1 / 2)] := by decide +kernel
  have hout := (hall mem' hruns).1
  rw [hrow] at hout
  obtain ⟨hfirst, hfirstWeight⟩ := hout 0 0 (1 / 2) rfl
  obtain ⟨hsecond, hsecondWeight⟩ := hout 1 2 (1 / 2) rfl
  exact ⟨mem', hruns, hfirst.trans Nat.cast_zero, hsecond.trans Nat.cast_ofNat, hfirstWeight, hsecondWeight⟩

end Cuca.Local.Route
