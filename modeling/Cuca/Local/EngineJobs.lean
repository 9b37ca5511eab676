import Cuca.Local.EngineRuns

/-!
# Jobs one after the other

* `runs` : the engine after some jobs;
* `completion` : the greedy tokens after a prompt;
* `jobs_sound` : after any jobs the account of the cache is right, and the next one is as on a fresh engine;
* `listMachine` : a model that keeps its tokens in a list, with a drafter that fails.
-/

namespace Cuca.Local.Engine
variable {m : Machine}

def runs (e : Engine m) : List (World × Job m) → Engine m
  | [] => e
  | (w, job) :: jobs => runs (run e w job).1 jobs

/-- The greedy tokens after a prefix, at most so many. -/
def completion (m : Machine) (f : List Token → List m.F) : Nat → List Token → List Token
  | 0, _ => []
  | k + 1, x => if m.isEog (greedy m (f x)) then [] else greedy m (f x) :: completion m f k (x ++ [greedy m (f x)])

theorem plain_completion (w : World) (f : List Token → List m.F) (k : Nat) (x : List Token) (o : Seen m) :
    (plain w f k x o).2.pushed <+: o.pushed ++ completion m f k x ∧
      ∀ ended, (plain w f k x o).1 = .ok ended → (plain w f k x o).2.pushed = o.pushed ++ completion m f k x := by
  induction k generalizing x o with
  | zero =>
    rw [completion, List.append_nil]
    exact ⟨List.prefix_rfl, fun _ _ => rfl⟩
  | succ k ih =>
    rw [plain, completion]
    split
    · rw [List.append_nil]
      exact ⟨List.prefix_rfl, fun _ _ => rfl⟩
    · rw [List.append_cons o.pushed, ← pushSeen_pushed w o]
      split
      · exact ih _ _
      · exact ⟨List.prefix_append _ _, by simp⟩

theorem plainJob_completion (w : World) (f : List Token → List m.F) (job : Job m) (kept : Nat) :
    (plainJob w f job kept (fresh job)).2.pushed <+: completion m f (budgetOf job) job.promptIds ∧
      ∀ ended, (plainJob w f job kept (fresh job)).1 = .ok ended →
        (plainJob w f job kept (fresh job)).2.pushed = completion m f (budgetOf job) job.promptIds := by
  unfold plainJob
  split
  · exact ⟨List.nil_prefix, fun _ => nofun⟩
  · have hprefill := (prefillSeen_keeps w job.promptIds.length (checkpointOf m job.promptIds kept) (job.promptIds.length - kept) kept
      (fresh job)).1
    revert hprefill
    rcases prefillSeen w job.promptIds.length (checkpointOf m job.promptIds kept) (job.promptIds.length - kept) kept (fresh job)
      with ⟨o, _ | _⟩ <;> intro hprefill
    · rw [show o.pushed = [] from hprefill]
      exact ⟨List.nil_prefix, fun _ => nofun⟩
    · obtain ⟨hbegin, hall⟩ := plain_completion w f (budgetOf job) job.promptIds { o with promptCache := some (cacheOf job kept) }
      have hempty : o.pushed ++ completion m f (budgetOf job) job.promptIds = completion m f (budgetOf job) job.promptIds := by
        rw [show o.pushed = [] from hprefill, List.nil_append]
      rw [hempty] at hbegin hall
      dsimp only
      rw [plainCompletion_pushed]
      refine ⟨hbegin, fun ended h => ?_⟩
      unfold plainCompletion at h
      split at h
      · rename_i ended' _ heq
        exact hall ended' (by rw [heq])
      · exact nomatch h

theorem reportSeen_stop (w : World) (job : Job m) (outcome : Except Stop Ended × Seen m) : (reportSeen w job outcome).stop = outcome.1 := by
  unfold reportSeen
  split <;> rfl

/-! ## Any jobs -/

section
variable {f : List Token → List m.F} {holds : m.S → List Token} (hlaw : m.trunk.Lawful f holds)
include hlaw

theorem runs_consistent (e : Engine m) (hcached : Consistent holds e) (jobs : List (World × Job m)) : Consistent holds (runs e jobs) := by
  induction jobs generalizing e with
  | nil => exact hcached
  | cons next jobs ih => exact ih _ (run_spec hlaw next.1 next.2 e hcached).1

theorem run_pushed (e : Engine m) (hcached : Consistent holds e) (w : World) (job : Job m)
    (hgreedy : job.greedy = true) :
    (run e w job).2.pushed <+: completion m f (budgetOf job) job.promptIds ∧
      ∀ ended, (run e w job).2.stop = .ok ended → (run e w job).2.pushed = completion m f (budgetOf job) job.promptIds := by
  obtain ⟨hbegin, hall⟩ := plainJob_completion w f job (keptOf e job.promptIds)
  rcases (run_spec hlaw w job e hcached).2.2 hgreedy with h | ⟨origin, fault, hstop, hpushed, -⟩
  · rw [h, plainReport, reportSeen_pushed, reportSeen_stop]
    exact ⟨hbegin, hall⟩
  · rw [plainReport, reportSeen_pushed] at hpushed
    refine ⟨hpushed.trans hbegin, fun ended h => ?_⟩
    cases hstop.symm.trans h

/-- **After any jobs**, however they ended, the cached ids are the tokens the cache holds. The next job reports the positions that it
keeps of them and those that it fills, each as a `u32`; and without sampling it pushes the tokens a fresh engine pushes, as far as it gets. -/
theorem jobs_sound (e : Engine m) (hcached : Consistent holds e)
    (jobs : List (World × Job m)) (w : World) (job : Job m) :
    holds (runs e jobs).model = (runs e jobs).cached ∧
      (∀ cache, (run (runs e jobs) w job).2.promptCache = some cache → ∃ kept ≤ job.promptIds.length,
        cache = (saturatingU32 kept, saturatingU32 (job.promptIds.length - kept)) ∧
          kept = keptOf (runs e jobs) job.promptIds ∧ (runs e jobs).cached.take kept = job.promptIds.take kept) ∧
      (job.greedy = true → ∀ (e' : Engine m) (w' : World), Consistent holds e' →
        ((run (runs e jobs) w job).2.pushed <+: completion m f (budgetOf job) job.promptIds) ∧
          ∀ ended ended', (run (runs e jobs) w job).2.stop = .ok ended → (run e' w' job).2.stop = .ok ended' →
            (run (runs e jobs) w job).2.pushed = (run e' w' job).2.pushed) := by
  have hruns := runs_consistent hlaw e hcached jobs
  refine ⟨hruns, fun cache h => ⟨keptOf (runs e jobs) job.promptIds, ?_, ?_, rfl, take_keptOf hlaw _ _⟩, fun hgreedy e' w' he' => ⟨?_, ?_⟩⟩
  · exact Nat.le_trans (keptOf_le hlaw _ _).1 (sharedLength_spec _ _).1
  · exact (run_spec hlaw w job _ hruns).2.1 cache h
  · exact (run_pushed hlaw _ hruns w job hgreedy).1
  · intro ended ended' hstop hstop'
    rw [(run_pushed hlaw _ hruns w job hgreedy).2 ended hstop, (run_pushed hlaw e' he' w' job hgreedy).2 ended' hstop']

end

/-! ## A list of tokens -/

/-- The cache is the list of its tokens. -/
def listTrunk (F : Type) (f : List Token → List F) : Trunk (List Token) F where
  forwardExt s tokens _ want tap := (s ++ tokens, .ok ⟨logitsOf f s tokens want, if tap = .none then none else some []⟩)
  truncateCache s len := (s.take len, min len s.length)
  checkpoint s := s
  isHybrid := false
  rollbackRows := 17

theorem listTrunk_lawful (F : Type) (f : List Token → List F) {vocab : Nat} (hwidth : ∀ x, (f x).length = vocab) :
    (listTrunk F f).Lawful f id where
  width := ⟨vocab, hwidth⟩
  forward_ok s tokens want tap pass h := by
    obtain rfl := Except.ok.inj h
    exact ⟨rfl, rfl⟩
  truncate_le s len := ⟨Nat.min_le_left _ _, Nat.min_le_right _ _⟩
  truncate_holds s len := by
    show s.take len = s.take (min len s.length)
    rw [List.take_eq_take_min]
  truncate_end s len h := Nat.min_eq_right h
  rollback s tokens tap pass _ _ len _ hle := by
    show min len (s ++ tokens).length = len
    rw [List.length_append]
    exact Nat.min_eq_left hle
  checkpoint _ := rfl

theorem listTrunk_total (F : Type) (f : List Token → List F) (capacity : Nat) : (listTrunk F f).Total id capacity :=
  fun _ _ _ _ _ _ => ⟨_, rfl⟩

/-- One logit, no end-of-generation token, and a drafter that fails. -/
def listMachine (contextLength : Nat) : Machine where
  S := List Token
  F := Nat
  D := Unit
  X := Unit
  Q := Unit
  G := Unit
  P := Unit
  B := Unit
  trunk := listTrunk Nat fun _ => [1]
  drafter :=
    { observes := false
      observe := fun d _ _ _ _ => (d, .ok ())
      truncate := fun d _ => d
      reset := id
      chain := fun _ _ _ _ _ _ => ()
      step := fun _ => .fault .panic }
  sampler :=
    { gt := fun a b => decide (a > b)
      negInfinity := 0
      sample := fun _ _ => .error .panic
      warp := fun _ => ()
      draw := fun _ _ => .error .panic
      accepts := fun _ _ _ g => (true, g)
      residual := fun _ _ => none }
  parser :=
    { push := fun p _ => (p, [])
      finish := fun _ => []
      reasoningTokens := fun _ => 0 }
  isEog := fun _ => false
  contextLength := contextLength
  draftTokens := 1
  seed := none

def emptyEngine (contextLength : Nat) (drafter : Option Unit) : Engine (listMachine contextLength) := ⟨[], [], (), drafter⟩

def patient : World := ⟨fun _ => true, fun _ _ => true, fun _ => false⟩

def listJob (contextLength : Nat) (promptIds : List Token) (maxTokens : Option Nat) : Job (listMachine contextLength) :=
  ⟨promptIds, (), false, true, maxTokens⟩

theorem listMachine_lawful (contextLength : Nat) : (listMachine contextLength).trunk.Lawful (fun _ => [(1 : Nat)]) id :=
  listTrunk_lawful Nat _ fun _ => rfl

theorem speculation_exact_list :
    (run (emptyEngine 4 (some ())) patient (listJob 4 [7] none)).2 =
        (run (undrafted (emptyEngine 4 (some ()))) patient (listJob 4 [7] none)).2 ∨
      ∃ fault, (run (emptyEngine 4 (some ())) patient (listJob 4 [7] none)).2.stop = .error (.failed .drafter fault) ∧
        (run (emptyEngine 4 (some ())) patient (listJob 4 [7] none)).2.pushed <+:
          (run (undrafted (emptyEngine 4 (some ()))) patient (listJob 4 [7] none)).2.pushed :=
  speculation_exact (listMachine_lawful 4) (listTrunk_total Nat _ 4) (emptyEngine 4 (some ())) rfl patient (listJob 4 [7] none) rfl

/-- A drafter that fails fails the job. -/
theorem speculation_fails : ¬ ∀ (m : Machine) (f : List Token → List m.F) (holds : m.S → List Token), m.trunk.Lawful f holds →
    m.trunk.Total holds m.contextLength → ∀ (e : Engine m), Consistent holds e → ∀ (w : World) (job : Job m), job.greedy = true →
      (run e w job).2.pushed = (run (undrafted e) w job).2.pushed := by
  intro h
  have heq := h (listMachine 4) (fun _ => [(1 : Nat)]) id (listMachine_lawful 4) (listTrunk_total Nat _ 4) (emptyEngine 4 (some ())) rfl
    patient (listJob 4 [7] none) rfl
  have hdrafted : (run (emptyEngine 4 (some ())) patient (listJob 4 [7] none)).2.pushed = [0] := by decide +kernel
  have hplain : (run (undrafted (emptyEngine 4 (some ()))) patient (listJob 4 [7] none)).2.pushed = [0, 0, 0] := by decide +kernel
  rw [hdrafted, hplain] at heq
  exact absurd heq (by decide)

theorem jobs_sound_list :
    (run (runs (emptyEngine 4 none) [(patient, listJob 4 [7] none)]) patient (listJob 4 [7, 0] none)).2.pushed <+:
      completion (listMachine 4) (fun _ => [(1 : Nat)]) (budgetOf (listJob 4 [7, 0] none)) (listJob 4 [7, 0] none).promptIds := by
  have h := @jobs_sound (listMachine 4) (fun _ => [(1 : Nat)]) id (listMachine_lawful 4) (emptyEngine 4 none) rfl
    [(patient, listJob 4 [7] none)] patient (listJob 4 [7, 0] none)
  exact (h.2.2 rfl (emptyEngine 4 none) patient rfl).1

theorem prefillSeen_patient {w : World} (h : ∀ n, w.gone n = false) (promptLength : Nat) (checkpointAt : Option Nat) (fuel pos : Nat)
    (o : Seen m) : (prefillSeen w promptLength checkpointAt fuel pos o).2 = true := by
  induction fuel generalizing pos o with
  | zero => rfl
  | succ fuel ih =>
    rw [prefillSeen]
    split
    · split
      · rfl
      · rw [if_neg (by rw [h]; exact Bool.false_ne_true)]
        exact ih _ _
    · rfl

theorem plainReport_filled {w : World} (hstays : ∀ n, w.gone n = false) (f : List Token → List m.F) {job : Job m} (kept : Nat)
    (hgood : ¬ (job.promptIds.length = 0 ∨ job.promptIds.length ≥ m.contextLength)) (hbudget : budgetOf job = 0)
    (hfinish : ∀ p, m.parser.finish p = []) : (plainReport w f job kept).promptCache = some (cacheOf job kept) := by
  have hprefill := prefillSeen_patient hstays job.promptIds.length (checkpointOf m job.promptIds kept) (job.promptIds.length - kept) kept
    (fresh job)
  rw [plainReport, plainJob, if_neg hgood]
  revert hprefill
  rcases prefillSeen w job.promptIds.length (checkpointOf m job.promptIds kept) (job.promptIds.length - kept) kept (fresh job)
    with ⟨o, _ | _⟩ <;> intro hprefill
  · cases hprefill
  · dsimp only
    rw [plainCompletion, hbudget, plain]
    dsimp only
    rw [finishSeen, hfinish]
    rfl

theorem promptCache_filled {contextLength : Nat} {promptIds : List Token} (hne : promptIds.length ≠ 0)
    (hroom : promptIds.length < contextLength) :
    (run (emptyEngine contextLength none) patient (listJob contextLength promptIds (some 0))).2.promptCache =
      some (0, saturatingU32 promptIds.length) := by
  have hkept : keptOf (emptyEngine contextLength none) promptIds = 0 :=
    Nat.le_zero.mp (keptOf_le (listMachine_lawful contextLength) (emptyEngine contextLength none) promptIds).1
  rcases (run_spec (listMachine_lawful contextLength) patient (listJob contextLength promptIds (some 0)) (emptyEngine contextLength none)
    rfl).2.2 rfl with h | ⟨_, _, _, _, hdrafter⟩
  · have hgood : ¬ (promptIds.length = 0 ∨ promptIds.length ≥ contextLength) := by omega
    rw [h, plainReport_filled (fun _ => rfl) _ _ hgood (Nat.zero_min _) fun _ => rfl]
    show some (cacheOf _ (keptOf (emptyEngine contextLength none) promptIds)) = _
    rw [hkept]
    rfl
  · exact nomatch (hdrafter (listTrunk_total Nat _ contextLength)).2

/-- Token counts of `2 ^ 32` and more are reported as `u32::MAX`. -/
theorem prompt_cache_saturates : ¬ ∀ (m : Machine) (f : List Token → List m.F) (holds : m.S → List Token), m.trunk.Lawful f holds →
    m.trunk.Total holds m.contextLength → ∀ (e : Engine m), Consistent holds e → ∀ (jobs : List (World × Job m)) (w : World) (job : Job m)
      (cache : Nat × Nat), (run (runs e jobs) w job).2.promptCache = some cache → cache.1 + cache.2 = job.promptIds.length := by
  intro h
  obtain ⟨promptIds, hlength⟩ : ∃ promptIds : List Token, promptIds.length = 2 ^ 32 := ⟨List.replicate (2 ^ 32) 0, List.length_replicate⟩
  have hsum := h (listMachine (2 ^ 32 + 1)) (fun _ => [(1 : Nat)]) id (listMachine_lawful _) (listTrunk_total Nat _ _)
    (emptyEngine (2 ^ 32 + 1) none) rfl [] patient (listJob (2 ^ 32 + 1) promptIds (some 0)) (0, saturatingU32 promptIds.length)
    (promptCache_filled (by omega) (by omega))
  change 0 + saturatingU32 promptIds.length = promptIds.length at hsum
  rw [hlength] at hsum
  exact absurd hsum (by decide)

end Cuca.Local.Engine
