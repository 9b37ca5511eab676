import Cuca.Local.EnginePlain
import Cuca.Local.EnginePrompt

/-!
# Whole jobs

* `plainJob` : a job without drafts: the prompt, the loop of `plain`, and what the parser still holds;
* `generate_triple` : what a job comes to, in each of the ways it may end;
* `run_spec` : so does `Engine.run`; the account of the cache is kept even where it fails;
* `speculation_exact` : so a drafter changes nothing that is reported, unless it fails.
-/

namespace Cuca.Local.Engine
open Hoare
variable {m : Machine}

/-! ## A job without drafts -/

def usageSeen (job : Job m) (o : Seen m) : Usage where
  promptTokens := saturatingU32 job.promptIds.length
  completionTokens := saturatingU32 o.pushed.length
  reasoningTokens := if job.enableThinking then some (m.parser.reasoningTokens o.parser) else none

/-- What the parser still holds, and the usage. -/
def finishSeen (w : World) (job : Job m) (ended : Ended) (o : Seen m) : Except Stop Ended × Seen m :=
  match sendSeen w (m.parser.finish o.parser) o with
  | (o', true) => (.ok ended, { o' with usage := some (usageSeen job o') })
  | (o', false) => (.error .gone, o')

def checkpointOf (m : Machine) (promptIds : List Token) (kept : Nat) : Option Nat :=
  if m.trunk.isHybrid && checkpointPosition m promptIds > kept then some (checkpointPosition m promptIds) else none

def cacheOf (job : Job m) (kept : Nat) : Nat × Nat := (saturatingU32 kept, saturatingU32 (job.promptIds.length - kept))

/-- The loop without drafts after the prompt, and the end. -/
def plainCompletion (w : World) (f : List Token → List m.F) (job : Job m) (o : Seen m) : Except Stop Ended × Seen m :=
  match plain w f (budgetOf job) job.promptIds o with
  | (.ok ended, o') => finishSeen w job ended o'
  | (.error stop, o') => (.error stop, o')

def plainJob (w : World) (f : List Token → List m.F) (job : Job m) (kept : Nat) (o : Seen m) : Except Stop Ended × Seen m :=
  if job.promptIds.length = 0 ∨ job.promptIds.length ≥ m.contextLength then (.error .rejected, o)
  else
    match prefillSeen w job.promptIds.length (checkpointOf m job.promptIds kept) (job.promptIds.length - kept) kept o with
    | (o', true) => plainCompletion w f job { o' with promptCache := some (cacheOf job kept) }
    | (o', false) => (.error .gone, o')

theorem finishSeen_pushed (w : World) (job : Job m) (ended : Ended) (o : Seen m) : (finishSeen w job ended o).2.pushed = o.pushed := by
  have hkeeps := (sendSeen_keeps w (m.parser.finish o.parser) o).1
  unfold finishSeen
  split
  · rename_i heq
    rw [heq] at hkeeps
    exact hkeeps
  · rename_i heq
    rw [heq] at hkeeps
    exact hkeeps

theorem plainCompletion_pushed (w : World) (f : List Token → List m.F) (job : Job m) (o : Seen m) :
    (plainCompletion w f job o).2.pushed = (plain w f (budgetOf job) job.promptIds o).2.pushed := by
  unfold plainCompletion
  split
  · rename_i heq
    rw [finishSeen_pushed, heq]
  · rename_i heq
    rw [heq]

theorem finish_triple (w : World) (job : Job m) (ended : Ended) (s : Run m) :
    Triple (· = s) (finish w job)
      (fun _ s' => s'.engine = s.engine ∧ s'.promptCache = s.promptCache ∧ finishSeen w job ended (seen s) = (.ok ended, seen s'))
      (fun stop s' => stop = .gone ∧ s'.engine = s.engine ∧ s'.promptCache = s.promptCache ∧
        finishSeen w job ended (seen s) = (.error .gone, seen s')) := by
  have hkeeps := (sendSeen_keeps w (m.parser.finish s.parser) (seen s)).2.2
  refine Triple.get fun s' hs' => ?_
  subst s'
  refine Triple.bind _ ((sendAll_triple w (m.parser.finish s.parser) s).weaken (fun _ h => h) (fun _ _ h => h) ?_) fun _ => ?_
  · rintro stop s' ⟨hstop, hsend, hs'⟩
    rw [hsend] at hkeeps
    refine ⟨hstop, (by rw [hs', engine_withSeen]), hkeeps, ?_⟩
    rw [finishSeen, show (seen s).parser = s.parser from rfl, hsend]
  · refine Triple.modify fun s' ⟨hsend, hs'⟩ => ?_
    rw [hsend] at hkeeps
    refine ⟨(by rw [hs', engine_withSeen]), hkeeps, ?_⟩
    rw [finishSeen, show (seen s).parser = s.parser from rfl, hsend]
    rfl

/-! ## A job -/

/-- How a job ends early: it is refused, the consumer is gone, or something failed; without sampling, a job without drafts ends in the
same way, unless it was the drafter. -/
def Exits (holds : m.S → List Token) (ready : Prop) (outcome : Except Stop Ended × Seen m) (s : Run m) (stop : Stop) (s' : Run m) : Prop :=
  ((∀ origin fault, stop ≠ .failed origin fault) ∧ Consistent holds s'.engine ∧ (ready → outcome = (.error stop, seen s'))) ∨
    ∃ origin fault, stop = .failed origin fault ∧ (ready → s'.pushed <+: outcome.2.pushed ∧
      (m.trunk.Total holds m.contextLength → origin = .drafter ∧ s.engine.drafter.isSome = true))

section
variable {f : List Token → List m.F} {holds : m.S → List Token} (hlaw : m.trunk.Lawful f holds)
include hlaw

theorem generate_triple (w : World) (job : Job m) (s : Run m) (hcached : Consistent holds s.engine) (hforced : s.forced = none)
    (hpushed : s.pushed = []) (hcache : s.promptCache = none) {kept : Nat} (hkept : kept = keptOf s.engine job.promptIds) :
    Triple (· = s) (generate w job)
      (fun ended s' => s'.promptCache = some (cacheOf job kept) ∧ Consistent holds s'.engine ∧
        (job.greedy = true → plainJob w f job kept (seen s) = (.ok ended, seen s')))
      (fun stop s' => (s'.promptCache = none ∨ s'.promptCache = some (cacheOf job kept)) ∧
        Exits holds (job.greedy = true) (plainJob w f job kept (seen s)) s stop s') := by
  refine Triple.ite (fun hbad => Triple.throw fun s' hs' => ?_) fun hgood => ?_
  · subst s'
    refine ⟨.inl hcache, .inl ⟨by simp, hcached, fun _ => if_pos hbad⟩⟩
  rw [not_or, Nat.not_le] at hgood
  refine Triple.bind _ ((reuse_triple hlaw job s hcached).weaken (fun _ h => h) (fun _ _ h => h) fun _ _ h => h.elim) fun kept' => ?_
  refine Triple.of_eq fun s₁ ⟨hkept', hcached₁, hids₁, hseen₁, hforced₁, hsome₁⟩ => ?_
  rw [← hkept] at hkept'
  subst kept'
  have hlt : kept < job.promptIds.length := hkept ▸ (keptOf_le hlaw s.engine job.promptIds).2 hgood.1
  -- the prompt
  refine Triple.bind _ ((prefill_triple hlaw w job (checkpointOf m job.promptIds kept) (job.promptIds.length - kept) kept none s₁ hcached₁
    hids₁ (Nat.le_of_lt hlt) (Nat.le_refl _) (Nat.le_of_lt hgood.2)).weaken (fun _ h => h) (fun _ _ h => h) ?_) fun r => ?_
  · rintro stop s' ⟨hcache', ⟨hstop, hconsistent, hseen⟩ | ⟨origin, fault, hfailed, hpushed', hblames⟩⟩
    · refine ⟨.inl (hcache'.trans ((congrArg Seen.promptCache hseen₁).trans hcache)), .inl ⟨?_, hconsistent, fun _ => ?_⟩⟩
      · rw [hstop]
        simp
      · rw [plainJob, if_neg (by omega), ← hseen₁, hseen, hstop]
    · refine ⟨.inl (hcache'.trans ((congrArg Seen.promptCache hseen₁).trans hcache)), .inr ⟨origin, fault, hfailed, fun _ => ⟨?_, fun htotal => ?_⟩⟩⟩
      · rw [hpushed', show s₁.pushed = s.pushed from congrArg Seen.pushed hseen₁, hpushed]
        exact List.nil_prefix
      · obtain ⟨horigin, hsome⟩ := hblames htotal
        exact ⟨horigin, hsome₁ ▸ hsome⟩
  refine Triple.of_eq fun s₂ ⟨hcached₂, hids₂, hforced₂, hsome₂, hprefill, hr⟩ => ?_
  rw [hr hlt]
  refine Triple.bind (fun logits s' => logits = f job.promptIds ∧ s' = s₂) (Triple.pure fun s' hs' => ⟨rfl, hs'⟩) fun logits => ?_
  refine Triple.of_eq fun s' ⟨hlogits, hs'⟩ => ?_
  subst logits s'
  refine Triple.bind (fun _ s' => s' = { s₂ with logits := f job.promptIds, promptCache := some (cacheOf job kept) })
    (Triple.modify fun s' hs' => by rw [hs']; rfl) fun _ => ?_
  refine Triple.of_eq fun s₃ hs₃ => ?_
  have hplain : plainJob w f job kept (seen s) = plainCompletion w f job (seen s₃) := by
    rw [plainJob, if_neg (by omega), ← hseen₁, hprefill, hs₃]
    rfl
  have hpushed₃ : s₃.pushed = [] := by
    have h := (prefillSeen_keeps w job.promptIds.length (checkpointOf m job.promptIds kept) (job.promptIds.length - kept) kept (seen s₁)).1
    rw [hprefill, hseen₁] at h
    rw [hs₃]
    exact h.trans hpushed
  have hcached₃ : Consistent holds s₃.engine := hs₃ ▸ hcached₂
  have hids₃ : s₃.engine.cached = job.promptIds := hs₃ ▸ hids₂
  have hcache₃ : s₃.promptCache = some (cacheOf job kept) := by rw [hs₃]
  have hsome₃ : s₃.engine.drafter.isSome = s.engine.drafter.isSome := by
    rw [hs₃]
    exact hsome₂.trans hsome₁
  have hbudget : job.promptIds.length + budgetOf job ≤ m.contextLength := by
    have h : budgetOf job ≤ m.contextLength - job.promptIds.length := by
      unfold budgetOf
      cases job.maxTokens with
      | none => exact Nat.le_refl _
      | some n => exact Nat.min_le_right _ _
    omega
  have hready (hgreedy : job.greedy = true) : Ready f job.promptIds.length (budgetOf job) job s₃ := by
    refine ⟨hgreedy, ?_, ?_, ?_, ?_⟩
    · rw [hs₃]
      exact hforced₂.trans (hforced₁.trans hforced)
    · rw [hids₃, hs₃]
    · rw [hids₃, hpushed₃]
      rfl
    · rw [hpushed₃]
      exact Nat.zero_le _
  have hfuel : budgetOf job - s₃.pushed.length ≤ budgetOf job := Nat.sub_le _ _
  have hfrom : plainFrom w f (budgetOf job) s₃ = plain w f (budgetOf job) job.promptIds (seen s₃) := by
    rw [plainFrom, hpushed₃, hids₃]
    rfl
  -- the completion
  refine Triple.bind _ ((decode_triple hlaw w job job.promptIds.length (budgetOf job) hbudget (budgetOf job) s₃ hcached₃
    (by rw [hids₃]; omega)).weaken (fun _ h => h) (fun _ _ h => h) ?_) fun ended => ?_
  · rintro stop s' ⟨hcache', ⟨hstop, hconsistent, hdecoded⟩ | ⟨origin, fault, hfailed, hblames⟩⟩
    · refine ⟨.inr (hcache'.trans hcache₃), .inl ⟨?_, hconsistent, fun hgreedy => ?_⟩⟩
      · rw [hstop]
        simp
      · rw [hplain, plainCompletion, ← hfrom, hdecoded ⟨hready hgreedy, hfuel⟩, hstop]
    · refine ⟨.inr (hcache'.trans hcache₃), .inr ⟨origin, fault, hfailed, fun hgreedy => ?_⟩⟩
      obtain ⟨hbehind, hdrafter⟩ := hblames ⟨hready hgreedy, hfuel⟩
      refine ⟨?_, fun htotal => hsome₃ ▸ hdrafter htotal⟩
      rw [hplain, plainCompletion_pushed, ← hfrom]
      exact hbehind
  refine Triple.of_eq fun s₄ hs₄ => ?_
  obtain ⟨hcached₄, hcache₄, hdecoded⟩ := hs₄
  have hcompletion (hgreedy : job.greedy = true) : plainJob w f job kept (seen s) = finishSeen w job ended (seen s₄) := by
    rw [hplain, plainCompletion, ← hfrom, hdecoded (hready hgreedy) hfuel]
  refine Triple.bind _ ((finish_triple w job ended s₄).weaken (fun _ h => h) (fun _ _ h => h) ?_) fun _ => ?_
  · rintro stop s' ⟨hstop, hengine, hcache', hfinish⟩
    refine ⟨.inr (hcache'.trans (hcache₄.trans hcache₃)), .inl ⟨?_, ?_, fun hgreedy => ?_⟩⟩
    · rw [hstop]
      simp
    · rw [hengine]
      exact hcached₄
    · rw [hcompletion hgreedy, hfinish, hstop]
  · refine Triple.pure fun s' hs' => ?_
    obtain ⟨hengine, hcache', hfinish⟩ := hs'
    refine ⟨hcache'.trans (hcache₄.trans hcache₃), ?_, fun hgreedy => ?_⟩
    · rw [hengine]
      exact hcached₄
    · rw [hcompletion hgreedy, hfinish]

end

/-! ## Reports -/

def fresh (job : Job m) : Seen m := ⟨job.parser, [], [], 0, none, none⟩

/-- What is reported of a job without drafts. -/
def reportSeen (w : World) (job : Job m) : Except Stop Ended × Seen m → Report m
  | (.error .rejected, o) =>
    { stop := .error .rejected
      pushed := o.pushed
      delivered := if w.gone o.tick then o.delivered else o.delivered ++ [.error (rejection m job.promptIds.length)]
      promptCache := o.promptCache
      usage := o.usage }
  | (stop, o) => ⟨stop, o.pushed, o.delivered, o.promptCache, o.usage⟩

theorem reportSeen_pushed (w : World) (job : Job m) (outcome : Except Stop Ended × Seen m) :
    (reportSeen w job outcome).pushed = outcome.2.pushed := by
  unfold reportSeen
  split <;> rfl

def plainReport (w : World) (f : List Token → List m.F) (job : Job m) (kept : Nat) : Report m :=
  reportSeen w job (plainJob w f job kept (fresh job))

def undrafted (e : Engine m) : Engine m := { e with drafter := none }

theorem lastItem_pushed (w : World) (s : Run m) (e : CucaError) :
    (lastItem w s e).pushed = s.pushed ∧ (lastItem w s e).promptCache = s.promptCache := by
  unfold lastItem
  split <;> exact ⟨rfl, rfl⟩

section
variable {f : List Token → List m.F} {holds : m.S → List Token} (hlaw : m.trunk.Lawful f holds)
include hlaw

omit hlaw in
theorem report_rejected (w : World) (job : Job m) (s : Run m) :
    reportOf (.error .rejected) (lastItem w s (rejection m job.promptIds.length)) = reportSeen w job (.error .rejected, seen s) := by
  show reportOf (.error .rejected) (if w.gone s.tick then s else _) = ⟨_, _, if w.gone s.tick then _ else _, _, _⟩
  split <;> rfl

theorem consistent_reset (e : Engine m) : Consistent holds (reset e) := hlaw.truncate_zero e.model

/-- **A job** leaves the account of the cache right, however it ends; without sampling, its report is that of the job without drafts,
unless something fails, which is the drafter if the model does not. -/
theorem run_spec (w : World) (job : Job m) (e : Engine m) (hcached : Consistent holds e) :
    Consistent holds (run e w job).1 ∧
      (∀ cache, (run e w job).2.promptCache = some cache → cache = cacheOf job (keptOf e job.promptIds)) ∧
      (job.greedy = true →
        (run e w job).2 = plainReport w f job (keptOf e job.promptIds) ∨
          ∃ origin fault, (run e w job).2.stop = .error (.failed origin fault) ∧
            (run e w job).2.pushed <+: (plainReport w f job (keptOf e job.promptIds)).pushed ∧
            (m.trunk.Total holds m.contextLength → origin = .drafter ∧ e.drafter.isSome = true)) := by
  have htriple := generate_triple hlaw w job (begin e job) hcached rfl rfl rfl (show keptOf e job.promptIds = _ from rfl)
  rcases hrun : (generate w job).run (begin e job) with ⟨ended, s⟩ | ⟨stop, s⟩
  · obtain ⟨hcache, hconsistent, hplain⟩ := htriple.run_ok rfl hrun
    have hreport : run e w job = (s.engine, reportOf (.ok ended) s) := by rw [run, hrun]
    rw [hreport]
    refine ⟨hconsistent, fun cache h => (Option.some.inj (hcache.symm.trans h)).symm, fun hgreedy => .inl ?_⟩
    show _ = reportSeen w job (plainJob w f job (keptOf e job.promptIds) (seen (begin e job)))
    rw [hplain hgreedy]
    rfl
  · obtain ⟨hcache, hexits⟩ := htriple.run_error rfl hrun
    have hcacheOf (cache : Nat × Nat) (h : s.promptCache = some cache) : cache = cacheOf job (keptOf e job.promptIds) := by
      rcases hcache with hnone | hsome
      · exact nomatch hnone.symm.trans h
      · exact (Option.some.inj (hsome.symm.trans h)).symm
    rcases hexits with ⟨hstop, hconsistent, hplain⟩ | ⟨origin, fault, rfl, hblames⟩
    · cases stop with
      | rejected =>
        have hreport : run e w job = (s.engine, reportOf (.error .rejected) (lastItem w s (rejection m job.promptIds.length))) := by
          rw [run, hrun]
        rw [hreport]
        refine ⟨hconsistent, fun cache h => hcacheOf cache ((lastItem_pushed w s _).2 ▸ h), fun hgreedy => .inl ?_⟩
        show _ = reportSeen w job (plainJob w f job (keptOf e job.promptIds) (seen (begin e job)))
        rw [hplain hgreedy]
        exact report_rejected w job s
      | gone =>
        have hreport : run e w job = (s.engine, reportOf (.error .gone) s) := by rw [run, hrun]
        rw [hreport]
        refine ⟨hconsistent, fun cache h => hcacheOf cache h, fun hgreedy => .inl ?_⟩
        show _ = reportSeen w job (plainJob w f job (keptOf e job.promptIds) (seen (begin e job)))
        rw [hplain hgreedy]
        rfl
      | failed origin fault => exact absurd rfl (hstop origin fault)
    · obtain ⟨err, hreport⟩ : ∃ err, run e w job = (reset s.engine, reportOf (.error (.failed origin fault)) (lastItem w s err)) := by
        rw [run, hrun]
        cases fault <;> exact ⟨_, rfl⟩
      rw [hreport]
      refine ⟨consistent_reset hlaw _, fun cache h => hcacheOf cache ((lastItem_pushed w s err).2 ▸ h), fun hgreedy => .inr ?_⟩
      obtain ⟨hpushed, hdrafter⟩ := hblames hgreedy
      refine ⟨origin, fault, rfl, ?_, hdrafter⟩
      show (lastItem w s err).pushed <+: _
      rw [(lastItem_pushed w s err).1, plainReport, reportSeen_pushed]
      exact hpushed

/-- **Speculation is exact**: without sampling, a job with a drafter, with any drafts, and the same job without one leave the same
report, unless the drafter fails; then what was pushed is a beginning. -/
theorem speculation_exact (htotal : m.trunk.Total holds m.contextLength) (e : Engine m) (hcached : Consistent holds e) (w : World)
    (job : Job m) (hgreedy : job.greedy = true) :
    (run e w job).2 = (run (undrafted e) w job).2 ∨
      ∃ fault, (run e w job).2.stop = .error (.failed .drafter fault) ∧
        (run e w job).2.pushed <+: (run (undrafted e) w job).2.pushed := by
  have hplain : (run (undrafted e) w job).2 = plainReport w f job (keptOf e job.promptIds) := by
    rcases (run_spec hlaw w job (undrafted e) hcached).2.2 hgreedy with h | ⟨_, _, _, _, hdrafter⟩
    · exact h
    · exact nomatch (hdrafter htotal).2
  rw [hplain]
  rcases (run_spec hlaw w job e hcached).2.2 hgreedy with h | ⟨origin, fault, hstop, hpushed, hdrafter⟩
  · exact .inl h
  · obtain ⟨rfl, -⟩ := hdrafter htotal
    exact .inr ⟨fault, hstop, hpushed⟩

end

end Cuca.Local.Engine
