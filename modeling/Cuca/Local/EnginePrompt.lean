import Cuca.Local.EngineSteps

/-!
# The prompt

* `reuse_triple` : what is kept of the cache is a beginning of the prompt, but not all of it;
* `prefillSeen` : what a consumer sees of filling the rest;
* `prefill_triple` : afterwards the cache holds the prompt, and there are logits after it.
-/

namespace Cuca.Local.Engine
open Hoare
variable {m : Machine}

/-! ## What is kept -/

theorem sharedLength_cons (c : Token) (cached : List Token) (p : Token) (promptIds : List Token) :
    sharedLength (c :: cached) (p :: promptIds) = if c = p then sharedLength cached promptIds + 1 else 0 := by
  unfold sharedLength
  rw [List.zip_cons_cons, List.takeWhile_cons]
  by_cases h : c = p
  · rw [if_pos h, if_pos (beq_iff_eq.mpr h)]
    rfl
  · rw [if_neg h, if_neg (by simpa using h)]
    rfl

theorem sharedLength_spec (cached promptIds : List Token) :
    sharedLength cached promptIds ≤ promptIds.length ∧
      cached.take (sharedLength cached promptIds) = promptIds.take (sharedLength cached promptIds) := by
  induction cached generalizing promptIds with
  | nil => exact ⟨Nat.zero_le _, rfl⟩
  | cons c cached ih =>
    cases promptIds with
    | nil => exact ⟨Nat.le_refl 0, rfl⟩
    | cons p promptIds =>
      rw [sharedLength_cons]
      split
      · rename_i h
        obtain ⟨hle, htake⟩ := ih promptIds
        refine ⟨Nat.succ_le_succ hle, ?_⟩
        rw [List.take_succ_cons, List.take_succ_cons, htake, h]
      · exact ⟨Nat.zero_le _, rfl⟩

/-- How much of the cache a job keeps. -/
def keptOf (e : Engine m) (promptIds : List Token) : Nat :=
  (m.trunk.truncateCache e.model
    (if sharedLength e.cached promptIds = promptIds.length then sharedLength e.cached promptIds - 1
      else sharedLength e.cached promptIds)).2

section
variable {f : List Token → List m.F} {holds : m.S → List Token} (hlaw : m.trunk.Lawful f holds)
include hlaw

theorem keptOf_le (e : Engine m) (promptIds : List Token) :
    keptOf e promptIds ≤ sharedLength e.cached promptIds ∧ (promptIds.length ≠ 0 → keptOf e promptIds < promptIds.length) := by
  have hshared := (sharedLength_spec e.cached promptIds).1
  have hle := (hlaw.truncate_le e.model
    (if sharedLength e.cached promptIds = promptIds.length then sharedLength e.cached promptIds - 1
      else sharedLength e.cached promptIds)).1
  change keptOf e promptIds ≤ _ at hle
  split at hle <;> omega

theorem take_keptOf (e : Engine m) (promptIds : List Token) :
    e.cached.take (keptOf e promptIds) = promptIds.take (keptOf e promptIds) := by
  have h := congrArg (List.take (keptOf e promptIds)) (sharedLength_spec e.cached promptIds).2
  rwa [List.take_take, List.take_take, Nat.min_eq_left (keptOf_le hlaw e promptIds).1] at h

/-- **What is kept** of the cache is a beginning of the prompt. -/
theorem reuse_triple (job : Job m) (s : Run m) (hcached : Consistent holds s.engine) :
    Triple (· = s) (reuse job)
      (fun kept s' => kept = keptOf s.engine job.promptIds ∧ Consistent holds s'.engine ∧
        s'.engine.cached = job.promptIds.take kept ∧ seen s' = seen s ∧ s'.forced = s.forced ∧
        s'.engine.drafter.isSome = s.engine.drafter.isSome)
      (fun _ _ => False) := by
  refine Triple.get fun s' hs' => ?_
  subst s'
  have htake := take_keptOf hlaw s.engine job.promptIds
  refine Triple.bind (fun _ s' => s' = { s with engine := { s.engine with
    model := (m.trunk.truncateCache s.engine.model (if sharedLength s.engine.cached job.promptIds = job.promptIds.length then
      sharedLength s.engine.cached job.promptIds - 1 else sharedLength s.engine.cached job.promptIds)).1
    cached := s.engine.cached.take (keptOf s.engine job.promptIds)
    drafter := s.engine.drafter.map fun d => m.drafter.truncate d (sharedLength s.engine.cached job.promptIds) } })
    (Triple.set fun _ _ => rfl) fun _ => Triple.pure fun s' hs' => ?_
  subst s'
  refine ⟨rfl, ?_, htake, rfl, rfl, Option.isSome_map⟩
  show holds (m.trunk.truncateCache s.engine.model _).1 = s.engine.cached.take (keptOf s.engine job.promptIds)
  rw [hlaw.truncate_holds, hcached]
  rfl

end

/-! ## The rest -/

theorem chunkEnd_spec (m : Machine) {promptLength : Nat} (checkpointAt : Option Nat) {pos : Nat} (h : pos < promptLength) :
    pos < chunkEnd m promptLength checkpointAt pos ∧ chunkEnd m promptLength checkpointAt pos ≤ promptLength := by
  have hchunk : 16 ≤ prefillChunk m.contextLength := Nat.le_max_left _ _
  unfold chunkEnd
  dsimp only
  split
  · split <;> omega
  · omega

/-- Between the chunks the consumer is looked at. -/
def prefillSeen (w : World) (promptLength : Nat) (checkpointAt : Option Nat) : Nat → Nat → Seen m → Seen m × Bool
  | 0, _, o => (o, true)
  | fuel + 1, pos, o =>
    if pos < promptLength then
      if chunkEnd m promptLength checkpointAt pos = promptLength then (o, true)
      else if w.gone o.tick then (o, false)
      else prefillSeen w promptLength checkpointAt fuel (chunkEnd m promptLength checkpointAt pos) { o with tick := o.tick + 1 }
    else (o, true)

theorem prefillSeen_keeps (w : World) (promptLength : Nat) (checkpointAt : Option Nat) (fuel pos : Nat) (o : Seen m) :
    (prefillSeen w promptLength checkpointAt fuel pos o).1.pushed = o.pushed ∧
      (prefillSeen w promptLength checkpointAt fuel pos o).1.promptCache = o.promptCache := by
  induction fuel generalizing pos o with
  | zero => exact ⟨rfl, rfl⟩
  | succ fuel ih =>
    rw [prefillSeen]
    split
    · split
      · exact ⟨rfl, rfl⟩
      · split
        · exact ⟨rfl, rfl⟩
        · exact ih _ _
    · exact ⟨rfl, rfl⟩

/-- How filling the prompt fails: the consumer is gone, or there is a failure, which is the drafter's if the model does not fail. -/
def PrefillLeaves (holds : m.S → List Token) (gone : Seen m → Prop) (s : Run m) (stop : Stop) (s' : Run m) : Prop :=
  s'.promptCache = s.promptCache ∧
    ((stop = .gone ∧ Consistent holds s'.engine ∧ gone (seen s')) ∨
      ∃ origin fault, stop = .failed origin fault ∧ s'.pushed = s.pushed ∧
        (m.trunk.Total holds m.contextLength → origin = .drafter ∧ s.engine.drafter.isSome = true))

section
variable {f : List Token → List m.F} {holds : m.S → List Token} (hlaw : m.trunk.Lawful f holds)
include hlaw

theorem prefillStep_triple (w : World) (job : Job m) (checkpointAt : Option Nat) (pos : Nat) (s : Run m)
    (hcached : Consistent holds s.engine) (hids : s.engine.cached = job.promptIds.take pos) (hpos : pos < job.promptIds.length)
    (hroom : job.promptIds.length ≤ m.contextLength) {stop : Nat}
    (hstop : chunkEnd m job.promptIds.length checkpointAt pos = stop) :
    Triple (· = s) (prefillStep w job checkpointAt pos)
      (fun logits s' => Consistent holds s'.engine ∧ s'.engine.cached = job.promptIds.take stop ∧ s'.forced = s.forced ∧
        s'.engine.drafter.isSome = s.engine.drafter.isSome ∧
        (stop = job.promptIds.length → logits = some (f job.promptIds) ∧ seen s' = seen s) ∧
        (stop ≠ job.promptIds.length → w.gone s.tick = false ∧ seen s' = { seen s with tick := s.tick + 1 }))
      (PrefillLeaves holds (fun o => stop ≠ job.promptIds.length ∧ w.gone s.tick = true ∧ o = seen s) s) := by
  obtain ⟨hlt, hle⟩ := chunkEnd_spec m checkpointAt hpos
  rw [hstop] at hlt hle
  have hlength : (holds s.engine.model).length = pos := by
    rw [hcached, hids, List.length_take]
    omega
  have htokens : s.engine.cached ++ (job.promptIds.take stop).drop pos = job.promptIds.take stop := by
    rw [hids, show job.promptIds.take pos = (job.promptIds.take stop).take pos by
      rw [List.take_take, Nat.min_eq_left (Nat.le_of_lt hlt)]]
    exact List.take_append_drop _ _
  refine Triple.get fun s' hs' => ?_
  subst s'
  dsimp only
  rw [hstop]
  refine Triple.bind _ ((forward_triple _ _ _ _ s).weaken (fun _ h => h) (fun _ _ h => h) ?_) fun pass => ?_
  · rintro stop' s' ⟨hseen, fault, hfault, hstop'⟩
    refine ⟨congrArg Seen.promptCache hseen, .inr ⟨_, fault, hstop', congrArg Seen.pushed hseen, fun htotal => ?_⟩⟩
    have hmost : (holds s.engine.model).length + ((job.promptIds.take stop).drop pos).length = stop := by
      rw [hlength, List.length_drop, List.length_take]
      omega
    have hne : (job.promptIds.take stop).drop pos ≠ [] := fun hnil => by
      rw [hnil, List.length_nil] at hmost
      omega
    obtain ⟨pass, hpass⟩ := htotal s.engine.model ((job.promptIds.take stop).drop pos) _ _ hne (by omega)
    rw [hlength] at hpass
    exact nomatch hfault.symm.trans hpass
  refine Triple.of_eq fun s₁ ⟨hs₁, hpass⟩ => ?_
  rw [← hlength] at hpass
  obtain ⟨hholds, hlogits⟩ := hlaw.forward_ok _ _ _ _ _ hpass
  rw [hlength] at hholds hlogits
  rw [hcached, htokens] at hholds
  -- what is the same in both branches
  have htail (g : Run m → Run m) (hg : ∀ u, seen (g u) = seen u ∧ (g u).forced = u.forced ∧
      (g u).engine.drafter = u.engine.drafter ∧ (g u).engine.cached = u.engine.cached ++ (job.promptIds.take stop).drop pos ∧
      holds (g u).engine.model = holds u.engine.model) :
      Triple (fun u => ∃ d, u = { s₁ with engine := { s₁.engine with drafter := d } } ∧ d.isSome = s.engine.drafter.isSome)
        (do
          modify g
          let s' ← get
          if !(stop == job.promptIds.length) && w.gone s'.tick then throw .gone
          else do
            modify fun s' => { s' with tick := if (stop == job.promptIds.length) = true then s'.tick else s'.tick + 1 }
            return pass.logits)
        (fun logits s' => Consistent holds s'.engine ∧ s'.engine.cached = job.promptIds.take stop ∧ s'.forced = s.forced ∧
          s'.engine.drafter.isSome = s.engine.drafter.isSome ∧
          (stop = job.promptIds.length → logits = some (f job.promptIds) ∧ seen s' = seen s) ∧
          (stop ≠ job.promptIds.length → w.gone s.tick = false ∧ seen s' = { seen s with tick := s.tick + 1 }))
        (PrefillLeaves holds (fun o => stop ≠ job.promptIds.length ∧ w.gone s.tick = true ∧ o = seen s) s) := by
    refine Triple.bind (fun _ v => seen v = seen s ∧ v.forced = s.forced ∧ v.engine.drafter.isSome = s.engine.drafter.isSome ∧
      v.engine.cached = job.promptIds.take stop ∧ Consistent holds v.engine) (Triple.modify ?_) fun _ => ?_
    · rintro u ⟨d, rfl, hsome⟩
      obtain ⟨hseen, hforced, hdrafter, hcached', hmodel⟩ := hg { s₁ with engine := { s₁.engine with drafter := d } }
      rw [hs₁] at hseen hforced hdrafter hcached' hmodel ⊢
      have htake := hcached'.trans htokens
      refine ⟨hseen, hforced, hdrafter ▸ hsome, htake, ?_⟩
      rw [Consistent, hmodel, htake]
      exact hholds
    · refine Triple.get fun v ⟨hseen, hforced, hsome, htake, hconsistent⟩ => ?_
      have htick : v.tick = s.tick := congrArg Seen.tick hseen
      rw [htick]
      refine Triple.ite (fun hgone => Triple.throw fun v' hv' => ?_) fun hgone => ?_
      · subst v'
        rw [Bool.and_eq_true, Bool.not_eq_true', beq_eq_false_iff_ne] at hgone
        exact ⟨congrArg Seen.promptCache hseen, .inl ⟨rfl, hconsistent, hgone.1, hgone.2, hseen⟩⟩
      · refine Triple.bind (fun _ v' => v' = { v with tick := if (stop == job.promptIds.length) = true then v.tick else v.tick + 1 })
          (Triple.modify fun v' hv' => by rw [hv']) fun _ => Triple.pure fun v' hv' => ?_
        subst v'
        refine ⟨hconsistent, htake, hforced, hsome, fun hlast => ⟨?_, ?_⟩, fun hmore => ⟨?_, ?_⟩⟩
        · rw [hlogits, if_pos (beq_iff_eq.mpr hlast), logitsOf, hcached, htokens, hlast, List.take_length]
        · rw [if_pos (beq_iff_eq.mpr hlast)]
          exact hseen
        · rw [beq_eq_false_iff_ne.mpr hmore, Bool.not_false, Bool.true_and] at hgone
          exact Bool.eq_false_iff.mpr hgone
        · rw [if_neg (by rw [beq_eq_false_iff_ne.mpr hmore]; exact Bool.false_ne_true), ← hseen, ← htick]
          rfl
  split
  · refine Triple.bind (fun _ u => ∃ d, u = { s₁ with engine := { s₁.engine with drafter := d } } ∧ d.isSome = s.engine.drafter.isSome) ?_
      fun _ => htail _ ?_
    · refine (observe_triple _ _ _ s₁).weaken (fun _ h => h) ?_ ?_
      · rintro _ u ⟨d, hu, hsome⟩
        exact ⟨d, hu, by rw [hsome, hs₁]⟩
      · rintro stop' u ⟨hseen, hsome, fault, rfl⟩
        rw [hs₁] at hseen hsome
        exact ⟨congrArg Seen.promptCache hseen, .inr ⟨_, fault, rfl, congrArg Seen.pushed hseen, fun _ => ⟨rfl, hsome⟩⟩⟩
    · intro u
      refine ⟨rfl, rfl, rfl, rfl, ?_⟩
      dsimp only
      split
      · exact hlaw.checkpoint _
      · rfl
  · refine Triple.weaken (htail _ ?_) (fun u hu => ⟨s₁.engine.drafter, hu, (by rw [hs₁])⟩) (fun _ _ h => h) fun _ _ h => h
    intro u
    refine ⟨rfl, rfl, rfl, rfl, ?_⟩
    dsimp only
    split
    · exact hlaw.checkpoint _
    · rfl

theorem prefill_triple (w : World) (job : Job m) (checkpointAt : Option Nat) (fuel pos : Nat) (logits : Option (List m.F)) (s : Run m)
    (hcached : Consistent holds s.engine) (hids : s.engine.cached = job.promptIds.take pos) (hpos : pos ≤ job.promptIds.length)
    (hfuel : job.promptIds.length - pos ≤ fuel) (hroom : job.promptIds.length ≤ m.contextLength) :
    Triple (· = s) (prefill w job checkpointAt fuel pos logits)
      (fun r s' => Consistent holds s'.engine ∧ s'.engine.cached = job.promptIds ∧ s'.forced = s.forced ∧
        s'.engine.drafter.isSome = s.engine.drafter.isSome ∧
        prefillSeen w job.promptIds.length checkpointAt fuel pos (seen s) = (seen s', true) ∧
        (pos < job.promptIds.length → r = some (f job.promptIds)))
      (PrefillLeaves holds (fun o => prefillSeen w job.promptIds.length checkpointAt fuel pos (seen s) = (o, false)) s) := by
  induction fuel generalizing pos logits s with
  | zero =>
    refine Triple.pure fun s' hs' => ?_
    subst s'
    refine ⟨hcached, ?_, rfl, rfl, rfl, fun h => by omega⟩
    rw [hids, List.take_of_length_le (by omega)]
  | succ fuel ih =>
    refine Triple.ite (fun hlt => ?_) fun hend => ?_
    · obtain ⟨stop, hstop⟩ : ∃ stop, chunkEnd m job.promptIds.length checkpointAt pos = stop := ⟨_, rfl⟩
      obtain ⟨hmore, hle⟩ := chunkEnd_spec m checkpointAt hlt
      rw [hstop] at hmore hle ⊢
      have hseenStep : prefillSeen w job.promptIds.length checkpointAt (fuel + 1) pos (seen s) =
          if stop = job.promptIds.length then (seen s, true)
          else if w.gone s.tick then (seen s, false)
          else prefillSeen w job.promptIds.length checkpointAt fuel stop { seen s with tick := s.tick + 1 } := by
        rw [prefillSeen, if_pos hlt, hstop]
        rfl
      rw [hseenStep]
      refine Triple.bind _ ((prefillStep_triple hlaw w job checkpointAt pos s hcached hids hlt hroom hstop).weaken (fun _ h => h)
        (fun _ _ h => h) ?_) fun r => ?_
      · rintro stop' s' ⟨hcache, ⟨hgone, hconsistent, hne, htick, hseen⟩ | ⟨origin, fault, hfailed, hpushed, hblames⟩⟩
        · refine ⟨hcache, .inl ⟨hgone, hconsistent, ?_⟩⟩
          rw [if_neg hne, if_pos htick, hseen]
        · exact ⟨hcache, .inr ⟨origin, fault, hfailed, hpushed, hblames⟩⟩
      · refine Triple.of_eq fun s₁ ⟨hcached₁, hids₁, hforced₁, hsome₁, hlast, hnext⟩ => ?_
        by_cases hstopEnd : stop = job.promptIds.length
        · obtain ⟨hr, hseen⟩ := hlast hstopEnd
          rw [if_pos hstopEnd]
          have hdone : Triple (· = s₁) (prefill w job checkpointAt fuel stop r) (fun r' s' => r' = r ∧ s' = s₁)
              (PrefillLeaves holds (fun o => (seen s, true) = (o, false)) s) := by
            cases fuel with
            | zero => exact Triple.pure fun _ h => ⟨rfl, h⟩
            | succ fuel =>
              refine Triple.ite (fun h => absurd hstopEnd (by omega)) fun _ => Triple.pure fun _ h => ⟨rfl, h⟩
          refine hdone.weaken (fun _ h => h) ?_ fun _ _ h => h
          rintro r' s' ⟨rfl, rfl⟩
          refine ⟨hcached₁, ?_, hforced₁, hsome₁, (by rw [hseen]), fun _ => hr⟩
          rw [hids₁, hstopEnd, List.take_length]
        · obtain ⟨hgone, hseen⟩ := hnext hstopEnd
          rw [if_neg hstopEnd, if_neg (by rw [hgone]; exact Bool.false_ne_true), ← hseen]
          refine (ih stop r s₁ hcached₁ hids₁ hle (by omega)).weaken (fun _ h => h) ?_ ?_
          · rintro r' s' ⟨hcached', hids', hforced', hsome', hseen', hr'⟩
            exact ⟨hcached', hids', hforced'.trans hforced₁, hsome'.trans hsome₁, hseen',
              fun _ => hr' (Nat.lt_of_le_of_ne hle hstopEnd)⟩
          · rintro stop' s' ⟨hcache, ⟨hstop', hconsistent, hseen'⟩ | ⟨origin, fault, hfailed, hpushed, hblames⟩⟩
            · exact ⟨hcache.trans (congrArg Seen.promptCache hseen), .inl ⟨hstop', hconsistent, hseen'⟩⟩
            · refine ⟨hcache.trans (congrArg Seen.promptCache hseen), .inr ⟨origin, fault, hfailed,
                hpushed.trans (congrArg Seen.pushed hseen), fun htotal => ?_⟩⟩
              rw [← hsome₁]
              exact hblames htotal
    · refine Triple.pure fun s' hs' => ?_
      subst s'
      refine ⟨hcached, ?_, rfl, rfl, ?_, fun h => absurd h hend⟩
      · rw [hids, List.take_of_length_le (by omega)]
      · rw [prefillSeen, if_neg hend]

end

end Cuca.Local.Engine
