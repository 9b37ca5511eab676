import Cuca.Local.EngineSteps

/-!
# Decoding, one token after the other

Rounds with drafts and rounds without come to the same thing as a loop that takes the greedy token, pushes it, and goes on after it.

* `plain` : this loop;
* `emit_triple`, `round_triple` : a round is some turns of the loop;
* `decode_triple` : and so is decoding, unless the drafter fails.
-/

namespace Cuca.Local.Engine
open Hoare
variable {m : Machine}

/-- The loop without drafts, for so many tokens: how it ends, and what is seen. -/
def plain (w : World) (f : List Token → List m.F) : Nat → List Token → Seen m → Except Stop Ended × Seen m
  | 0, _, o => (.ok .full, o)
  | k + 1, x, o =>
    if m.isEog (greedy m (f x)) then (.ok .eog, o)
    else if (pushSeen w o (greedy m (f x))).2 then plain w f k (x ++ [greedy m (f x)]) (pushSeen w o (greedy m (f x))).1
    else (.error .gone, (pushSeen w o (greedy m (f x))).1)

section
variable {w : World} {f : List Token → List m.F} {x : List Token} {o o' : Seen m} {k : Nat}

theorem plain_eog (h : m.isEog (greedy m (f x)) = true) : plain w f (k + 1) x o = (.ok .eog, o) := if_pos h

theorem plain_push (h : ¬ m.isEog (greedy m (f x)) = true) (hpush : pushSeen w o (greedy m (f x)) = (o', true)) :
    plain w f (k + 1) x o = plain w f k (x ++ [greedy m (f x)]) o' := by
  rw [plain, if_neg h, hpush]
  rfl

theorem plain_gone (h : ¬ m.isEog (greedy m (f x)) = true) (hpush : pushSeen w o (greedy m (f x)) = (o', false)) :
    plain w f (k + 1) x o = (.error .gone, o') := by
  rw [plain, if_neg h, hpush]
  rfl

variable (w f k x o) in
theorem plain_pushed : o.pushed <+: (plain w f k x o).2.pushed := by
  induction k generalizing x o with
  | zero => exact List.prefix_rfl
  | succ k ih =>
    have hmore : o.pushed <+: (pushSeen w o (greedy m (f x))).1.pushed := by
      rw [pushSeen_pushed]
      exact List.prefix_append _ _
    rw [plain]
    split
    · exact List.prefix_rfl
    · split
      · exact hmore.trans (ih _ _)
      · exact hmore

end

/-! ## Accepted drafts -/

theorem pushed_promptCache {w : World} {s s' : Run m} {id : Token} {b : Bool} (h : pushSeen w (seen s) id = (seen s', b)) :
    s'.promptCache = s.promptCache := by
  have hcache := pushSeen_promptCache w (seen s) id
  rw [h] at hcache
  exact hcache

/-- **Pushing accepted drafts** is so many turns of the loop. -/
theorem emit_triple (w : World) (f : List Token → List m.F) (budget : Nat) (x ds : List Token) (s : Run m) :
    Triple (· = s) (emit w budget ds)
      (fun r s' => s' = withSeen s (seen s') ∧ s'.promptCache = s.promptCache ∧ (Agrees m f x ds → s.pushed.length + ds.length ≤ budget →
        match r with
        | some ended => plain w f (budget - s.pushed.length) x (seen s) = (.ok ended, seen s')
        | none => s'.pushed.length = s.pushed.length + ds.length ∧
          plain w f (budget - s.pushed.length) x (seen s) = plain w f (budget - s'.pushed.length) (x ++ ds) (seen s')))
      (fun stop s' => stop = .gone ∧ s' = withSeen s (seen s') ∧ s'.promptCache = s.promptCache ∧ (Agrees m f x ds → s.pushed.length + ds.length ≤ budget →
        plain w f (budget - s.pushed.length) x (seen s) = (.error .gone, seen s'))) := by
  induction ds generalizing x s with
  | nil =>
    refine Triple.pure fun s' hs' => ?_
    subst s'
    exact ⟨rfl, rfl, fun _ _ => ⟨rfl, by rw [List.append_nil]⟩⟩
  | cons d ds ih =>
    rw [emit]
    have hbudget (hroom : s.pushed.length + (d :: ds).length ≤ budget) :
        budget - s.pushed.length = (budget - (s.pushed.length + 1)) + 1 := by
      rw [List.length_cons] at hroom
      omega
    refine Triple.ite (fun heog => ?_) fun heog => ?_
    · refine Triple.pure fun s' hs' => ?_
      subst s'
      refine ⟨rfl, rfl, fun hagrees hroom => ?_⟩
      rw [hbudget hroom]
      exact plain_eog (by rw [hagrees.1]; exact heog)
    · refine Triple.bind (fun _ s' => pushSeen w (seen s) d = (seen s', true) ∧ s' = withSeen s (seen s'))
        ((pushToken_triple w d s).weaken (fun _ h => h) (fun _ _ h => h) fun stop s' ⟨hstop, hpush, hs'⟩ => ?_) fun _ => ?_
      · refine ⟨hstop, hs', pushed_promptCache hpush, fun hagrees hroom => ?_⟩
        rw [hbudget hroom]
        refine plain_gone ?_ ?_
        · rw [hagrees.1]
          exact heog
        · rw [hagrees.1]
          exact hpush
      · refine Triple.get fun s' ⟨hpush, hs'⟩ => ?_
        have hpushed : s'.pushed = s.pushed ++ [d] := by
          have h := pushSeen_pushed w (seen s) d
          rw [hpush] at h
          exact h
        have hlength : s'.pushed.length = s.pushed.length + 1 := by rw [hpushed, List.length_append, List.length_singleton]
        have hturn (hagrees : Agrees m f x (d :: ds)) (hroom : s.pushed.length + (d :: ds).length ≤ budget) :
            plain w f (budget - s.pushed.length) x (seen s) = plain w f (budget - s'.pushed.length) (x ++ [d]) (seen s') := by
          rw [hbudget hroom, hlength, ← hagrees.1]
          rw [← hagrees.1] at heog hpush
          exact plain_push heog hpush
        refine Triple.ite (fun hfull => ?_) fun hfull => ?_
        · refine Triple.pure fun s'' hs'' => ?_
          subst s''
          refine ⟨hs', pushed_promptCache hpush, fun hagrees hroom => ?_⟩
          show plain w f (budget - s.pushed.length) x (seen s) = (.ok .full, seen s')
          rw [hturn hagrees hroom, hfull, Nat.sub_self]
          rfl
        · have hroom' (hroom : s.pushed.length + (d :: ds).length ≤ budget) : s'.pushed.length + ds.length ≤ budget := by
            rw [List.length_cons] at hroom
            omega
          have hsame (s'' : Run m) (h : s'' = withSeen s' (seen s'')) : s'' = withSeen s (seen s'') := by
            rw [h, hs']
            rfl
          refine (ih (x ++ [d]) s').weaken (fun _ h => h) ?_ ?_
          · rintro r s'' ⟨hs'', hcache, hplain⟩
            refine ⟨hsame _ hs'', hcache.trans (pushed_promptCache hpush), fun hagrees hroom => ?_⟩
            have h := hplain hagrees.2 (hroom' hroom)
            rw [hturn hagrees hroom]
            cases r with
            | some ended => exact h
            | none =>
              refine ⟨?_, ?_⟩
              · rw [h.1, hlength, List.length_cons]
                omega
              · rw [h.2, List.append_assoc, List.singleton_append]
          · rintro stop s'' ⟨hstop, hs'', hcache, hplain⟩
            refine ⟨hstop, hsame _ hs'', hcache.trans (pushed_promptCache hpush), fun hagrees hroom => ?_⟩
            rw [hturn hagrees hroom]
            exact hplain hagrees.2 (hroom' hroom)

/-! ## Rounds -/

def Keeps (s s' : Run m) : Prop :=
  s'.engine.model = s.engine.model ∧ s'.engine.cached = s.engine.cached ∧ s'.engine.drafter = s.engine.drafter

theorem Keeps.setRng {s s' : Run m} (h : Keeps s s') (rng : m.G) : Keeps s (Run.setRng s' rng) :=
  ⟨(model_setRng s' rng).trans h.1, (cached_setRng s' rng).trans h.2.1, (drafter_setRng s' rng).trans h.2.2⟩

theorem nextToken_triple (job : Job m) (s : Run m) :
    Triple (· = s) (nextToken job)
      (fun id s' => seen s' = seen s ∧ Keeps s s' ∧ (job.greedy = true → s.forced = none → id = greedy m s.logits))
      (fun stop s' => seen s' = seen s ∧ ∃ fault, stop = .failed .sampler fault ∧ job.greedy ≠ true) := by
  refine Triple.get fun s' hs' => ?_
  subst s'
  split
  · rename_i id hsome
    refine Triple.bind (fun _ s' => s' = { s with forced := none }) (Triple.set fun _ _ => rfl) fun _ => ?_
    refine Triple.pure fun s' hs' => ?_
    subst s'
    exact ⟨rfl, ⟨rfl, rfl, rfl⟩, fun _ hnone => nomatch hsome.symm.trans hnone⟩
  · refine Triple.ite (fun hgreedy => ?_) fun hgreedy => ?_
    · refine Triple.pure fun s' hs' => ?_
      subst s'
      exact ⟨rfl, ⟨rfl, rfl, rfl⟩, fun _ _ => rfl⟩
    · refine Triple.bind (fun _ s' => s' = s) ?_ fun drawn => ?_
      · refine (orThrow_triple _ _ s).weaken (fun _ h => h) (fun _ _ h => h.1) ?_
        rintro stop s' ⟨rfl, fault, -, hstop⟩
        exact ⟨rfl, fault, hstop, hgreedy⟩
      · refine Triple.bind (fun _ s' => s' = Run.setRng s drawn.2) (Triple.set fun _ _ => rfl) fun _ => ?_
        refine Triple.pure fun s' hs' => ?_
        subst s'
        exact ⟨seen_setRng s _, Keeps.setRng ⟨rfl, rfl, rfl⟩ _, fun h => absurd h hgreedy⟩

theorem draftCap_le (w : World) (job : Job m) (budget : Nat) (s : Run m) :
    draftCap w job budget s ≤ budget - s.pushed.length ∧
      draftCap w job budget s ≤ m.contextLength - s.engine.cached.length - 1 ∧
      draftCap w job budget s ≤ m.trunk.rollbackRows - 1 := by
  unfold draftCap
  dsimp only
  split
  · omega
  · exact ⟨Nat.zero_le _, Nat.zero_le _, Nat.zero_le _⟩

/-- Between rounds, where nothing is sampled: the logits are those after the cached ids, which are the prompt and what was pushed. -/
structure Ready (f : List Token → List m.F) (start budget : Nat) (job : Job m) (s : Run m) : Prop where
  greedy : job.greedy = true
  forced : s.forced = none
  logits : s.logits = f s.engine.cached
  cached : s.engine.cached.length = start + s.pushed.length
  pushed : s.pushed.length ≤ budget

def plainFrom (w : World) (f : List Token → List m.F) (budget : Nat) (s : Run m) : Except Stop Ended × Seen m :=
  plain w f (budget - s.pushed.length) s.engine.cached (seen s)

/-- How a run is left: the consumer is gone, or something failed; without sampling, the loop without drafts is left in the same way,
unless it was the drafter. -/
def Leaves (holds : m.S → List Token) (ready : Prop) (outcome : Except Stop Ended × Seen m) (s : Run m) (stop : Stop) (s' : Run m) : Prop :=
  s'.promptCache = s.promptCache ∧
    ((stop = .gone ∧ Consistent holds s'.engine ∧ (ready → outcome = (.error .gone, seen s'))) ∨
      ∃ origin fault, stop = .failed origin fault ∧ (ready → s'.pushed <+: outcome.2.pushed ∧
        (m.trunk.Total holds m.contextLength → origin = .drafter ∧ s.engine.drafter.isSome = true)))

section
variable {f : List Token → List m.F} {holds : m.S → List Token} (hlaw : m.trunk.Lawful f holds)
include hlaw

/-- **A round** keeps the account of the cache, and is some turns of the loop without drafts. -/
theorem round_triple (w : World) (job : Job m) (start budget : Nat) (hbudget : start + budget ≤ m.contextLength) (s : Run m)
    (hcached : Consistent holds s.engine) (hcontext : s.engine.cached.length ≤ m.contextLength) :
    Triple (· = s) (round w job budget)
      (fun r s' => Consistent holds s'.engine ∧ s'.engine.cached.length ≤ m.contextLength ∧
        s'.engine.drafter.isSome = s.engine.drafter.isSome ∧ s'.promptCache = s.promptCache ∧
        (Ready f start budget job s → s.pushed.length < budget →
          match r with
          | some ended => plainFrom w f budget s = (.ok ended, seen s')
          | none => Ready f start budget job s' ∧ s.pushed.length < s'.pushed.length ∧ plainFrom w f budget s = plainFrom w f budget s'))
      (Leaves holds (Ready f start budget job s ∧ s.pushed.length < budget) (plainFrom w f budget s) s) := by
  have hk (hlt : s.pushed.length < budget) : budget - s.pushed.length = (budget - (s.pushed.length + 1)) + 1 := by omega
  refine Triple.bind (fun id s' => seen s' = seen s ∧ Keeps s s' ∧ (job.greedy = true → s.forced = none → id = greedy m s.logits))
    ((nextToken_triple job s).weaken (fun _ h => h) (fun _ _ h => h) ?_) fun id => ?_
  · rintro stop s' ⟨hseen', fault, hstop, hgreedy⟩
    exact ⟨congrArg Seen.promptCache hseen', .inr ⟨_, fault, hstop, fun hready => absurd hready.1.greedy hgreedy⟩⟩
  refine Triple.of_eq fun s₁ ⟨hseen₁, hkeeps₁, hid⟩ => ?_
  have hcache₁ : s₁.promptCache = s.promptCache := congrArg Seen.promptCache hseen₁
  have hid' (hready : Ready f start budget job s) : greedy m (f s.engine.cached) = id := by
    rw [hid hready.greedy hready.forced, hready.logits]
  refine Triple.ite (fun heog => ?_) fun heog => ?_
  · refine Triple.pure fun s' hs' => ?_
    subst s'
    refine ⟨?_, (by rw [hkeeps₁.2.1]; exact hcontext), (by rw [hkeeps₁.2.2]), hcache₁, fun hready hlt => ?_⟩
    · rw [Consistent, hkeeps₁.1, hkeeps₁.2.1]
      exact hcached
    · show plain w f _ _ _ = _
      rw [hk hlt, hseen₁]
      exact plain_eog (by rw [hid' hready]; exact heog)
  -- the token is pushed
  refine Triple.bind (fun _ s' => pushSeen w (seen s₁) id = (seen s', true) ∧ s' = withSeen s₁ (seen s'))
    ((pushToken_triple w id s₁).weaken (fun _ h => h) (fun _ _ h => h) ?_) fun _ => ?_
  · rintro stop s' ⟨hstop, hpush, hs'⟩
    refine ⟨(pushed_promptCache hpush).trans hcache₁, .inl ⟨hstop, ?_, fun ⟨hready, hlt⟩ => ?_⟩⟩
    · rw [Consistent, hs', engine_withSeen, hkeeps₁.1, hkeeps₁.2.1]
      exact hcached
    · rw [hseen₁] at hpush
      rw [plainFrom, hk hlt]
      rw [← hid' hready] at heog hpush
      exact plain_gone heog hpush
  refine Triple.get fun s₂ ⟨hpush, hs₂⟩ => ?_
  have hcache₂ : s₂.promptCache = s.promptCache := (pushed_promptCache hpush).trans hcache₁
  have hkeeps₂ : Keeps s s₂ := by
    rw [hs₂]
    exact hkeeps₁
  have hcached₂ : Consistent holds s₂.engine := by
    rw [Consistent, hkeeps₂.1, hkeeps₂.2.1]
    exact hcached
  have hpushed₂ : s₂.pushed.length = s.pushed.length + 1 := by
    have h := pushSeen_pushed w (seen s₁) id
    rw [hpush, hseen₁] at h
    show (seen s₂).pushed.length = _
    rw [h, List.length_append]
    rfl
  have hturn (hready : Ready f start budget job s) (hlt : s.pushed.length < budget) :
      plainFrom w f budget s = plain w f (budget - s₂.pushed.length) (s.engine.cached ++ [id]) (seen s₂) := by
    rw [hseen₁] at hpush
    rw [plainFrom, hk hlt, hpushed₂, ← hid' hready]
    rw [← hid' hready] at heog hpush
    exact plain_push heog hpush
  refine Triple.ite (fun hfull => ?_) fun hmore => ?_
  · refine Triple.pure fun s' hs' => ?_
    subst s'
    refine ⟨hcached₂, (by rw [hkeeps₂.2.1]; exact hcontext), (by rw [hkeeps₂.2.2]), hcache₂, fun hready hlt => ?_⟩
    show plainFrom w f budget s = (.ok .full, seen s₂)
    have hend : budget - s₂.pushed.length = 0 := by
      rcases hfull with hfull | hfull
      · omega
      · rw [hkeeps₂.2.1, hready.cached] at hfull
        omega
    rw [hturn hready hlt, hend]
    rfl
  rw [not_or, hkeeps₂.2.1] at hmore
  -- the drafts
  have hcap := draftCap_le w job budget s₂
  rw [hkeeps₂.2.1] at hcap
  have hbehind (hready : Ready f start budget job s) (hlt : s.pushed.length < budget) :
      s₂.pushed <+: (plainFrom w f budget s).2.pushed := by
    rw [hturn hready hlt]
    exact plain_pushed w f _ (seen s₂) _
  refine Triple.bind (fun r s' => r.1.length ≤ draftCap w job budget s₂ ∧ seen s' = seen s₂ ∧ Keeps s s')
    ((draft_triple w job budget id s₂).weaken (fun _ h => h) ?_ ?_) fun drafted => ?_
  · rintro r s' ⟨hlength, rng, rfl | rfl⟩
    · exact ⟨hlength, seen_setRng s₂ rng, hkeeps₂.setRng rng⟩
    · exact ⟨hlength, rfl, hkeeps₂⟩
  · rintro stop s' ⟨⟨fault, rfl⟩, hsome, rng, rfl⟩
    refine ⟨(congrArg Seen.promptCache (seen_setRng s₂ rng)).trans hcache₂,
      .inr ⟨_, fault, rfl, fun ⟨hready, hlt⟩ => ⟨?_, fun _ => ⟨rfl, hkeeps₂.2.2 ▸ hsome⟩⟩⟩⟩
    show (seen (Run.setRng s₂ rng)).pushed <+: _
    rw [seen_setRng]
    exact hbehind hready hlt
  refine Triple.of_eq fun s₃ ⟨hlength, hseen₃, hkeeps₃⟩ => ?_
  have hcached₃ : Consistent holds s₃.engine := by
    rw [Consistent, hkeeps₃.1, hkeeps₃.2.1]
    exact hcached
  -- verification
  have hroll : drafted.1 ≠ [] → drafted.1.length + 1 ≤ m.trunk.rollbackRows := fun hne => by
    have := List.length_pos_iff.mpr hne
    omega
  have hroom : s₃.engine.cached.length + drafted.1.length + 1 ≤ m.contextLength := by
    rw [hkeeps₃.2.1]
    omega
  refine Triple.bind _ ((verify_triple hlaw job id drafted.1 drafted.2 s₃ hcached₃ hroll hroom).weaken (fun _ h => h) (fun _ _ h => h)
    ?_) fun n => ?_
  · rintro stop s' ⟨hseen', origin, fault, rfl, hblames⟩
    refine ⟨(congrArg Seen.promptCache (hseen'.trans hseen₃)).trans hcache₂,
      .inr ⟨origin, fault, rfl, fun ⟨hready, hlt⟩ => ⟨?_, fun htotal => ?_⟩⟩⟩
    · show (seen s').pushed <+: _
      rw [hseen', hseen₃]
      exact hbehind hready hlt
    · obtain ⟨horigin, hsome⟩ := hblames htotal hready.greedy
      exact ⟨horigin, hkeeps₃.2.2 ▸ hsome⟩
  refine Triple.of_eq fun s₄ ⟨hn, hcached₄, hids, hlogits, hseen₄, hsome₄, hagrees⟩ => ?_
  rw [hkeeps₃.2.1] at hids hagrees
  have hcontext₄ : s₄.engine.cached.length ≤ m.contextLength := by
    rw [hids, List.length_append, List.length_cons, List.length_take]
    rw [hkeeps₃.2.1] at hroom
    omega
  have hsame : seen s₄ = seen s₂ := hseen₄.trans hseen₃
  have hpushed₄ : s₄.pushed.length = s₂.pushed.length := congrArg (fun o => o.pushed.length) hsame
  have htaken : (drafted.1.take n).length = n := by
    rw [List.length_take]
    omega
  have hfits (hlt : s.pushed.length < budget) : s₄.pushed.length + (drafted.1.take n).length ≤ budget := by
    rw [htaken, hpushed₄, hpushed₂]
    omega
  have hturns (hready : Ready f start budget job s) (hlt : s.pushed.length < budget) :
      plainFrom w f budget s = plain w f (budget - s₄.pushed.length) (s.engine.cached ++ [id]) (seen s₄) := by
    rw [hturn hready hlt, hpushed₄, hsame]
  -- the accepted drafts
  refine (emit_triple w f budget (s.engine.cached ++ [id]) (drafted.1.take n) s₄).weaken (fun _ h => h) ?_ ?_
  · rintro r s' ⟨hs', hcache, hplain⟩
    have hengine : s'.engine = s₄.engine := by rw [hs', engine_withSeen]
    refine ⟨(by rw [hengine]; exact hcached₄), (by rw [hengine]; exact hcontext₄), (by rw [hengine, hsome₄, hkeeps₃.2.2]),
      hcache.trans ((congrArg Seen.promptCache hsame).trans hcache₂), fun hready hlt => ?_⟩
    have h := hplain (hagrees hready.greedy).2 (hfits hlt)
    rw [← hturns hready hlt] at h
    cases r with
    | some ended => exact h
    | none =>
      obtain ⟨hpushed, hrest⟩ := h
      rw [htaken, hpushed₄, hpushed₂] at hpushed
      refine ⟨⟨hready.greedy, ?_, ?_, ?_, ?_⟩, by omega, ?_⟩
      · rw [hs', forced_withSeen]
        exact (hagrees hready.greedy).1
      · rw [hengine, hs', logits_withSeen]
        exact hlogits
      · rw [hengine, hids, List.length_append, List.length_cons, htaken, hready.cached, hpushed]
        omega
      · rw [hpushed]
        omega
      · rw [hrest, plainFrom, hengine, hids, List.append_assoc, List.singleton_append]
  · rintro stop s' ⟨hstop, hs', hcache, hplain⟩
    refine ⟨hcache.trans ((congrArg Seen.promptCache hsame).trans hcache₂), .inl ⟨hstop, ?_, fun ⟨hready, hlt⟩ => ?_⟩⟩
    · rw [Consistent, hs', engine_withSeen]
      exact hcached₄
    · rw [hturns hready hlt]
      exact hplain (hagrees hready.greedy).2 (hfits hlt)

/-- **Decoding** keeps the account of the cache, and is the loop without drafts. -/
theorem decode_triple (w : World) (job : Job m) (start budget : Nat) (hbudget : start + budget ≤ m.contextLength) (fuel : Nat) (s : Run m)
    (hcached : Consistent holds s.engine) (hcontext : s.engine.cached.length ≤ m.contextLength) :
    Triple (· = s) (decode w job budget fuel)
      (fun ended s' => Consistent holds s'.engine ∧ s'.promptCache = s.promptCache ∧ (Ready f start budget job s → budget - s.pushed.length ≤ fuel →
        plainFrom w f budget s = (.ok ended, seen s')))
      (Leaves holds (Ready f start budget job s ∧ budget - s.pushed.length ≤ fuel) (plainFrom w f budget s) s) := by
  induction fuel generalizing s with
  | zero =>
    refine Triple.pure fun s' hs' => ?_
    subst s'
    refine ⟨hcached, rfl, fun _ hfuel => ?_⟩
    rw [plainFrom, Nat.le_zero.mp hfuel]
    rfl
  | succ fuel ih =>
    refine Triple.get fun s' hs' => ?_
    subst s'
    refine Triple.ite (fun hlt => ?_) fun hfull => ?_
    · refine Triple.bind _ ((round_triple hlaw w job start budget hbudget s hcached hcontext).weaken (fun _ h => h) (fun _ _ h => h) ?_)
        fun r => ?_
      · rintro stop s' ⟨hcache, ⟨hstop, hconsistent, hplain⟩ | ⟨origin, fault, hstop, hblames⟩⟩
        · exact ⟨hcache, .inl ⟨hstop, hconsistent, fun h => hplain ⟨h.1, hlt⟩⟩⟩
        · exact ⟨hcache, .inr ⟨origin, fault, hstop, fun h => hblames ⟨h.1, hlt⟩⟩⟩
      · refine Triple.of_eq fun s₁ ⟨hcached₁, hcontext₁, hsome₁, hcache₁, hround⟩ => ?_
        cases r with
        | some ended =>
          refine Triple.pure fun s' hs' => ?_
          subst s'
          exact ⟨hcached₁, hcache₁, fun hready _ => hround hready hlt⟩
        | none =>
          refine (ih s₁ hcached₁ hcontext₁).weaken (fun _ h => h) ?_ ?_
          · rintro ended s' ⟨hconsistent, hcache, hplain⟩
            refine ⟨hconsistent, hcache.trans hcache₁, fun hready hfuel => ?_⟩
            obtain ⟨hready₁, hmore, heq⟩ := hround hready hlt
            rw [heq]
            exact hplain hready₁ (by omega)
          · rintro stop s' ⟨hcache, ⟨hstop, hconsistent, hplain⟩ | ⟨origin, fault, hstop, hblames⟩⟩
            · refine ⟨hcache.trans hcache₁, .inl ⟨hstop, hconsistent, fun ⟨hready, hfuel⟩ => ?_⟩⟩
              obtain ⟨hready₁, hmore, heq⟩ := hround hready hlt
              rw [heq]
              exact hplain ⟨hready₁, by omega⟩
            · refine ⟨hcache.trans hcache₁, .inr ⟨origin, fault, hstop, fun ⟨hready, hfuel⟩ => ?_⟩⟩
              obtain ⟨hready₁, hmore, heq⟩ := hround hready hlt
              obtain ⟨hpushed, hdrafter⟩ := hblames ⟨hready₁, by omega⟩
              exact ⟨heq ▸ hpushed, fun htotal => hsome₁ ▸ hdrafter htotal⟩
    · refine Triple.pure fun s' hs' => ?_
      subst s'
      refine ⟨hcached, rfl, fun hready _ => ?_⟩
      have hpushed := hready.pushed
      rw [plainFrom, show budget - s.pushed.length = 0 by omega]
      rfl

end

end Cuca.Local.Engine
