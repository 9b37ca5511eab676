import Cuca.Local.EngineRuns

/-!
# What a job sends

* `transcript` : what the parser makes of tokens, one after the other;
* `Quiet` : programs that push nothing and send nothing;
* `job_streams` : however a job ends, it sends what the parser makes of the tokens it pushed, and those are within its budget.
-/

namespace Cuca.Local.Engine
open Hoare
variable {m : Machine} {job : Job m}

def transcript (job : Job m) (pushed : List Token) : m.P × List (Except CucaError m.B) :=
  pushed.foldl (fun t id => ((m.parser.push t.1 id).1, t.2 ++ (m.parser.push t.1 id).2)) (job.parser, [])

/-- With what the parser holds at the end. -/
def whole (job : Job m) (pushed : List Token) : List (Except CucaError m.B) :=
  (transcript job pushed).2 ++ m.parser.finish (transcript job pushed).1

/-- What is pushed and not yet accounted for, and a property of what is sent. -/
structure Sends (job : Job m) (sent : Seen m → Prop) (o : Seen m) : Prop where
  bound : o.pushed.length ≤ budgetOf job
  no_eog : ∀ id ∈ o.pushed, m.isEog id = false
  usage : o.usage = none
  sent : sent o

/-- Between two tokens. -/
abbrev Told (job : Job m) : Seen m → Prop := Sends job fun o => (o.parser, o.delivered) = transcript job o.pushed

def Room (job : Job m) (o : Seen m) : Prop := Told job o ∧ o.pushed.length < budgetOf job

/-- Only where the consumer is gone, something may be missing. -/
def Left (job : Job m) (stop : Stop) (s : Run m) : Prop :=
  Told job (seen s) ∨ stop = .gone ∧ Sends job (fun o => o.delivered <+: whole job o.pushed) (seen s)

/-! ## Quiet programs -/

abbrev Quiet {α : Type} (job : Job m) (P : Seen m → Prop) (x : M m α) : Prop :=
  Triple (fun s => P (seen s)) x (fun _ s => P (seen s)) (Left job)

section
variable {α β : Type} {P : Seen m → Prop}

theorem Quiet.bind {x : M m α} {f : α → M m β} (h : Quiet job P x) (h' : ∀ a, Quiet job P (f a)) : Quiet job P (x >>= f) := Triple.bind _ h h'

theorem Quiet.get {f : Run m → M m α} (h : ∀ s, P (seen s) → Quiet job P (f s)) : Quiet job P (MonadState.get >>= f) :=
  Triple.get fun s hs => (h s hs).weaken (fun _ heq => heq ▸ hs) (fun _ _ h => h) fun _ _ h => h

variable (hP : ∀ o, P o → Told job o)
include hP

theorem Quiet.of_seen {x : M m α} (h : ∀ s, Triple (· = s) x (fun _ s' => seen s' = seen s) (fun _ s' => seen s' = seen s)) : Quiet job P x :=
  Triple.of_eq fun s hs => (h s).weaken (fun _ h => h) (fun _ _ h => h ▸ hs) fun _ _ h => .inl (hP _ (h ▸ hs))

theorem orThrow_quiet (origin : Origin) (result : Except Fault α) : Quiet job P (orThrow origin result) :=
  .of_seen hP fun s => (orThrow_triple origin result s).weaken (fun _ h => h) (fun _ _ h => h.1 ▸ rfl) fun _ _ h => h.1 ▸ rfl

theorem forward_quiet (tokens : List Token) (start : Nat) (want : Want) (tap : Hidden) : Quiet job P (forward tokens start want tap) :=
  .of_seen hP fun s => (forward_triple tokens start want tap s).weaken (fun _ h => h) (fun _ _ h => h.1 ▸ rfl) fun _ _ h => h.1

theorem observe_quiet (pos : Nat) (tokens : List Token) (rows : List m.F) : Quiet job P (observe pos tokens rows) :=
  .of_seen hP fun s => (observe_triple pos tokens rows s).weaken (fun _ h => h) (fun _ _ ⟨_, h, _⟩ => h ▸ rfl) fun _ _ h => h.1

theorem nextToken_quiet : Quiet job P (nextToken job) :=
  .of_seen hP fun s => (nextToken_triple job s).weaken (fun _ h => h) (fun _ _ h => h.1) fun _ _ h => h.1

theorem draft_quiet (w : World) (budget : Nat) (id : Token) : Quiet job P (draft w job budget id) := by
  refine .of_seen hP fun s => (draft_triple w job budget id s).weaken (fun _ h => h) ?_ ?_
  · rintro _ _ ⟨-, rng, rfl | rfl⟩
    · exact seen_setRng s rng
    · rfl
  · rintro _ _ ⟨-, -, rng, rfl⟩
    exact seen_setRng s rng

theorem verify_quiet (id : Token) (drafts : List Token) (dists : List m.Q) : Quiet job P (verify job id drafts dists) := by
  refine Quiet.get fun s _ => (forward_quiet hP _ _ _ _).bind fun pass => (orThrow_quiet hP _ _).bind fun rows => Quiet.get fun s hs => ?_
  refine Quiet.bind (Triple.set fun _ _ => (seen_setRng s _).symm ▸ hs) fun _ => (orThrow_quiet hP _ _).bind fun agreed => ?_
  refine Quiet.get fun s hs => Quiet.bind (Triple.set fun _ _ => hs) fun _ => (orThrow_quiet hP _ _).bind fun _ => ?_
  refine Quiet.bind (Triple.modify fun _ h => h) fun _ => Quiet.get fun s _ => ?_
  split
  · exact (observe_quiet hP _ _ _).bind fun _ => Quiet.bind (Triple.modify fun _ h => h) fun _ => Triple.pure fun _ h => h
  · exact Quiet.bind (Triple.modify fun _ h => h) fun _ => Triple.pure fun _ h => h

end

theorem Told.quiet {o : Seen m} (h : Told job o) (tick : Nat) (promptCache : Option (Nat × Nat)) : Told job { o with tick, promptCache } :=
  ⟨h.bound, h.no_eog, h.usage, h.sent⟩

theorem prefillStep_told (w : World) (checkpointAt : Option Nat) (pos : Nat) : Quiet job (Told job) (prefillStep w job checkpointAt pos) := by
  refine Quiet.get fun s _ => (forward_quiet (fun _ h => h) _ _ _ _).bind fun pass => ?_
  extract_lets rest
  have hrest (u : PUnit) : Quiet job (Told job) (rest u) := by
    refine Quiet.bind (Triple.modify fun _ h => h) fun _ => Quiet.get fun s _ => Triple.ite (fun _ => Triple.throw fun _ h => .inl h) fun _ => ?_
    exact Quiet.bind (Triple.modify fun _ h => h.quiet _ _) fun _ => Triple.pure fun _ h => h
  split
  · exact (observe_quiet (fun _ h => h) _ _ _).bind hrest
  · exact hrest ()

theorem prefill_told (w : World) (checkpointAt : Option Nat) (fuel pos : Nat) (logits : Option (List m.F)) :
    Quiet job (Told job) (prefill w job checkpointAt fuel pos logits) := by
  induction fuel generalizing pos logits with
  | zero => exact Triple.pure fun _ h => h
  | succ fuel ih => exact Triple.ite (fun _ => (prefillStep_told w checkpointAt pos).bind fun _ => ih _ _) fun _ => Triple.pure fun _ h => h

/-! ## Sending -/

theorem sendSeen_delivered (w : World) (items : List (Except CucaError m.B)) (o : Seen m) :
    (sendSeen w items o).1.usage = o.usage ∧ (sendSeen w items o).1.delivered <+: o.delivered ++ items ∧
      ((sendSeen w items o).2 = true → (sendSeen w items o).1.delivered = o.delivered ++ items) := by
  induction items generalizing o with
  | nil => simp [sendSeen]
  | cons item items ih =>
    rw [sendSeen]
    split
    · exact ⟨rfl, List.prefix_append _ _, fun h => by cases h⟩
    · rw [List.append_cons o.delivered item items]
      exact ih _

theorem pushSeen_told {w : World} {o o' : Seen m} {id : Token} {b : Bool} (ho : Room job o) (hid : ¬ m.isEog id = true)
    (hpush : pushSeen w o id = (o', b)) : (b = true → Told job o') ∧ Sends job (fun o => o.delivered <+: whole job o.pushed) o' := by
  have hkeeps := sendSeen_keeps w (m.parser.push o.parser id).2
    { o with parser := (m.parser.push o.parser id).1, pushed := o.pushed ++ [id] }
  have hsent := sendSeen_delivered w (m.parser.push o.parser id).2
    { o with parser := (m.parser.push o.parser id).1, pushed := o.pushed ++ [id] }
  rw [show sendSeen w _ _ = (o', b) from hpush] at hkeeps hsent
  obtain ⟨hpushed, hparser, -⟩ := hkeeps
  obtain ⟨husage, hcut, hall⟩ := hsent
  have hsends {sent : Seen m → Prop} (h : sent o') : Sends job sent o' := by
    refine ⟨?_, fun id' hmem => ?_, husage.trans ho.1.usage, h⟩
    · rw [hpushed, List.length_append]
      exact ho.2
    · rw [hpushed] at hmem
      rcases List.mem_append.mp hmem with hmem | hmem
      · exact ho.1.no_eog id' hmem
      · rw [List.mem_singleton.mp hmem, ← Bool.not_eq_true]
        exact hid
  have hstep : transcript job o'.pushed = (o'.parser, o.delivered ++ (m.parser.push o.parser id).2) := by
    rw [hpushed, hparser, transcript, List.foldl_append]
    exact congrArg (fun t => ((m.parser.push t.1 id).1, t.2 ++ (m.parser.push t.1 id).2)) ho.1.sent.symm
  refine ⟨fun hb => hsends (by rw [hstep, hall hb]), hsends ?_⟩
  rw [whole, hstep]
  exact hcut.trans (List.prefix_append _ _)

theorem pushToken_told (w : World) {id : Token} (hid : ¬ m.isEog id = true) :
    Triple (fun s => Room job (seen s)) (pushToken w id) (fun _ s => Told job (seen s)) (Left job) :=
  Triple.of_eq fun s hs => (pushToken_triple w id s).weaken (fun _ h => h) (fun _ _ h => (pushSeen_told hs hid h.1).1 rfl)
    fun _ _ h => .inr ⟨h.1, (pushSeen_told hs hid h.2.1).2⟩

theorem emit_told (w : World) (ds : List Token) :
    Triple (fun s => Room job (seen s)) (emit w (budgetOf job) ds) (fun _ s => Told job (seen s)) (Left job) := by
  induction ds with
  | nil => exact Triple.pure fun _ h => h.1
  | cons d ds ih =>
    refine Triple.ite (fun _ => Triple.pure fun _ h => h.1) fun hid => Triple.bind _ (pushToken_told w hid) fun _ => ?_
    refine Triple.get fun s hs => Triple.ite (fun _ => Triple.pure fun _ h => h ▸ hs) fun hne => ?_
    exact ih.weaken (fun _ h => h ▸ ⟨hs, Nat.lt_of_le_of_ne hs.bound hne⟩) (fun _ _ h => h) fun _ _ h => h

theorem round_told (w : World) :
    Triple (fun s => Room job (seen s)) (round w job (budgetOf job)) (fun _ s => Told job (seen s)) (Left job) := by
  have hroom (o : Seen m) (h : Room job o) : Told job o := h.1
  refine Triple.bind _ (nextToken_quiet hroom) fun id => Triple.ite (fun _ => Triple.pure fun _ h => h.1) fun hid => ?_
  refine Triple.bind _ (pushToken_told w hid) fun _ => Triple.get fun s hs => Triple.ite (fun _ => Triple.pure fun _ h => h ▸ hs) fun hne => ?_
  have hlt : s.pushed.length < budgetOf job := Nat.lt_of_le_of_ne hs.bound fun heq => hne (.inl heq)
  refine Triple.bind _ ((draft_quiet hroom w _ id).weaken (fun _ h => h ▸ ⟨hs, hlt⟩) (fun _ _ h => h) fun _ _ h => h) fun drafted => ?_
  exact Triple.bind _ (verify_quiet hroom id _ _) fun accepted => emit_told w _

theorem decode_told (w : World) (fuel : Nat) : Quiet job (Told job) (decode w job (budgetOf job) fuel) := by
  induction fuel with
  | zero => exact Triple.pure fun _ h => h
  | succ fuel ih =>
    refine Triple.get fun s hs => Triple.ite (fun hroom => ?_) fun _ => Triple.pure fun _ h => h ▸ hs
    refine Triple.bind _ ((round_told w).weaken (fun _ h => h ▸ ⟨hs, hroom⟩) (fun _ _ h => h) fun _ _ h => h) fun ended => ?_
    cases ended with
    | some ended => exact Triple.pure fun _ h => h
    | none => exact ih

/-! ## Reports -/

/-- What a job sends, by how it ends. -/
structure Streams (job : Job m) (r : Report m) : Prop where
  bound : r.pushed.length ≤ budgetOf job
  no_eog : ∀ id ∈ r.pushed, m.isEog id = false
  sent : match r.stop with
    | .ok _ => r.delivered = whole job r.pushed ∧ ∃ usage, r.usage = some usage ∧ usage.completionTokens = saturatingU32 r.pushed.length
    | .error .gone => r.delivered <+: whole job r.pushed ∧ r.usage = none
    | .error _ => r.usage = none ∧ ∃ last : Option CucaError, r.delivered = (transcript job r.pushed).2 ++ (last.map .error).toList

theorem finish_told (w : World) (ended : Ended) :
    Triple (fun s => Told job (seen s)) (finish w job) (fun _ s => Streams job (reportOf (.ok ended) s)) (Left job) := by
  refine Triple.get fun s hs => ?_
  have hwhole : (seen s).delivered ++ m.parser.finish s.parser = whole job s.pushed := by
    rw [whole, ← show _ = transcript job s.pushed from hs.sent]
    rfl
  have hpushed := (sendSeen_keeps w (m.parser.finish s.parser) (seen s)).1
  have hsent := sendSeen_delivered w (m.parser.finish s.parser) (seen s)
  rw [hwhole, ← show _ = s.pushed from hpushed] at hsent
  have hbound := hs.bound
  have hno_eog := hs.no_eog
  rw [← hpushed] at hbound hno_eog
  refine Triple.bind _ ((sendAll_triple w (m.parser.finish s.parser) s).weaken (fun _ h => h) (fun _ _ h => h.1) ?_) fun _ => ?_
  · rintro _ s' ⟨rfl, hsend, -⟩
    rw [hsend] at hbound hno_eog hsent
    exact .inr ⟨rfl, hbound, hno_eog, hsent.1.trans hs.usage, hsent.2.1⟩
  · refine Triple.modify fun s' hsend => ?_
    rw [hsend] at hbound hno_eog hsent
    exact ⟨hbound, hno_eog, hsent.2.2 rfl, _, rfl, rfl⟩

theorem generate_told (w : World) :
    Triple (fun s => Told job (seen s)) (generate w job) (fun ended s => Streams job (reportOf (.ok ended) s)) (Left job) := by
  refine Triple.ite (fun _ => Triple.throw fun _ h => .inl h) fun _ => Triple.bind (fun _ s => Told job (seen s)) ?_ fun kept => ?_
  · exact Quiet.get fun s hs => Quiet.bind (Triple.set fun _ _ => hs) fun _ => Triple.pure fun _ h => h
  refine Triple.bind _ (prefill_told w _ _ _ _) fun logits => Triple.bind _ (orThrow_quiet (fun _ h => h) _ _) fun _ => ?_
  refine Triple.bind (fun _ s => Told job (seen s)) (Triple.modify fun _ h => h.quiet _ _) fun _ => Triple.bind _ (decode_told w _) fun ended => ?_
  exact Triple.bind _ (finish_told w ended) fun _ => Triple.pure fun _ h => h

/-- **However a job ends**, it pushes at most as many tokens as it may, none that ends a generation, and sends what the parser makes of
these: all of it and the usage if it gets to its end, a beginning if the consumer leaves; else all so far, and an error at the end. -/
theorem job_streams (e : Engine m) (w : World) (job : Job m) : Streams job (run e w job).2 := by
  have hbegin : Told job (seen (begin e job)) := ⟨Nat.zero_le _, fun _ h => absurd h List.not_mem_nil, rfl, rfl⟩
  rcases hrun : (generate w job).run (begin e job) with ⟨ended, s⟩ | ⟨stop, s⟩
  · have hend := (generate_told w).run_ok hbegin hrun
    rw [run, hrun]
    exact hend
  · have hlast (h : Told job (seen s)) (stop : Stop) (hstop : stop ≠ .gone) (err : CucaError) :
        Streams job (reportOf (.error stop) (lastItem w s err)) := by
      have hdelivered : s.delivered = (transcript job s.pushed).2 := congrArg Prod.snd h.sent
      have hsent (last : Option CucaError) : s.delivered ++ (last.map .error).toList = (transcript job s.pushed).2 ++ (last.map .error).toList :=
        congrArg (· ++ _) hdelivered
      unfold lastItem
      split
      · refine ⟨h.bound, h.no_eog, ?_⟩
        cases stop <;> first | exact absurd rfl hstop | exact ⟨h.usage, none, (List.append_nil _).symm.trans (hsent none)⟩
      · refine ⟨h.bound, h.no_eog, ?_⟩
        cases stop <;> first | exact absurd rfl hstop | exact ⟨h.usage, some err, hsent (some err)⟩
    have hleft := (generate_told w).run_error hbegin hrun
    rw [run, hrun]
    rcases hleft with h | ⟨rfl, h⟩
    · cases stop with
      | gone =>
        have hdelivered : s.delivered = (transcript job s.pushed).2 := congrArg Prod.snd h.sent
        exact ⟨h.bound, h.no_eog, ⟨_, congrArg (· ++ _) hdelivered⟩, h.usage⟩
      | rejected => exact hlast h .rejected (fun h => by cases h) _
      | failed origin fault => cases fault <;> exact hlast h (.failed origin _) (fun h => by cases h) _
    · exact ⟨h.bound, h.no_eog, h.sent, h.usage⟩

end Cuca.Local.Engine
