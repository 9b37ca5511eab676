import Cuca.Services.Orchestrator

/-!
# Orchestrated turns

What may happen in a turn depends on what has happened: `Allowed`. The state keeps just enough of the history, `Upholds`.

* `Sound` : what holds of the history of a turn;
* `keeps_step`, `keeps_pollNext` : a turn of the loop, and a poll, add only what is allowed;
* `orchestrated_sound` : every turn is sound, whatever the tiers, the validator and the clock do.
-/

namespace Cuca.Orchestrator
open History

/-! ## Histories -/

/-- The message a rejection adds. -/
def rejection : Event → Option UnifiedMessage
  | .validated block (.error reason) => some (rejectionMessage block reason)
  | _ => none

def rejections (history : List Event) : List UnifiedMessage := history.filterMap rejection

def executedFor (cause : Cause) : Event → Bool
  | .executed other _ _ => other = cause
  | _ => false

/-- A rejection, or an execution that did not start. -/
def Refuses : Event → Prop
  | .validated _ (.error _) => True
  | .executed _ _ (some _) => True
  | _ => False

def Failed (history : List Event) : Prop :=
  ∃ earlier refusal e, history = earlier ++ [refusal, .answered (.ready (some (.error e)))] ∧ Refuses refusal

/-- How often the slow tier may be executed. -/
def limit : Cause → Nat
  | .rejection => fallbackAttempts
  | .latency => 1

/-- What holds of the history of a turn. -/
structure Sound (request : UnifiedRequest) (history : List Event) : Prop where
  /-- A block that is yielded has just been accepted. -/
  accepted : ∀ before block after, history = before ++ .answered (.ready (some (.ok block))) :: after →
    ∃ earlier, before = earlier ++ [.validated block (.ok ())]
  /-- A rejected block is not yielded, nor is another in its place. -/
  rejected : ∀ before block reason after, history = before ++ .validated block (.error reason) :: after →
    ∀ other, after.head? ≠ some (.answered (.ready (some (.ok other))))
  executions : history.countP (executedFor .rejection) ≤ fallbackAttempts ∧ history.countP (executedFor .latency) ≤ 1
  /-- Each execution has the original messages, then those of the rejections before it. -/
  messages : ∀ before cause sent failure after, history = before ++ .executed cause sent failure :: after →
    sent = extended request (rejections before)
  /-- After an execution the fast tier is not polled. -/
  fastFirst : ∀ before cause sent failure after, history = before ++ .executed cause sent failure :: after →
    ∀ answer, .polled .fast answer ∉ after
  /-- After the error of a rejection or of an execution there is nothing but the end. -/
  ended : ∀ before after, history = before ++ after → Failed before → ∀ event ∈ after, event = .answered (.ready none)

/-- What may follow a history. -/
def Allowed (request : UnifiedRequest) (before : List Event) (event : Event) : Prop :=
  (Since Failed before → event = .answered (.ready none)) ∧
    match event with
    | .polled .fast _ => ∀ cause, before.countP (executedFor cause) = 0
    | .executed cause sent _ => sent = extended request (rejections before) ∧ before.countP (executedFor cause) < limit cause
    | .answered (.ready (some (.ok block))) => before.getLast? = some (.validated block (.ok ()))
    | _ => True

theorem sound_of_every {request : UnifiedRequest} {history : List Event} (h : Every (Allowed request) history) :
    Sound request history where
  accepted before block after heq := by
    have hlast : before.getLast? = some (.validated block (.ok ())) := (h before _ after heq).2
    exact List.getLast?_eq_some_iff.mp hlast
  rejected before block reason after heq other hhead := by
    obtain ⟨rest, hrest⟩ := List.head?_eq_some_iff.mp hhead
    rw [hrest, List.append_cons] at heq
    have hlast : (before ++ [Event.validated block (.error reason)]).getLast? = some (.validated other (.ok ())) :=
      (h _ _ rest heq).2
    rw [List.getLast?_concat, Option.some.injEq, Event.validated.injEq] at hlast
    exact nomatch hlast.2
  executions := by
    have hcause : ∀ cause, history.countP (executedFor cause) ≤ limit cause := by
      intro cause
      apply countP_le_of_every
      intro before event after heq hevent
      have hallowed := h before event after heq
      cases event with
      | executed other sent failure =>
        have hother : other = cause := of_decide_eq_true hevent
        exact hother ▸ hallowed.2.2
      | polled tier answer => exact nomatch hevent
      | validated block verdict => exact nomatch hevent
      | answered answer => exact nomatch hevent
    exact ⟨hcause .rejection, hcause .latency⟩
  messages before cause sent failure after heq := (h before _ after heq).2.1
  fastFirst before cause sent failure after heq answer hmem := by
    obtain ⟨between, later, hafter⟩ := List.append_of_mem hmem
    rw [hafter, ← List.cons_append, ← List.append_assoc] at heq
    have hnone : (before ++ .executed cause sent failure :: between).countP (executedFor cause) = 0 := (h _ _ later heq).2 cause
    rw [List.countP_eq_zero] at hnone
    exact hnone (.executed cause sent failure) (by simp) (decide_eq_true rfl)
  ended before after heq hfailed event hmem := by
    obtain ⟨between, later, hafter⟩ := List.append_of_mem hmem
    rw [hafter, ← List.append_assoc] at heq
    exact (h _ event later heq).1 ⟨before, List.prefix_append before between, hfailed⟩

/-! ## What the state keeps of the history -/

/-- The turn goes on with this request and these attempts. -/
structure Working (request : UnifiedRequest) (history : List Event) (working : UnifiedRequest) (left : Nat) : Prop where
  live : ¬ Since Failed history
  messages : working = extended request (rejections history)
  budget : history.countP (executedFor .rejection) + left = fallbackAttempts

def Upholds {S : Type} (request : UnifiedRequest) (history : List Event) : OrchestratorState S → Prop
  | .drafting _ _ working left =>
    Working request history working left ∧ ∀ cause, history.countP (executedFor cause) = 0
  | .slow _ working left => Working request history working left
  | .done => True

section
variable {S W : Type} {o : Services S W} {request working : UnifiedRequest} {history : List Event} {left : Nat}

theorem failed_concat_iff {event : Event} : Failed (history ++ [event]) ↔
    (∃ e, event = .answered (.ready (some (.error e)))) ∧ ∃ refusal, history.getLast? = some refusal ∧ Refuses refusal := by
  constructor
  · rintro ⟨earlier, refusal, e, heq, hrefuses⟩
    rw [List.append_cons earlier refusal] at heq
    obtain ⟨hhistory, hevent⟩ := List.append_inj' heq rfl
    exact ⟨⟨e, List.singleton_inj.mp hevent⟩, refusal, by rw [hhistory, List.getLast?_concat], hrefuses⟩
  · rintro ⟨⟨e, hevent⟩, refusal, hlast, hrefuses⟩
    obtain ⟨earlier, hearlier⟩ := List.getLast?_eq_some_iff.mp hlast
    exact ⟨earlier, refusal, e, by rw [hearlier, hevent, List.append_assoc]; rfl, hrefuses⟩

def Quiet (event : Event) : Prop := rejection event = none ∧ ∀ cause, executedFor cause event = false

theorem Working.concat {event : Event} (h : Working request history working left) (hquiet : Quiet event)
    (hlive : ¬ Failed (history ++ [event])) : Working request (history ++ [event]) working left where
  live hsince := (since_concat_iff.mp hsince).elim h.live hlive
  messages := by
    rw [rejections, List.filterMap_append, List.filterMap_cons_none hquiet.1]
    exact h.messages.trans (by rw [rejections]; simp)
  budget := by
    rw [List.countP_append, List.countP_singleton, hquiet.2]
    exact h.budget

theorem upholds_concat {event : Event} {s : OrchestratorState S} (h : Upholds request history s) (hquiet : Quiet event)
    (hlive : ¬ Failed (history ++ [event])) : Upholds request (history ++ [event]) s := by
  cases s with
  | drafting inner started working left =>
    refine ⟨h.1.concat hquiet hlive, fun cause => ?_⟩
    rw [List.countP_append, List.countP_singleton, hquiet.2, h.2 cause]
    rfl
  | slow inner working left => exact h.concat hquiet hlive
  | done => trivial

theorem not_failed {event : Event} (h : ∀ e, event ≠ .answered (.ready (some (.error e)))) : ¬ Failed (history ++ [event]) :=
  fun hfailed => (failed_concat_iff.mp hfailed).1.elim h

def Keeps (request : UnifiedRequest) (history : List Event) (r : Outcome S W) : Prop :=
  Every (Allowed request) (history ++ r.events) ∧ Upholds request (history ++ r.events) r.state

theorem keeps_after {event : Event} {r : Outcome S W} (h : Keeps request (history ++ [event]) r) :
    Keeps request history (r.after event) := by
  rw [Keeps, List.append_assoc] at h
  exact h

/-! ## The exits -/

variable (hevery : Every (Allowed request) history)
include hevery

theorem keeps_end (w : W) : Keeps request history (OrchestratorStream.finish (S := S) (.ready none) .done w) :=
  ⟨every_concat hevery ⟨fun _ => rfl, trivial⟩, trivial⟩

theorem keeps_failure (hlive : ¬ Since Failed history) (e : CucaError) (w : W) :
    Keeps request history (OrchestratorStream.finish (S := S) (.ready (some (.error e))) .done w) :=
  ⟨every_concat hevery ⟨fun hsince => absurd hsince hlive, trivial⟩, trivial⟩

theorem keeps_pass {answer : Answer} {s : OrchestratorState S} (w : W) (hlive : ¬ Since Failed history)
    (hupholds : Upholds request history s) (hfailed : ¬ Failed (history ++ [.answered answer]))
    (hblock : ∀ block, answer = .ready (some (.ok block)) → history.getLast? = some (.validated block (.ok ()))) :
    Keeps request history (OrchestratorStream.finish answer s w) := by
  refine ⟨every_concat hevery ⟨fun hsince => absurd hsince hlive, ?_⟩, upholds_concat hupholds ⟨rfl, fun _ => rfl⟩ hfailed⟩
  rcases answer with _ | _ | e | block
  · trivial
  · trivial
  · trivial
  · exact hblock block rfl

theorem keeps_execute {cause : Cause} (w : W) (hlive : ¬ Since Failed history)
    (hmessages : working = extended request (rejections history)) (hlimit : history.countP (executedFor cause) < limit cause)
    (hbudget : history.countP (executedFor .rejection) + (if cause = .rejection then 1 else 0) + left = fallbackAttempts) :
    Keeps request history (OrchestratorStream.execute o cause working left w) := by
  have hallowed : ∀ failure, Every (Allowed request) (history ++ [.executed cause working failure]) :=
    fun failure => every_concat hevery ⟨fun hsince => absurd hsince hlive, hmessages, hlimit⟩
  have hstill : ∀ failure, ¬ Since Failed (history ++ [.executed cause working failure]) := fun failure hsince =>
    (since_concat_iff.mp hsince).elim hlive (not_failed fun e h => nomatch h)
  unfold OrchestratorStream.execute
  rcases o.executeSlow working w with ⟨e | slow, w⟩
  · exact keeps_after (keeps_failure (hallowed (some e)) (hstill (some e)) e w)
  · refine ⟨hallowed none, hstill none, ?_, ?_⟩
    · rw [rejections, List.filterMap_append, hmessages]
      exact congrArg (extended request) (List.append_nil _).symm
    · rw [List.countP_append, List.countP_singleton]
      show _ + (if decide (cause = .rejection) = true then 1 else 0) + left = fallbackAttempts
      simpa using hbudget

theorem keeps_reject {block : MessageContentBlock} {reason : String} (provider : ProviderEndpoint) (w : W)
    (hworking : Working request history working left) :
    Keeps request history ((OrchestratorStream.reject o provider block reason working left w).after
      (.validated block (.error reason))) := by
  have hlive : ¬ Since Failed (history ++ [.validated block (.error reason)]) := fun hsince =>
    (since_concat_iff.mp hsince).elim hworking.live (not_failed fun e h => nomatch h)
  have hallowed : Every (Allowed request) (history ++ [.validated block (.error reason)]) :=
    every_concat hevery ⟨fun hsince => absurd hsince hworking.live, trivial⟩
  have hcount : (history ++ [Event.validated block (.error reason)]).countP (executedFor .rejection) =
      history.countP (executedFor .rejection) := by
    rw [List.countP_append, List.countP_singleton]
    rfl
  have hbudget := hworking.budget
  apply keeps_after
  unfold OrchestratorStream.reject
  split_ifs with hleft
  · apply keeps_execute hallowed _ hlive
    · rw [hworking.messages, rejections, rejections, List.filterMap_append, extended, extended, List.append_assoc]
      rfl
    · rw [hcount]
      show history.countP (executedFor .rejection) < fallbackAttempts
      omega
    · rw [hcount, if_pos rfl]
      omega
  · exact keeps_failure hallowed hlive _ w

theorem keeps_judge {block : MessageContentBlock} {s : OrchestratorState S} (provider : ProviderEndpoint) (w : W)
    (hworking : Working request history working left) (hupholds : Upholds request history s) :
    Keeps request history (OrchestratorStream.judge o provider block s working left w) := by
  unfold OrchestratorStream.judge
  rcases o.validate block w with ⟨reason | ⟨⟩, w⟩
  · exact keeps_reject hevery provider w hworking
  · have hlive : ¬ Since Failed (history ++ [.validated block (.ok ())]) := fun hsince =>
      (since_concat_iff.mp hsince).elim hworking.live (not_failed fun e h => nomatch h)
    apply keeps_after
    refine keeps_pass (every_concat hevery ⟨fun hsince => absurd hsince hworking.live, trivial⟩) w hlive
      (upholds_concat hupholds ⟨rfl, fun _ => rfl⟩ (not_failed fun e h => nomatch h)) (not_failed fun e h => nomatch h) ?_
    intro other hother
    cases hother
    exact List.getLast?_concat

end

/-! ## The run -/

section
variable {S W : Type} {o : Services S W} {request : UnifiedRequest}

theorem not_failed_of_polled {history : List Event} {tier : Tier} {answer : Answer} (event : Event)
    (hlast : history.getLast? = some (.polled tier answer)) : ¬ Failed (history ++ [event]) := by
  intro hfailed
  obtain ⟨_, refusal, hrefusal, hrefuses⟩ := failed_concat_iff.mp hfailed
  rw [hlast, Option.some.injEq] at hrefusal
  rw [← hrefusal] at hrefuses
  exact hrefuses

theorem keeps_drafted {history : List Event} {inner : S} {started : Nat} {working : UnifiedRequest} {left : Nat} {answer : Answer}
    (w : W) (hevery : Every (Allowed request) history)
    (hupholds : Upholds request history (OrchestratorState.drafting inner started working left))
    (hlast : history.getLast? = some (.polled .fast answer)) :
    Keeps request history (OrchestratorStream.drafted o inner started working left w answer) := by
  rcases answer with _ | _ | e | block
  · unfold OrchestratorStream.drafted
    split_ifs
    · apply keeps_execute hevery _ hupholds.1.live hupholds.1.messages
      · rw [hupholds.2]
        exact Nat.one_pos
      · exact hupholds.1.budget
    · exact keeps_pass hevery w hupholds.1.live hupholds (not_failed_of_polled _ hlast) fun _ h => nomatch h
  · exact keeps_end hevery w
  · exact keeps_pass hevery w hupholds.1.live hupholds (not_failed_of_polled _ hlast) fun _ h => nomatch h
  · exact keeps_judge hevery _ w hupholds.1 hupholds

theorem keeps_served {history : List Event} {inner : S} {working : UnifiedRequest} {left : Nat} {answer : Answer} (w : W)
    (hevery : Every (Allowed request) history) (hupholds : Upholds request history (OrchestratorState.slow inner working left))
    (hlast : history.getLast? = some (.polled .slow answer)) :
    Keeps request history (OrchestratorStream.served o inner working left w answer) := by
  rcases answer with _ | _ | e | block
  · exact keeps_pass hevery w hupholds.live hupholds (not_failed_of_polled _ hlast) fun _ h => nomatch h
  · exact keeps_end hevery w
  · exact keeps_pass hevery w hupholds.live hupholds (not_failed_of_polled _ hlast) fun _ h => nomatch h
  · exact keeps_judge hevery _ w hupholds hupholds

theorem keeps_step {history : List Event} (s : OrchestratorState S) (w : W) (hevery : Every (Allowed request) history)
    (hupholds : Upholds request history s) : Keeps request history (OrchestratorStream.step o s w) := by
  have hpolled : ∀ (t : OrchestratorState S) (tier : Tier) (answer : Answer), Upholds request history t →
      Upholds request (history ++ [.polled tier answer]) t := fun t tier answer h =>
    upholds_concat h ⟨rfl, fun _ => rfl⟩ (not_failed fun e h => nomatch h)
  cases s with
  | drafting inner started working left =>
    apply keeps_after
    apply keeps_drafted
    · exact every_concat hevery ⟨fun hsince => absurd hsince hupholds.1.live, hupholds.2⟩
    · exact hpolled (.drafting _ started working left) .fast _ hupholds
    · exact List.getLast?_concat
  | slow inner working left =>
    apply keeps_after
    apply keeps_served
    · exact every_concat hevery ⟨fun hsince => absurd hsince hupholds.live, trivial⟩
    · exact hpolled (.slow _ working left) .slow _ hupholds
    · exact List.getLast?_concat
  | done => exact keeps_end hevery w

theorem keeps_pollNext (s : OrchestratorState S) (w : W) : ∀ history : List Event, Upholds request history s →
    Every (Allowed request) history → Every (Allowed request) (history ++ (OrchestratorStream.pollNext o s w).1) ∧
      Upholds request (history ++ (OrchestratorStream.pollNext o s w).1) (OrchestratorStream.pollNext o s w).2.1 := by
  induction s, w using OrchestratorStream.pollNext.induct o with
  | case1 s w hloops _ _ _ ih =>
    intro history hupholds hevery
    obtain ⟨hallowed, hkept⟩ := keeps_step (o := o) s w hevery hupholds
    rw [OrchestratorStream.pollNext, dif_pos hloops]
    dsimp only
    rw [← List.append_assoc]
    exact ih _ hkept hallowed
  | case2 s w hloops =>
    intro history hupholds hevery
    rw [OrchestratorStream.pollNext, dif_neg hloops]
    exact keeps_step s w hevery hupholds

end

/-- **Every turn is sound**, whatever the tiers, the validator and the clock do, and however it is polled. -/
theorem orchestrated_sound {S W : Type} (o : Services S W) (fast : S) (started : Nat) (request : UnifiedRequest) (w : W)
    (changes : List (W → W)) :
    Sound request (record (OrchestratorStream.pollNext o) (OrchestratorStream.start fast started request) w changes) := by
  have hstart : Upholds request [] (OrchestratorStream.start fast started request) := by
    refine ⟨⟨?_, ?_, rfl⟩, fun _ => rfl⟩
    · rintro ⟨early, hearly, earlier, refusal, e, heq, _⟩
      rw [heq, List.prefix_nil] at hearly
      exact absurd hearly (by simp)
    · exact congrArg (fun messages => { request with messages := messages }) (List.append_nil request.messages).symm
  have hevery := every_record (fun history s w hI h => keeps_pollNext (o := o) s w history hI h) w changes hstart every_nil
  exact sound_of_every hevery

end Cuca.Orchestrator
