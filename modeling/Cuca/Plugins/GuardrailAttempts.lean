import Cuca.Lib.Strikes
import Cuca.Plugins.Guardrails

/-!
# The attempts of the guardrails

The counters of failing calls are a map and a queue. The reference is one queue of the ids that have failed and have not passed since, each with
its failures.

* `Refines` : the map and the queue are those of a reference queue, and `Refines.fail`, `Refines.clear` : they stay so;
* `JsonGuardrailPlugin.Conforms` : throughout a conversation, and every failing call is answered with the attempt of the reference;
* `JsonGuardrailPlugin.conforms_iff` : so it is unless an attempt does not fit into 32 bits.
-/

namespace Cuca.Guardrails
open Strikes

/-- The map and the queue of a reference queue. -/
structure Refines (a : AttemptCounters) (q : List (Strike String)) : Prop where
  order : a.order = keys q
  counts : ∀ id, a.counts.lookup id = count q id

namespace AttemptCounters

theorem evict_eq (counts : AList fun _ : String => Nat) {q : List (Strike String)} (hfew : q.length ≤ maxTrackedCalls) :
    (evict counts (keys q)).order = keys (Strikes.evict maxTrackedCalls q) ∧
      ((∀ id, counts.lookup id = count q id) → (keys q).Nodup →
        ∀ id, (evict counts (keys q)).counts.lookup id = count (Strikes.evict maxTrackedCalls q) id) := by
  cases q with
  | nil =>
    refine ⟨rfl, fun h _ => ?_⟩
    exact h
  | cons s q =>
    have hkeys : keys (s :: q) = s.key :: keys q := rfl
    have hlength : (keys q).length = q.length := List.length_map _
    rw [hkeys, evict, List.length_cons, hlength]
    unfold Strikes.evict
    rw [List.length_cons] at hfew ⊢
    by_cases hfull : q.length + 1 ≥ maxTrackedCalls
    · have hstop (counts : AList fun _ : String => Nat) : evict counts (keys q) = ⟨counts, keys q⟩ := by
        cases hq : keys q with
        | nil => rfl
        | cons id order =>
          have hless : (id :: order).length < maxTrackedCalls := by
            rw [← hq, hlength]
            omega
          rw [evict, if_neg (Nat.not_le.mpr hless)]
      rw [if_pos hfull, if_neg (Nat.not_lt.mpr hfull), hstop]
      refine ⟨rfl, fun hcounts hnodup id => ?_⟩
      have hfresh : s.key ∉ keys q := (List.nodup_cons.mp hnodup).1
      by_cases hid : id = s.key
      · rw [hid, AList.lookup_erase, List.tail_cons]
        exact (count_eq_none.mpr hfresh).symm
      · rw [AList.lookup_erase_ne hid, hcounts, List.tail_cons]
        unfold count
        rw [List.find?_cons_of_neg (by simpa using Ne.symm hid)]
    · rw [if_neg hfull, if_pos (Nat.lt_of_not_ge hfull)]
      exact ⟨rfl, fun hcounts _ => hcounts⟩

end AttemptCounters

namespace Refines
variable {a : AttemptCounters} {q : List (Strike String)} {events : List (Event String)}

theorem tracked (h : Refines a q) (id : String) : id ∈ a.counts ↔ id ∈ keys q := by
  rw [← count_isSome, ← h.counts, AList.lookup_isSome]

theorem answer (h : Refines a q) (id : String) : (a.fail id).2 = attempt q id % 2 ^ 32 := by
  unfold AttemptCounters.fail attempt
  rw [h.counts]
  cases count q id <;> rfl

theorem fail (h : Refines a q) (hsound : Sound maxTrackedCalls events q) {id : String} (hfits : attempt q id < 2 ^ 32) (now : Nat) :
    Refines (a.fail id).1 (Strikes.fail maxTrackedCalls now q id) := by
  by_cases hin : id ∈ keys q
  · obtain ⟨c, hc⟩ := Option.isSome_iff_exists.mp (count_isSome.mpr hin)
    have hattempt : attempt q id = c + 1 := by
      unfold attempt
      rw [hc]
      rfl
    unfold AttemptCounters.fail
    rw [h.counts, hc]
    refine ⟨?_, fun id' => ?_⟩
    · unfold Strikes.fail
      rw [if_pos hin, keys_again]
      exact h.order
    · rw [count_fail_of_mem hin]
      dsimp only
      split
      · rw [‹id' = id›, AList.lookup_insert, hattempt, Nat.mod_eq_of_lt (hattempt ▸ hfits)]
      · rw [AList.lookup_insert_ne ‹_›, h.counts]
  · obtain ⟨horder, hcounts⟩ := AttemptCounters.evict_eq a.counts hsound.few
    unfold AttemptCounters.fail
    rw [h.counts, count_eq_none.mpr hin, h.order]
    refine ⟨?_, fun id' => ?_⟩
    · unfold Strikes.fail
      rw [if_neg hin]
      dsimp only
      rw [horder]
      unfold keys
      rw [List.map_append]
      rfl
    · rw [count_fail_of_not_mem hin]
      dsimp only
      split
      · rw [‹id' = id›, AList.lookup_insert]
      · rw [AList.lookup_insert_ne ‹_›, hcounts h.counts hsound.once]

theorem clear (h : Refines a q) (id : String) : Refines (a.clear id) (pass q id) := by
  unfold AttemptCounters.clear
  by_cases hin : id ∈ a.counts
  · rw [if_pos hin]
    refine ⟨?_, fun id' => ?_⟩
    · rw [keys_pass, h.order]
    · rw [count_pass]
      split
      · rw [‹id' = id›, AList.lookup_erase]
      · rw [AList.lookup_erase_ne ‹_›, h.counts]
  · have hsame : pass q id = q := by
      refine List.filter_eq_self.mpr fun s hs => ?_
      have hne : s.key ≠ id := fun heq => hin ((h.tracked id).mpr (heq ▸ List.mem_map_of_mem hs))
      simpa using hne
    rw [if_neg hin, hsame]
    exact h

end Refines

namespace JsonGuardrailPlugin
variable (parseJson : String → Option Value) (p : JsonGuardrailPlugin)

/-- Whether the call of a block fails. -/
def event : MessageContentBlock → Option (Event String)
  | .toolCall id name arguments =>
    match p.validate name arguments with
    | .ok () => some (.passes id)
    | .error _ => some (.fails id)
  | _ => none

def after (blocks : List MessageContentBlock) : JsonGuardrailPlugin := blocks.foldl (fun p block => (p.onStreamChunk parseJson block).1) p

def reference (blocks : List MessageContentBlock) : List (Strike String) := queue maxTrackedCalls (blocks.filterMap p.event)

def errorFor (attempt : Nat) : String := if attempt ≤ p.maxAttempts then "schema_validation_failed" else "guardrail_exhausted"

/-- The queue lists the ids of the map, each once and in the order of the reference, with the reference's counts. -/
structure Fifo (blocks : List MessageContentBlock) (a : AttemptCounters) : Prop where
  order : a.order = keys (p.reference blocks)
  counts : ∀ id, a.counts.lookup id = count (p.reference blocks) id
  tracked : ∀ id, id ∈ a.order ↔ id ∈ a.counts
  once : a.order.Nodup
  few : a.order.length ≤ maxTrackedCalls
  sound : Sound maxTrackedCalls (blocks.filterMap p.event) (p.reference blocks)

/-- Throughout a conversation the attempts are those of the reference, a failing call is answered with the next attempt, and a valid call is
forgotten. -/
structure Conforms (blocks : List MessageContentBlock) : Prop where
  fifo : ∀ n ≤ blocks.length, p.Fifo (blocks.take n) (p.after parseJson (blocks.take n)).attempts
  fails : ∀ n id name arguments issues, blocks[n]? = some (.toolCall id name arguments) → p.validate name arguments = .error issues →
    ((p.after parseJson (blocks.take n)).onStreamChunk parseJson (.toolCall id name arguments)).1.lastRetryEvent =
        some (name, p.errorFor (attempt (p.reference (blocks.take n)) id), attempt (p.reference (blocks.take n)) id) ∧
      ((p.after parseJson (blocks.take n)).onStreamChunk parseJson (.toolCall id name arguments)).2 =
        .toolResult id (errorOutput (p.errorFor (attempt (p.reference (blocks.take n)) id)) name issues)
  passes : ∀ n id name arguments, blocks[n]? = some (.toolCall id name arguments) → p.validate name arguments = .ok () →
    id ∉ (p.after parseJson (blocks.take (n + 1))).attempts.counts ∧ id ∉ (p.after parseJson (blocks.take (n + 1))).attempts.order

/-- No call fails for the 2³²nd time while it is in the queue. -/
def Fits (blocks : List MessageContentBlock) : Prop :=
  ∀ n id name arguments issues, blocks[n]? = some (.toolCall id name arguments) → p.validate name arguments = .error issues →
    attempt (p.reference (blocks.take n)) id < 2 ^ 32

variable {parseJson} {p} {blocks : List MessageContentBlock}

theorem after_snoc (block : MessageContentBlock) :
    p.after parseJson (blocks ++ [block]) = ((p.after parseJson blocks).onStreamChunk parseJson block).1 := by
  unfold after
  rw [List.foldl_append]
  rfl

theorem after_keeps (blocks : List MessageContentBlock) :
    (p.after parseJson blocks).schemas = p.schemas ∧ (p.after parseJson blocks).maxAttempts = p.maxAttempts := by
  induction blocks using List.reverseRecOn with
  | nil => exact ⟨rfl, rfl⟩
  | append_singleton blocks block ih =>
    obtain ⟨hschemas, hmax, _⟩ := onStreamChunk_keeps parseJson (p.after parseJson blocks) block
    rw [after_snoc]
    exact ⟨hschemas.trans ih.1, hmax.trans ih.2⟩

theorem validate_after (blocks : List MessageContentBlock) (name : String) (arguments : Value) :
    (p.after parseJson blocks).validate name arguments = p.validate name arguments := by
  unfold validate
  rw [(after_keeps blocks).1]

theorem reference_snoc (block : MessageContentBlock) : p.reference (blocks ++ [block]) =
    (p.event block).elim (p.reference blocks) (step maxTrackedCalls (blocks.filterMap p.event).length (p.reference blocks)) := by
  unfold reference
  rw [List.filterMap_append, List.filterMap_cons, List.filterMap_nil]
  cases p.event block with
  | none =>
    rw [List.append_nil]
    rfl
  | some e => exact queue_snoc maxTrackedCalls (blocks.filterMap p.event) e

/-- **One block**: the counters stay those of the reference, if the attempt fits. -/
theorem refines_snoc {block : MessageContentBlock} (h : Refines (p.after parseJson blocks).attempts (p.reference blocks))
    (hfits : ∀ id name arguments issues, block = .toolCall id name arguments → p.validate name arguments = .error issues →
      attempt (p.reference blocks) id < 2 ^ 32) :
    Refines (p.after parseJson (blocks ++ [block])).attempts (p.reference (blocks ++ [block])) := by
  rw [after_snoc, reference_snoc]
  cases block with
  | toolCall id name arguments =>
    rw [onStreamChunk, validate_after, event]
    rcases hvalid : p.validate name arguments with issues | _
    · exact h.fail (queue_sound (by decide) _) (hfits id name arguments issues rfl hvalid) _
    · exact h.clear id
  | text text =>
    rw [onStreamChunk]
    split
    · split
      · exact h
      · split <;> exact h
    · exact h
  | imageBase64 | thinking | toolResult => exact h

theorem answered (blocks : List MessageContentBlock) {id name : String} {arguments : Value} {issues : List String}
    (h : p.validate name arguments = .error issues) :
    ((p.after parseJson blocks).onStreamChunk parseJson (.toolCall id name arguments)).1.lastRetryEvent =
        some (name, p.errorFor ((p.after parseJson blocks).attempts.fail id).2, ((p.after parseJson blocks).attempts.fail id).2) ∧
      ((p.after parseJson blocks).onStreamChunk parseJson (.toolCall id name arguments)).2 =
        .toolResult id (errorOutput (p.errorFor ((p.after parseJson blocks).attempts.fail id).2) name issues) := by
  rw [onStreamChunk, validate_after, h]
  unfold errorFor
  have hmax : (p.after parseJson blocks).maxAttempts = p.maxAttempts := (after_keeps blocks).2
  rw [← hmax]
  exact ⟨rfl, rfl⟩

theorem take_snoc {n : Nat} {block : MessageContentBlock} (h : blocks[n]? = some block) : blocks.take (n + 1) = blocks.take n ++ [block] := by
  rw [List.take_add_one, h]
  rfl

/-- **Throughout a conversation** whose attempts fit, the counters are those of the reference. -/
theorem refines_take (hnew : p.attempts = ⟨∅, []⟩) (hfits : p.Fits blocks) (n : Nat) :
    Refines (p.after parseJson (blocks.take n)).attempts (p.reference (blocks.take n)) := by
  induction n with
  | zero =>
    rw [List.take_zero]
    refine ⟨congrArg AttemptCounters.order hnew, fun id => ?_⟩
    rw [show p.after parseJson [] = p from rfl, hnew]
    rfl
  | succ n ih =>
    rcases hblock : blocks[n]? with _ | block
    · rw [List.take_add_one, hblock]
      simpa using ih
    · rw [take_snoc hblock]
      refine refines_snoc ih fun id name arguments issues heq hvalid => ?_
      exact hfits n id name arguments issues (hblock.trans (congrArg some heq)) hvalid

theorem fifo_of_refines {a : AttemptCounters} (h : Refines a (p.reference blocks)) : p.Fifo blocks a := by
  have hsound : Sound maxTrackedCalls (blocks.filterMap p.event) (p.reference blocks) := queue_sound (by decide) _
  refine ⟨h.order, h.counts, fun id => ?_, ?_, ?_, hsound⟩
  · rw [h.order, h.tracked]
  · rw [h.order]
    exact hsound.once
  · rw [h.order]
    exact (List.length_map _).trans_le hsound.few

theorem Fifo.refines {a : AttemptCounters} (h : p.Fifo blocks a) : Refines a (p.reference blocks) := ⟨h.order, h.counts⟩

theorem Conforms.fits (h : Conforms parseJson p blocks) : p.Fits blocks := by
  intro n id name arguments issues hblock hvalid
  have hlt : n < blocks.length := (List.getElem?_eq_some_iff.mp hblock).1
  have hevent := (h.fails n id name arguments issues hblock hvalid).1
  rw [(answered (blocks.take n) hvalid).1, Option.some.injEq, Prod.mk.injEq, Prod.mk.injEq] at hevent
  have hanswer := hevent.2.2
  rw [(h.fifo n (Nat.le_of_lt hlt)).refines.answer id] at hanswer
  rw [← hanswer]
  exact Nat.mod_lt _ (by decide)

/-- **The attempts are those of the queue of failing ids** exactly in the conversations in which no id fails for the 2³²nd time while it is
tracked. -/
theorem conforms_iff (parseJson : String → Option Value) {validatorFor : Value → Except String Validator} {schemas : AList fun _ : String => Value}
    {maxAttempts : Nat} {p : JsonGuardrailPlugin} (hcompile : compile validatorFor schemas maxAttempts = .ok p)
    (blocks : List MessageContentBlock) : Conforms parseJson p blocks ↔ p.Fits blocks := by
  have hnew : p.attempts = ⟨∅, []⟩ := by
    unfold compile at hcompile
    simp only [bind, Except.bind] at hcompile
    split at hcompile
    · cases hcompile
    · cases hcompile
      rfl
  refine ⟨Conforms.fits, fun hfits => ⟨fun n _ => fifo_of_refines (refines_take hnew hfits n), ?_, ?_⟩⟩
  · intro n id name arguments issues hblock hvalid
    have h : Refines (p.after parseJson (blocks.take n)).attempts (p.reference (blocks.take n)) := refines_take hnew hfits n
    have hanswer := h.answer id
    rw [Nat.mod_eq_of_lt (hfits n id name arguments issues hblock hvalid)] at hanswer
    rw [← hanswer]
    exact answered (blocks.take n) hvalid
  · intro n id name arguments hblock hvalid
    have h : Refines (p.after parseJson (blocks.take (n + 1))).attempts (p.reference (blocks.take (n + 1))) := refines_take hnew hfits (n + 1)
    have hgone : id ∉ keys (p.reference (blocks.take (n + 1))) := by
      rw [take_snoc hblock, reference_snoc, event, hvalid]
      dsimp only [Option.elim_some, step]
      rw [keys_pass]
      simp
    rw [h.tracked, h.order]
    exact ⟨hgone, hgone⟩

def strictSchemas : AList fun _ : String => Value := (∅ : AList fun _ : String => Value).insert "get_weather" .null

def unsatisfied (_ : Value) : Except String Validator := .ok fun _ => ["\"city\" is a required property"]

theorem compile_strict : compile unsatisfied strictSchemas 1 = .ok strict := rfl

theorem attempt_repeated {id name : String} {arguments : Value} {issues : List String} (h : p.validate name arguments = .error issues) (n : Nat) :
    attempt (p.reference (List.replicate n (.toolCall id name arguments))) id = n + 1 := by
  have hevent : p.event (.toolCall id name arguments) = some (.fails id) := by
    rw [event, h]
  unfold reference
  rw [List.filterMap_replicate_of_some hevent, attempt_replicate]

theorem conforms_twice : Conforms (fun _ => none) strict (List.replicate 2 (.toolCall "call-1" "get_weather" (.object []))) := by
  refine (conforms_iff (fun _ => none) compile_strict _).mpr fun n id name arguments issues hblock hvalid => ?_
  have hcall : .toolCall id name arguments = MessageContentBlock.toolCall "call-1" "get_weather" (.object []) :=
    List.eq_of_mem_replicate (List.mem_of_getElem? hblock)
  rw [List.take_replicate, ← hcall, attempt_repeated hvalid]
  omega

theorem strict_overflows : ¬ ∀ (validatorFor : Value → Except String Validator) (schemas : AList fun _ : String => Value) (maxAttempts : Nat)
    (p : JsonGuardrailPlugin), compile validatorFor schemas maxAttempts = .ok p →
      Conforms (fun _ => none) p (List.replicate (2 ^ 32) (.toolCall "call-1" "get_weather" (.object []))) := by
  intro h
  have hfits := (h unsatisfied strictSchemas 1 strict compile_strict).fits
  obtain ⟨issues, hvalid⟩ := strict_fails (.object [])
  generalize hN : 2 ^ 32 = N at hfits
  have hlast : N - 1 < N := by omega
  have hblock := hfits (N - 1) "call-1" "get_weather" (.object []) issues (by rw [List.getElem?_replicate, if_pos hlast]) hvalid
  rw [List.take_replicate, attempt_repeated hvalid, Nat.min_eq_left (Nat.sub_le N 1)] at hblock
  omega

end JsonGuardrailPlugin

end Cuca.Guardrails
