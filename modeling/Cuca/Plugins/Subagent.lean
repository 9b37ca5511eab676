import Cuca.Lib.Assoc
import Cuca.Lib.Transition
import Cuca.Sse.Parser

/-!
# Child subagents

A child that is spawned gets an id and a channel of its own; the receiver waits in a registry until the child is collected. The runner
that executes a child is given its description only.

Preparing a worktree, the `Debug` text of a string, and the runner are parameters: a spawn comes with what `git worktree add` answers, a
child's end with what the runner returned.

* `SubagentPlugin.step` : spawns, the ends of children, and calls of `collect`, in any order;
* `Sound` : the bound, and who gets which result;
* `collected_sound` : in every run; the ids are distinct as long as the counter does not wrap around, and a result carries the id it is
  collected under where the runner puts it there.
-/

namespace Cuca.Subagent

structure WorktreeConfig where
  path : String
  branch : Option String
  deriving DecidableEq, Repr

structure SubagentSpec where
  name : String
  task : String
  toolScope : List String
  worktree : Option WorktreeConfig
  sessionId : Option String
  deriving DecidableEq, Repr

structure SubagentResult where
  subagentId : String
  summary : String
  worktreePath : Option String
  exitOk : Bool
  deriving DecidableEq, Repr

/-- Where a child is: its task is started after it is registered. -/
inductive ChildPhase where
  | registered
  | running
  /-- The result is in the channel, or was taken from it. -/
  | sent (result : SubagentResult)
  /-- The task ended without a result. -/
  | died
  deriving DecidableEq, Repr

/-- A child and its channel. -/
structure Child where
  id : String
  spec : SubagentSpec
  worktreePath : Option String
  phase : ChildPhase
  deriving DecidableEq, Repr

/-- Where a call of `collect` is; the child is the one whose receiver it took. -/
inductive CollectPhase where
  | idle
  | waiting (subagentId : String) (child : Nat)
  | returned (subagentId : String) (child : Option Nat) (result : Except PluginError SubagentResult)

/-- The plugin, its children, and the calls of `collect`. -/
structure SubagentPlugin (K : Type) where
  maxPending : Nat
  /-- The receivers, by the child they belong to. -/
  pending : AList fun _ : String => Nat
  spawnCounter : Nat
  spawnLog : List (Option String × Option String)
  children : List Child
  collects : K → CollectPhase

inductive Event (K : Type) where
  /-- `spawn_subagent`, up to the registration. -/
  | spawn (spec : SubagentSpec) (prepareWorktree : WorktreeConfig → Except PluginError String)
  /-- The rest of it: the log, and the task. -/
  | launch (child : Nat)
  | complete (child : Nat) (result : SubagentResult)
  | die (child : Nat)
  /-- `collect` takes the receiver. -/
  | collect (call : K) (subagentId : String)
  | receive (call : K)

/-- `MAX_SPAWN_LOG` -/
def maxSpawnLog : Nat := 4096

def subagentId (counter : Nat) : String := "sub-" ++ toString counter

/-- The checks of a spawn; returns the path of the worktree. -/
def prepared (spec : SubagentSpec) (prepareWorktree : WorktreeConfig → Except PluginError String) : Except PluginError (Option String) :=
  if (Sse.trim spec.task).isEmpty then .error (.validation "SubagentSpec.task" "task must be non-empty")
  else
    match spec.worktree with
    | none => .ok none
    | some config => (prepareWorktree config).map some

namespace SubagentPlugin
open Transition
variable {K : Type} [DecidableEq K] (debug : String → String)

def new (K : Type) (maxPending : Nat) : SubagentPlugin K := ⟨maxPending, ∅, 0, [], [], fun _ => .idle⟩

def withMaxPending (K : Type) (maxPending : Nat) : Except PluginError (SubagentPlugin K) :=
  if maxPending = 0 then .error (.validation "max_pending" "max_pending must be non-zero") else .ok (new K maxPending)

omit [DecidableEq K] in
/-- Registers a child; a full registry refuses it. -/
def register (s : SubagentPlugin K) (spec : SubagentSpec) (worktreePath : Option String) : Except PluginError String × SubagentPlugin K :=
  let stored := s.pending.entries.length
  let maxPending := s.maxPending
  if stored ≥ maxPending then
    (.error (.internal (s!"subagent registry full: {stored} of {maxPending} children awaiting collection; " ++
      "collect() finished children or raise max_pending")), s)
  else
    let id := subagentId s.spawnCounter
    (.ok id, { s with
      pending := s.pending.insert id s.children.length
      spawnCounter := (s.spawnCounter + 1) % 2 ^ 64
      children := s.children ++ [⟨id, spec, worktreePath, .registered⟩] })

def spawnSubagent (s : SubagentPlugin K) (spec : SubagentSpec) (prepareWorktree : WorktreeConfig → Except PluginError String) :
    Except PluginError String × SubagentPlugin K :=
  match prepared spec prepareWorktree with
  | .error e => (.error e, s)
  | .ok worktreePath => s.register spec worktreePath

def setPhase (s : SubagentPlugin K) (child : Nat) (phase : ChildPhase) : SubagentPlugin K :=
  { s with children := s.children.modify child fun c => { c with phase } }

def setCollect (s : SubagentPlugin K) (call : K) (phase : CollectPhase) : SubagentPlugin K :=
  { s with collects := Function.update s.collects call phase }

/-- What happens next; what is not possible changes nothing. -/
def step (s : SubagentPlugin K) : Event K → SubagentPlugin K
  | .spawn spec prepareWorktree => (s.spawnSubagent spec prepareWorktree).2
  | .launch n =>
    match s.children[n]? with
    | some ⟨_, spec, worktreePath, .registered⟩ =>
      { s.setPhase n .running with
        spawnLog := s.spawnLog.drop (s.spawnLog.length + 1 - maxSpawnLog) ++ [(spec.sessionId, worktreePath)] }
    | _ => s
  | .complete n result =>
    match s.children[n]? with
    | some ⟨_, _, _, .running⟩ => s.setPhase n (.sent result)
    | _ => s
  | .die n =>
    match s.children[n]? with
    | some ⟨_, _, _, .running⟩ => s.setPhase n .died
    | _ => s
  | .collect k id =>
    match s.collects k with
    | .idle =>
      match s.pending.lookup id with
      | none => s.setCollect k (.returned id none (.error (.notSupported ("unknown subagent id " ++ debug id))))
      | some n => { s.setCollect k (.waiting id n) with pending := s.pending.erase id }
    | _ => s
  | .receive k =>
    match s.collects k with
    | .waiting id n =>
      match s.children[n]? with
      | some ⟨_, _, _, .sent result⟩ => s.setCollect k (.returned id (some n) (.ok result))
      | some ⟨_, _, _, .died⟩ =>
        s.setCollect k (.returned id none (.error (.internal "subagent result channel closed before a result arrived")))
      | _ => s
    | _ => s

/-! ## What is wanted -/

/-- No more children are uncollected than allowed; a result goes to one call of `collect` at most, and this was for its child's id. -/
structure Sound (s : SubagentPlugin K) : Prop where
  bound : s.pending.entries.length ≤ s.maxPending
  once : ∀ k k' id id' n r r', s.collects k = .returned id (some n) (.ok r) → s.collects k' = .returned id' (some n) (.ok r') → k = k'
  own : ∀ k id n r, s.collects k = .returned id n (.ok r) → ∃ m child, n = some m ∧ s.children[m]? = some child ∧ child.id = id ∧
    child.phase = .sent r

def Distinct (s : SubagentPlugin K) : Prop := (s.children.map Child.id).Nodup

def Matched (s : SubagentPlugin K) : Prop := ∀ k id n r, s.collects k = .returned id n (.ok r) → r.subagentId = id

/-- The counter does not wrap around. -/
def InRange (s : SubagentPlugin K) : Event K → Prop
  | .spawn _ _ => s.children.length < 2 ^ 64
  | _ => True

/-- The runner puts the child's id into its result. -/
def Answers (s : SubagentPlugin K) : Event K → Prop
  | .complete n result => ∀ child, s.children[n]? = some child → result.subagentId = child.id
  | _ => True

/-! ## Receivers -/

/-- The receiver that a call of `collect` took: the id, and the child. -/
def took : CollectPhase → Option (String × Nat)
  | .waiting id n => some (id, n)
  | .returned id (some n) _ => some (id, n)
  | _ => none

/-- The receiver that the registry holds under an id, or that a call of `collect` took. -/
def holds (s : SubagentPlugin K) : String ⊕ K → Option (String × Nat)
  | .inl id => (s.pending.lookup id).map fun n => (id, n)
  | .inr k => took (s.collects k)

structure Inv (s : SubagentPlugin K) : Prop where
  bound : s.pending.entries.length ≤ s.maxPending
  /-- A child has one receiver. -/
  unique : ∀ h h' id id' n, s.holds h = some (id, n) → s.holds h' = some (id', n) → h = h'
  named : ∀ h id n, s.holds h = some (id, n) → ∃ child, s.children[n]? = some child ∧ child.id = id
  results : ∀ k id n r, s.collects k = .returned id n (.ok r) → ∃ m child, n = some m ∧ s.children[m]? = some child ∧ child.phase = .sent r
  counter : s.spawnCounter = s.children.length % 2 ^ 64
  ids : ∀ n child, s.children[n]? = some child → child.id = subagentId (n % 2 ^ 64)

omit [DecidableEq K] in
theorem Inv.sound {s : SubagentPlugin K} (hs : Inv s) : Sound s := by
  refine ⟨hs.bound, fun k k' id id' n r r' h h' => ?_, fun k id n r h => ?_⟩
  · exact Sum.inr.inj (hs.unique (.inr k) (.inr k') id id' n (by rw [holds, h]; rfl) (by rw [holds, h']; rfl))
  · obtain ⟨m, child, rfl, hchild, hphase⟩ := hs.results k id n r h
    obtain ⟨child', hchild', hid⟩ := hs.named (.inr k) id m (by rw [holds, h]; rfl)
    obtain rfl := Option.some.inj (hchild.symm.trans hchild')
    exact ⟨m, child, rfl, hchild, hid, hphase⟩

theorem subagentId_injective {a b : Nat} (h : subagentId a = subagentId b) : a = b := by
  have hlist := congrArg String.toList h
  unfold subagentId at hlist
  rw [String.toList_append, String.toList_append] at hlist
  have hdigits : Nat.toDigits 10 a = Nat.toDigits 10 b := by
    simpa [toString, Nat.repr] using List.append_cancel_left hlist
  rw [← @Nat.ofDigitChars_ten_toDigits a, hdigits, Nat.ofDigitChars_ten_toDigits]

/-! ## Steps -/

omit [DecidableEq K] in
theorem getElem?_setPhase (s : SubagentPlugin K) (n : Nat) (phase : ChildPhase) (m : Nat) :
    (s.setPhase n phase).children[m]? = if n = m then s.children[m]?.map fun c => { c with phase } else s.children[m]? := by
  show (s.children.modify n _)[m]? = _
  rw [List.getElem?_modify]
  split
  · rfl
  · cases s.children[m]? <;> rfl

omit [DecidableEq K] in
theorem Inv.setPhase {s s' : SubagentPlugin K} (hs : Inv s) {n : Nat} {child : Child} (hchild : s.children[n]? = some child)
    (hunsent : ∀ r, child.phase ≠ .sent r) (phase : ChildPhase) (hchildren : s'.children = (s.setPhase n phase).children)
    (hpending : s'.pending = s.pending) (hmax : s'.maxPending = s.maxPending) (hcollects : s'.collects = s.collects)
    (hcounter : s'.spawnCounter = s.spawnCounter) : Inv s' := by
  have hholds : s'.holds = s.holds := by
    funext h
    cases h with
    | inl id => rw [holds, holds, hpending]
    | inr k => rw [holds, holds, hcollects]
  have hkept (m : Nat) (c : Child) (h : s.children[m]? = some c) : ∃ c', s'.children[m]? = some c' ∧ c'.id = c.id := by
    rw [hchildren, getElem?_setPhase, h]
    split
    · exact ⟨_, rfl, rfl⟩
    · exact ⟨c, rfl, rfl⟩
  refine ⟨(by rw [hpending, hmax]; exact hs.bound), (by rw [hholds]; exact hs.unique), fun h id m hh => ?_, fun k id m r h => ?_, ?_, ?_⟩
  · rw [hholds] at hh
    obtain ⟨c, hc, hid⟩ := hs.named h id m hh
    obtain ⟨c', hc', hid'⟩ := hkept m c hc
    exact ⟨c', hc', hid'.trans hid⟩
  · rw [hcollects] at h
    obtain ⟨m', c, rfl, hc, hphase⟩ := hs.results k id m r h
    refine ⟨m', c, rfl, ?_, hphase⟩
    rw [hchildren, getElem?_setPhase, if_neg, hc]
    rintro rfl
    obtain rfl := Option.some.inj (hchild.symm.trans hc)
    exact hunsent r hphase
  · rw [hcounter, hchildren, hs.counter]
    show _ = (s.children.modify n _).length % 2 ^ 64
    rw [List.length_modify]
  · intro m c hc
    rw [hchildren, getElem?_setPhase] at hc
    split at hc
    · obtain ⟨c', hc', rfl⟩ := Option.map_eq_some_iff.mp hc
      exact hs.ids m c' hc'
    · exact hs.ids m c hc

omit [DecidableEq K] in
theorem Inv.pass {s s' : SubagentPlugin K} (hs : Inv s) (hchildren : s'.children = s.children) (hcounter : s'.spawnCounter = s.spawnCounter)
    (hbound : s'.pending.entries.length ≤ s'.maxPending) (before : String ⊕ K → String ⊕ K)
    (hholds : ∀ h x, s'.holds h = some x → s.holds (before h) = some x)
    (hinj : ∀ h h' x x', s'.holds h = some x → s'.holds h' = some x' → before h = before h' → h = h')
    (hresults : ∀ k id n r, s'.collects k = .returned id n (.ok r) → s.collects k = .returned id n (.ok r) ∨
      ∃ m child, n = some m ∧ s.children[m]? = some child ∧ child.phase = .sent r) : Inv s' := by
  refine ⟨hbound, fun h h' id id' n hh hh' => ?_, fun h id n hh => ?_, fun k id n r h => ?_, ?_, ?_⟩
  · exact hinj h h' _ _ hh hh' (hs.unique _ _ id id' n (hholds h _ hh) (hholds h' _ hh'))
  · rw [hchildren]
    exact hs.named _ id n (hholds h _ hh)
  · rw [hchildren]
    rcases hresults k id n r h with hold | hnew
    · exact hs.results k id n r hold
    · exact hnew
  · rw [hcounter, hchildren]
    exact hs.counter
  · rw [hchildren]
    exact hs.ids

omit [DecidableEq K] in
theorem Inv.register {s : SubagentPlugin K} (hs : Inv s) (spec : SubagentSpec) (worktreePath : Option String) :
    Inv (s.register spec worktreePath).2 := by
  rw [SubagentPlugin.register]
  split
  · exact hs
  · rename_i hroom
    -- the new child's receiver is the only one that is new
    have hholds (h : String ⊕ K) (id : String) (n : Nat) (hh : ({ s with
        pending := s.pending.insert (subagentId s.spawnCounter) s.children.length
        spawnCounter := (s.spawnCounter + 1) % 2 ^ 64
        children := s.children ++ [⟨subagentId s.spawnCounter, spec, worktreePath, .registered⟩] } : SubagentPlugin K).holds h = some (id, n)) :
        (h = .inl (subagentId s.spawnCounter) ∧ id = subagentId s.spawnCounter ∧ n = s.children.length) ∨
          (s.holds h = some (id, n) ∧ n < s.children.length) := by
      have hold (hh : s.holds h = some (id, n)) : s.holds h = some (id, n) ∧ n < s.children.length := by
        obtain ⟨child, hchild, -⟩ := hs.named h id n hh
        exact ⟨hh, (List.getElem?_eq_some_iff.mp hchild).1⟩
      cases h with
      | inr k => exact .inr (hold hh)
      | inl id' =>
        rw [holds] at hh
        by_cases hid : id' = subagentId s.spawnCounter
        · subst hid
          rw [AList.lookup_insert] at hh
          obtain ⟨rfl, rfl⟩ := Prod.mk.inj (Option.some.inj hh)
          exact .inl ⟨rfl, rfl, rfl⟩
        · rw [AList.lookup_insert_ne hid] at hh
          exact .inr (hold hh)
    refine ⟨?_, fun h h' id id' n hh hh' => ?_, fun h id n hh => ?_, fun k id n r h => ?_, ?_, fun n child hchild => ?_⟩
    · show (_ :: s.pending.entries.kerase _).length ≤ s.maxPending
      have hle := (List.kerase_sublist (subagentId s.spawnCounter) s.pending.entries).length_le
      rw [List.length_cons]
      omega
    · rcases hholds h id n hh with ⟨rfl, -, rfl⟩ | ⟨hold, hlt⟩ <;> rcases hholds h' id' _ hh' with ⟨rfl, -, heq⟩ | ⟨hold', hlt'⟩
      · rfl
      · omega
      · omega
      · exact hs.unique h h' id id' n hold hold'
    · rcases hholds h id n hh with ⟨rfl, rfl, rfl⟩ | ⟨hold, hlt⟩
      · exact ⟨_, List.getElem?_concat_length, rfl⟩
      · obtain ⟨child, hchild, hid⟩ := hs.named h id n hold
        exact ⟨child, (List.getElem?_append_left hlt).trans hchild, hid⟩
    · obtain ⟨m, child, rfl, hchild, hphase⟩ := hs.results k id n r h
      exact ⟨m, child, rfl, (List.getElem?_append_left (List.getElem?_eq_some_iff.mp hchild).1).trans hchild, hphase⟩
    · show (s.spawnCounter + 1) % 2 ^ 64 = (s.children ++ [_]).length % 2 ^ 64
      rw [List.length_append, List.length_singleton, hs.counter]
      omega
    · change (s.children ++ [_])[n]? = some child at hchild
      by_cases hlt : n < s.children.length
      · rw [List.getElem?_append_left hlt] at hchild
        exact hs.ids n child hchild
      · have hmost := (List.getElem?_eq_some_iff.mp hchild).1
        rw [List.length_append, List.length_singleton] at hmost
        obtain rfl : n = s.children.length := by omega
        rw [List.getElem?_concat_length] at hchild
        rw [← Option.some.inj hchild, ← hs.counter]

theorem Inv.setCollect {s : SubagentPlugin K} (hs : Inv s) {k : K} {phase : CollectPhase}
    (htook : ∀ x, took phase = some x → took (s.collects k) = some x)
    (hresult : ∀ id n r, phase = .returned id n (.ok r) → ∃ m child, n = some m ∧ s.children[m]? = some child ∧ child.phase = .sent r) :
    Inv (s.setCollect k phase) := by
  refine hs.pass rfl rfl hs.bound (fun h => h) (fun h x hh => ?_) (fun _ _ _ _ _ _ h => h) fun k' id n r h => ?_
  · cases h with
    | inl id => exact hh
    | inr k' =>
      change took (Function.update s.collects k phase k') = some x at hh
      by_cases hk : k' = k
      · subst hk
        rw [Function.update_self] at hh
        exact htook x hh
      · rw [Function.update_of_ne hk] at hh
        exact hh
  · change Function.update s.collects k phase k' = _ at h
    by_cases hk : k' = k
    · subst hk
      rw [Function.update_self] at h
      exact .inr (hresult id n r h)
    · rw [Function.update_of_ne hk] at h
      exact .inl h

theorem Inv.collect {s : SubagentPlugin K} (hs : Inv s) {k : K} {id : String} {n : Nat}
    (hlookup : s.pending.lookup id = some n) : Inv { s.setCollect k (.waiting id n) with pending := s.pending.erase id } := by
  have hinl (id' : String) : (SubagentPlugin.holds { s.setCollect k (.waiting id n) with pending := s.pending.erase id }) (.inl id') =
      if id' = id then none else s.holds (.inl id') := by
    show ((s.pending.erase id).lookup id').map _ = _
    split
    · rename_i hid
      rw [hid, AList.lookup_erase]
      rfl
    · rename_i hid
      rw [AList.lookup_erase_ne hid]
      rfl
  have hinr (k' : K) : (SubagentPlugin.holds { s.setCollect k (.waiting id n) with pending := s.pending.erase id }) (.inr k') =
      if k' = k then some (id, n) else s.holds (.inr k') := by
    show took (Function.update s.collects k _ k') = _
    split
    · rename_i hk
      rw [hk, Function.update_self]
      rfl
    · rename_i hk
      rw [Function.update_of_ne hk]
      rfl
  refine hs.pass rfl rfl ?_ (fun h => if h = .inr k then .inl id else h) (fun h x hh => ?_) (fun h h' x x' hh hh' heq => ?_)
    fun k' id' n' r h => ?_
  · exact (List.kerase_sublist id s.pending.entries).length_le.trans hs.bound
  · cases h with
    | inl id' =>
      rw [hinl] at hh
      split at hh
      · exact nomatch hh
      · exact hh
    | inr k' =>
      rw [hinr] at hh
      split at hh
      · rename_i hk
        rw [if_pos (by rw [hk]), holds, hlookup]
        exact hh
      · rename_i hk
        rw [if_neg fun h => hk (Sum.inr.inj h)]
        exact hh
  · have hgone : ∀ y, SubagentPlugin.holds { s.setCollect k (.waiting id n) with pending := s.pending.erase id } (.inl id) ≠ some y := by
      intro y
      rw [hinl, if_pos rfl]
      exact nofun
    split at heq <;> split at heq
    · rename_i h₁ h₂
      rw [h₁, h₂]
    · exact absurd (heq ▸ hh') (hgone _)
    · exact absurd (heq ▸ hh) (hgone _)
    · exact heq
  · change Function.update s.collects k _ k' = _ at h
    by_cases hk : k' = k
    · rw [hk, Function.update_self] at h
      cases h
    · rw [Function.update_of_ne hk] at h
      exact .inl h

theorem Inv.step {s : SubagentPlugin K} (hs : Inv s) (event : Event K) : Inv (s.step debug event) := by
  cases event with
  | spawn spec prepareWorktree =>
    rw [SubagentPlugin.step, spawnSubagent]
    split
    · exact hs
    · exact hs.register spec _
  | launch n =>
    rw [SubagentPlugin.step]
    split
    · rename_i hchild
      exact hs.setPhase hchild (fun _ => nofun) .running rfl rfl rfl rfl rfl
    · exact hs
  | complete n result =>
    rw [SubagentPlugin.step]
    split
    · rename_i hchild
      exact hs.setPhase hchild (fun _ => nofun) (.sent result) rfl rfl rfl rfl rfl
    · exact hs
  | die n =>
    rw [SubagentPlugin.step]
    split
    · rename_i hchild
      exact hs.setPhase hchild (fun _ => nofun) .died rfl rfl rfl rfl rfl
    · exact hs
  | collect k id =>
    rw [SubagentPlugin.step]
    split
    · split
      · exact hs.setCollect (fun _ => nofun) fun _ _ _ h => nomatch h
      · rename_i n hlookup
        exact hs.collect hlookup
    · exact hs
  | receive k =>
    rw [SubagentPlugin.step]
    split
    · rename_i id n hwaiting
      split
      · rename_i result hchild
        refine hs.setCollect (fun x hx => ?_) fun id' n' r h => ?_
        · rw [hwaiting]
          exact hx
        · obtain ⟨-, rfl, hr⟩ := CollectPhase.returned.inj h
          exact ⟨n, _, rfl, hchild, by rw [Except.ok.inj hr]⟩
      · exact hs.setCollect (fun _ => nofun) fun _ _ _ h => nomatch h
      · exact hs
    · exact hs

omit [DecidableEq K] in
theorem inv_new (maxPending : Nat) : Inv (new K maxPending) := by
  refine ⟨Nat.zero_le _, fun h h' id id' n hh => ?_, fun h id n hh => ?_, fun _ _ _ _ h => (nomatch h), rfl, fun _ _ h => (nomatch h)⟩
  · cases h <;> exact nomatch hh
  · cases h <;> exact nomatch hh

/-! ## Distinct ids -/

omit [DecidableEq K] in
theorem Inv.distinct {s : SubagentPlugin K} (hs : Inv s) (hrange : s.children.length ≤ 2 ^ 64) : Distinct s := by
  refine List.nodup_iff_injective_get.mpr fun i j hij => ?_
  have hid (i : Fin (s.children.map Child.id).length) : (s.children.map Child.id).get i = subagentId i.val := by
    have hlt : i.val < s.children.length := by simpa using i.isLt
    have h := hs.ids i.val _ (List.getElem?_eq_getElem hlt)
    rw [Nat.mod_eq_of_lt (Nat.lt_of_lt_of_le hlt hrange)] at h
    rw [List.get_eq_getElem, List.getElem_map]
    exact h
  rw [hid, hid] at hij
  exact Fin.ext (subagentId_injective hij)

theorem length_step {s : SubagentPlugin K} {event : Event K} (h : s.InRange event) (hrange : s.children.length ≤ 2 ^ 64) :
    (s.step debug event).children.length ≤ 2 ^ 64 := by
  cases event with
  | spawn spec prepareWorktree =>
    rw [SubagentPlugin.step, spawnSubagent]
    split
    · exact hrange
    · rw [SubagentPlugin.register]
      split
      · exact hrange
      · show (s.children ++ [_]).length ≤ _
        rw [List.length_append]
        exact h
  | launch n | complete n _ | die n =>
    rw [SubagentPlugin.step]
    split
    · show (s.children.modify _ _).length ≤ _
      rw [List.length_modify]
      exact hrange
    · exact hrange
  | collect | receive =>
    rw [SubagentPlugin.step]
    split
    · split <;> exact hrange
    · exact hrange

/-! ## Matching ids -/

def Carries (s : SubagentPlugin K) : Prop :=
  ∀ (n : Nat) child r, s.children[n]? = some child → child.phase = .sent r → r.subagentId = child.id

omit [DecidableEq K] in
theorem Carries.setPhase {s s' : SubagentPlugin K} (hs : Carries s) (n : Nat) (phase : ChildPhase)
    (hchildren : s'.children = (s.setPhase n phase).children)
    (hphase : ∀ child r, s.children[n]? = some child → phase = .sent r → r.subagentId = child.id) : Carries s' := by
  intro m child r hchild hsent
  rw [hchildren, getElem?_setPhase] at hchild
  split at hchild
  · rename_i heq
    obtain ⟨child', hchild', rfl⟩ := Option.map_eq_some_iff.mp hchild
    exact hphase child' r (heq ▸ hchild') hsent
  · exact hs m child r hchild hsent

theorem Carries.step {s : SubagentPlugin K} (hs : Carries s) {event : Event K} (h : s.Answers event) : Carries (s.step debug event) := by
  cases event with
  | spawn spec prepareWorktree =>
    rw [SubagentPlugin.step, spawnSubagent]
    split
    · exact hs
    · rw [SubagentPlugin.register]
      split
      · exact hs
      · intro n child r hchild hsent
        rcases List.mem_append.mp (List.mem_of_getElem? hchild) with hold | hnew
        · obtain ⟨m, hm⟩ := List.mem_iff_getElem?.mp hold
          exact hs m child r hm hsent
        · rw [List.mem_singleton.mp hnew] at hsent
          exact nomatch hsent
  | launch n =>
    rw [SubagentPlugin.step]
    split
    · exact hs.setPhase n .running rfl fun _ _ _ => nofun
    · exact hs
  | complete n result =>
    rw [SubagentPlugin.step]
    split
    · refine hs.setPhase n (.sent result) rfl fun child r hchild hsent => ?_
      rw [← ChildPhase.sent.inj hsent]
      exact h child hchild
    · exact hs
  | die n =>
    rw [SubagentPlugin.step]
    split
    · exact hs.setPhase n .died rfl fun _ _ _ => nofun
    · exact hs
  | collect | receive =>
    rw [SubagentPlugin.step]
    split
    · split <;> exact hs
    · exact hs

omit [DecidableEq K] in
theorem Inv.matched {s : SubagentPlugin K} (hs : Inv s) (hcarries : Carries s) : Matched s := by
  intro k id n r h
  obtain ⟨m, child, -, hchild, hid, hphase⟩ := hs.sound.own k id n r h
  rw [hcarries m child r hchild hphase, hid]

/-- **Children and their results**: in every run, no more than the bound are uncollected, and a result goes to one call of `collect` at
most, which asked for its child. The ids are distinct up to `2 ^ 64` spawns, and the results carry them where the runner says so. -/
theorem collected_sound (K : Type) [DecidableEq K] (debug : String → String) (maxPending : Nat) (events : List (Event K)) :
    Throughout (step debug) Sound (new K maxPending) events ∧
      (Along (step debug) InRange (new K maxPending) events → Throughout (step debug) Distinct (new K maxPending) events) ∧
      (Along (step debug) Answers (new K maxPending) events → Throughout (step debug) Matched (new K maxPending) events) := by
  have hinv : Throughout (step debug) Inv (new K maxPending) events :=
    throughout_invariant (I := Inv) (fun s event hs => Inv.step debug hs event) (inv_new maxPending) events
  refine ⟨hinv.imp fun s hs => hs.sound, fun hrange => ?_, fun hanswers => ?_⟩
  · refine (throughout_induction (I := fun s => Inv s ∧ s.children.length ≤ 2 ^ 64) (fun s event h hs => ?_)
      ⟨inv_new maxPending, Nat.zero_le _⟩ hrange).imp fun s hs => hs.1.distinct hs.2
    exact ⟨Inv.step debug hs.1 event, length_step debug h hs.2⟩
  · refine (throughout_induction (I := fun s => Inv s ∧ Carries s) (fun s event h hs => ?_)
      ⟨inv_new maxPending, fun _ _ _ h => (nomatch h)⟩ hanswers).imp fun s hs => hs.1.matched hs.2
    exact ⟨Inv.step debug hs.1 event, hs.2.step debug h⟩

/-- One child, whose runner answers with an id. -/
def oneChild (id : String) : List (Event Unit) :=
  [.spawn ⟨"reviewer", "review", [], none, none⟩ fun config => .ok config.path, .launch 0, .complete 0 ⟨id, "done", none, true⟩,
    .collect () (subagentId 0), .receive ()]

theorem oneChild_matched : Throughout (step id) Matched (new Unit 1024) (oneChild (subagentId 0)) := by
  refine (collected_sound Unit id 1024 (oneChild (subagentId 0))).2.2 ⟨trivial, trivial, fun child hchild => ?_, trivial, trivial, trivial⟩
  obtain rfl : (⟨subagentId 0, ⟨"reviewer", "review", [], none, none⟩, none, .running⟩ : Child) = child := Option.some.inj hchild
  rfl

theorem oneChild_unmatched : ¬ ∀ (debug : String → String) (maxPending : Nat) (events : List (Event Unit)),
    Throughout (step debug) Matched (new Unit maxPending) events := by
  intro h
  have hlast := (h id 1024 (oneChild "reviewer-7")).last
  have hid := hlast () (subagentId 0) (some 0) ⟨"reviewer-7", "done", none, true⟩ rfl
  exact absurd hid (by decide)

end SubagentPlugin

end Cuca.Subagent
