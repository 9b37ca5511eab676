import Cuca.Plugins.Subagent

/-!
# What a spawn leaves behind

A spawn may add a worktree, and then registers the child, logs it and starts its task. Threads share the plugin; what `git` does is apart from it,
so that a spawn is taken at once.

`git` is a parameter; a command that succeeds adds its worktree, one that fails adds none.

* `World`, `spawnSubagent` : the plugin and the repository, and a whole spawn;
* `Clean` : a spawn that is refused leaves nothing behind, one that is accepted does all of its work once;
* `Reached` : worlds after spawns and other events;
* `clean_iff` : a spawn leaks a worktree exactly where the registry is full;
* `worktrees_accounted` : without leaks, every worktree is that of a child.
-/

namespace Cuca.Subagent

/-- What a command answers. -/
inductive GitStatus where
  | cannotRun (e : String)
  | failed (status : String)
  | success
  deriving DecidableEq

/-- The commands, and the worktrees of a repository. -/
structure Git (R : Type) where
  run : R → List String → GitStatus × R
  worktrees : R → List String

def worktreeArgs (config : WorktreeConfig) : List String :=
  ["worktree", "add"] ++ (config.branch.map fun branch => ["-b", branch]).getD [] ++ [config.path]

/-- What `git worktree add` does to the worktrees. -/
structure Git.Lawful {R : Type} (git : Git R) : Prop where
  adds : ∀ r config, (git.run r (worktreeArgs config)).1 = .success →
    git.worktrees (git.run r (worktreeArgs config)).2 = git.worktrees r ++ [config.path]
  keeps : ∀ r config, (git.run r (worktreeArgs config)).1 ≠ .success → git.worktrees (git.run r (worktreeArgs config)).2 = git.worktrees r

structure World (K R : Type) where
  plugin : SubagentPlugin K
  repo : R

variable {K R : Type} [DecidableEq K] (git : Git R) (debug : String → String)

/-- Runs `git worktree add`. -/
def prepareWorktree (repo : R) (config : WorktreeConfig) : Except PluginError String :=
  match (git.run repo (worktreeArgs config)).1 with
  | .cannotRun e => .error (.notSupported ("cannot run `git worktree add` (is cwd inside a git repo?): " ++ e))
  | .failed status => .error (.notSupported ("`git worktree add` failed with " ++ status))
  | .success => .ok config.path

namespace World

/-- The registration, and what follows it. -/
def register (w : World K R) (spec : SubagentSpec) (worktreePath : Option String) : Except PluginError String × World K R :=
  match w.plugin.register spec worktreePath with
  | (.error e, s) => (.error e, { w with plugin := s })
  | (.ok id, s) => (.ok id, { w with plugin := s.step debug (.launch w.plugin.children.length) })

def spawnSubagent (w : World K R) (spec : SubagentSpec) : Except PluginError String × World K R :=
  if (Sse.trim spec.task).isEmpty then (.error (.validation "SubagentSpec.task" "task must be non-empty"), w)
  else
    match spec.worktree with
    | none => w.register debug spec none
    | some config =>
      let prepared : World K R := { w with repo := (git.run w.repo (worktreeArgs config)).2 }
      match prepareWorktree git w.repo config with
      | .error e => (.error e, prepared)
      | .ok path => prepared.register debug spec (some path)

end World

/-! ## What is wanted -/

/-- No worktree is added, no receiver registered, no id consumed, no entry logged, and no child started. -/
structure Untouched (w w' : World K R) : Prop where
  worktrees : git.worktrees w'.repo = git.worktrees w.repo
  plugin : w'.plugin = w.plugin

/-- The effects of a spawn, each of them once. -/
structure Spawned (w w' : World K R) (spec : SubagentSpec) (id : String) : Prop where
  worktrees : git.worktrees w'.repo = git.worktrees w.repo ++ (spec.worktree.map WorktreeConfig.path).toList
  counter : id = subagentId w.plugin.spawnCounter ∧ w'.plugin.spawnCounter = (w.plugin.spawnCounter + 1) % 2 ^ 64
  receiver : w'.plugin.pending = w.plugin.pending.insert id w.plugin.children.length
  log : w'.plugin.spawnLog =
    w.plugin.spawnLog.drop (w.plugin.spawnLog.length + 1 - maxSpawnLog) ++ [(spec.sessionId, spec.worktree.map WorktreeConfig.path)]
  child : w'.plugin.children = w.plugin.children ++ [⟨id, spec, spec.worktree.map WorktreeConfig.path, .running⟩]
  rest : w'.plugin.maxPending = w.plugin.maxPending ∧ w'.plugin.collects = w.plugin.collects

structure Clean (w : World K R) (spec : SubagentSpec) : Prop where
  refused : ∀ e w', w.spawnSubagent git debug spec = (.error e, w') → Untouched git w w'
  accepted : ∀ id w', w.spawnSubagent git debug spec = (.ok id, w') → Spawned git w w' spec id

/-- A worktree is requested and added, and the registry is full. -/
def Leaks (w : World K R) (spec : SubagentSpec) : Prop :=
  (Sse.trim spec.task).isEmpty = false ∧ w.plugin.maxPending ≤ w.plugin.pending.entries.length ∧
    ∃ config, spec.worktree = some config ∧ (git.run w.repo (worktreeArgs config)).1 = .success

/-! ## One spawn -/

variable {git} {debug} {w w' : World K R} {spec : SubagentSpec} {path : Option String}

theorem register_full (debug : String → String) (spec : SubagentSpec) (path : Option String)
    (h : w.plugin.maxPending ≤ w.plugin.pending.entries.length) : ∃ e, w.register debug spec path = (.error e, w) := by
  unfold World.register SubagentPlugin.register
  simp only [ge_iff_le, if_pos h]
  exact ⟨_, rfl⟩

theorem modify_last {α : Type} (f : α → α) (l : List α) (x : α) : (l ++ [x]).modify l.length f = l ++ [f x] := by
  induction l with
  | nil => rfl
  | cons y l ih => rw [List.cons_append, List.length_cons, List.modify_succ_cons, ih, List.cons_append]

theorem register_room (h : ¬ w.plugin.maxPending ≤ w.plugin.pending.entries.length) :
    w.register debug spec path = (.ok (subagentId w.plugin.spawnCounter), { w with plugin := { w.plugin with
      pending := w.plugin.pending.insert (subagentId w.plugin.spawnCounter) w.plugin.children.length
      spawnCounter := (w.plugin.spawnCounter + 1) % 2 ^ 64
      spawnLog := w.plugin.spawnLog.drop (w.plugin.spawnLog.length + 1 - maxSpawnLog) ++ [(spec.sessionId, path)]
      children := w.plugin.children ++ [⟨subagentId w.plugin.spawnCounter, spec, path, .running⟩] } }) := by
  unfold World.register SubagentPlugin.register
  simp only [ge_iff_le, if_neg h]
  unfold SubagentPlugin.step SubagentPlugin.setPhase
  simp only [List.getElem?_concat_length, modify_last]

theorem spawnSubagent_blank (h : (Sse.trim spec.task).isEmpty = true) :
    w.spawnSubagent git debug spec = (.error (.validation "SubagentSpec.task" "task must be non-empty"), w) := by
  unfold World.spawnSubagent
  rw [if_pos h]

theorem spawnSubagent_plain (h : (Sse.trim spec.task).isEmpty = false) (hnone : spec.worktree = none) :
    w.spawnSubagent git debug spec = w.register debug spec none := by
  unfold World.spawnSubagent
  rw [if_neg (by rw [h]; exact Bool.false_ne_true), hnone]

theorem prepareWorktree_added {repo : R} {config : WorktreeConfig} (h : (git.run repo (worktreeArgs config)).1 = .success) :
    prepareWorktree git repo config = .ok config.path := by
  unfold prepareWorktree
  rw [h]

theorem prepareWorktree_failed {repo : R} {config : WorktreeConfig} (h : (git.run repo (worktreeArgs config)).1 ≠ .success) :
    ∃ e, prepareWorktree git repo config = .error e := by
  unfold prepareWorktree
  cases hstatus : (git.run repo (worktreeArgs config)).1 with
  | cannotRun e => exact ⟨_, rfl⟩
  | failed status => exact ⟨_, rfl⟩
  | success => exact absurd hstatus h

theorem spawnSubagent_failed (h : (Sse.trim spec.task).isEmpty = false) {config : WorktreeConfig} (hsome : spec.worktree = some config)
    (hfails : (git.run w.repo (worktreeArgs config)).1 ≠ .success) :
    ∃ e, w.spawnSubagent git debug spec = (.error e, { w with repo := (git.run w.repo (worktreeArgs config)).2 }) := by
  obtain ⟨e, he⟩ := prepareWorktree_failed hfails
  refine ⟨e, ?_⟩
  unfold World.spawnSubagent
  rw [if_neg (by rw [h]; exact Bool.false_ne_true), hsome]
  dsimp only
  rw [he]

theorem spawnSubagent_added (h : (Sse.trim spec.task).isEmpty = false) {config : WorktreeConfig} (hsome : spec.worktree = some config)
    (hadds : (git.run w.repo (worktreeArgs config)).1 = .success) : w.spawnSubagent git debug spec =
      World.register debug { w with repo := (git.run w.repo (worktreeArgs config)).2 } spec (some config.path) := by
  unfold World.spawnSubagent
  rw [if_neg (by rw [h]; exact Bool.false_ne_true), hsome]
  dsimp only
  rw [prepareWorktree_added hadds]

theorem Clean.of_refused {e : PluginError} (hspawn : w.spawnSubagent git debug spec = (.error e, w')) (h : Untouched git w w') :
    Clean git debug w spec := by
  refine ⟨fun e' w'' h' => ?_, fun id w'' h' => ?_⟩
  · rw [hspawn] at h'
    rw [← (Prod.mk.inj h').2]
    exact h
  · rw [hspawn] at h'
    cases (Prod.mk.inj h').1

theorem Clean.of_accepted {id : String} (hspawn : w.spawnSubagent git debug spec = (.ok id, w')) (h : Spawned git w w' spec id) :
    Clean git debug w spec := by
  refine ⟨fun e' w'' h' => ?_, fun id' w'' h' => ?_⟩
  · rw [hspawn] at h'
    cases (Prod.mk.inj h').1
  · rw [hspawn] at h'
    rw [← (Prod.mk.inj h').2, ← Except.ok.inj (Prod.mk.inj h').1]
    exact h

/-- **A spawn is clean** exactly where it does not add a worktree for a child that the full registry refuses. -/
theorem clean_iff (hgit : git.Lawful) (debug : String → String) (w : World K R) (spec : SubagentSpec) :
    Clean git debug w spec ↔ ¬ Leaks git w spec := by
  by_cases hblank : (Sse.trim spec.task).isEmpty = true
  · have hclean : Clean git debug w spec := .of_refused (spawnSubagent_blank hblank) ⟨rfl, rfl⟩
    refine iff_of_true hclean fun hleaks => ?_
    rw [hleaks.1] at hblank
    exact Bool.false_ne_true hblank
  · rw [Bool.not_eq_true] at hblank
    rcases hworktree : spec.worktree with _ | config
    · refine iff_of_true ?_ fun ⟨_, _, config, hsome, _⟩ => by rw [hworktree] at hsome; cases hsome
      by_cases hfull : w.plugin.maxPending ≤ w.plugin.pending.entries.length
      · obtain ⟨e, he⟩ := register_full debug spec none hfull
        exact .of_refused ((spawnSubagent_plain hblank hworktree).trans he) ⟨rfl, rfl⟩
      · refine .of_accepted ((spawnSubagent_plain hblank hworktree).trans (register_room hfull)) ?_
        refine ⟨?_, ⟨rfl, rfl⟩, rfl, ?_, ?_, rfl, rfl⟩
        · rw [hworktree]
          exact (List.append_nil _).symm
        · rw [hworktree]
          rfl
        · rw [hworktree]
          rfl
    · by_cases hadds : (git.run w.repo (worktreeArgs config)).1 = .success
      · have hadded := hgit.adds w.repo config hadds
        by_cases hfull : w.plugin.maxPending ≤ w.plugin.pending.entries.length
        · -- the worktree is there, and the child is refused
          obtain ⟨e, he⟩ := register_full (w := { w with repo := (git.run w.repo (worktreeArgs config)).2 }) debug spec (some config.path) hfull
          refine iff_of_false (fun hclean => ?_) (not_not.mpr ⟨hblank, hfull, config, hworktree, hadds⟩)
          have hsame := (hclean.refused e _ ((spawnSubagent_added hblank hworktree hadds).trans he)).worktrees
          dsimp only at hsame
          rw [hadded] at hsame
          have hlength := congrArg List.length hsame
          rw [List.length_append, List.length_singleton] at hlength
          omega
        · refine iff_of_true ?_ fun hleaks => hfull hleaks.2.1
          refine .of_accepted ((spawnSubagent_added hblank hworktree hadds).trans (register_room hfull)) ?_
          refine ⟨?_, ⟨rfl, rfl⟩, rfl, ?_, ?_, rfl, rfl⟩
          · rw [hworktree]
            exact hadded
          · rw [hworktree]
            rfl
          · rw [hworktree]
            rfl
      · obtain ⟨e, he⟩ : ∃ e, w.spawnSubagent git debug spec = (.error e, { w with repo := (git.run w.repo (worktreeArgs config)).2 }) :=
          spawnSubagent_failed hblank hworktree hadds
        refine iff_of_true (.of_refused he ⟨hgit.keeps w.repo config hadds, rfl⟩) ?_
        rintro ⟨_, _, config', hsome, hadds'⟩
        rw [hworktree] at hsome
        exact hadds (Option.some.inj hsome ▸ hadds')

/-! ## Runs -/

/-- Worlds after spawns that satisfy `may`, and other events of the plugin. -/
inductive Reached (git : Git R) (debug : String → String) (may : World K R → SubagentSpec → Prop) (start : World K R) : World K R → Prop
  | start : Reached git debug may start start
  | spawn {w : World K R} (spec : SubagentSpec) : Reached git debug may start w → may w spec →
      Reached git debug may start (w.spawnSubagent git debug spec).2
  | other {w : World K R} (event : Event K) : Reached git debug may start w → (∀ spec prepareWorktree, event ≠ .spawn spec prepareWorktree) →
      Reached git debug may start { w with plugin := w.plugin.step debug event }

def worktreesOf (children : List Child) : List String := children.filterMap Child.worktreePath

theorem worktreesOf_modify (children : List Child) (n : Nat) (phase : ChildPhase) :
    worktreesOf (children.modify n fun c => { c with phase }) = worktreesOf children := by
  induction children generalizing n with
  | nil => rw [List.modify_nil]
  | cons child children ih =>
    unfold worktreesOf at ih ⊢
    cases n with
    | zero => rfl
    | succ n =>
      rw [List.modify_succ_cons, List.filterMap_cons, List.filterMap_cons, ih]

theorem worktreesOf_step (s : SubagentPlugin K) (event : Event K) (h : ∀ spec prepareWorktree, event ≠ .spawn spec prepareWorktree) :
    worktreesOf (s.step debug event).children = worktreesOf s.children := by
  cases event with
  | spawn spec prepareWorktree => exact absurd rfl (h spec prepareWorktree)
  | launch n | complete n _ | die n =>
    rw [SubagentPlugin.step]
    split
    · exact worktreesOf_modify s.children n _
    · rfl
  | collect | receive =>
    rw [SubagentPlugin.step]
    split
    · split <;> rfl
    · rfl

/-- **Without leaks**, every worktree is that of a child. -/
theorem worktrees_accounted {start : World K R} (hstart : start.plugin.children = []) (h : Reached git debug (Clean git debug) start w) :
    git.worktrees w.repo = git.worktrees start.repo ++ worktreesOf w.plugin.children := by
  induction h with
  | start =>
    rw [hstart]
    exact (List.append_nil _).symm
  | @spawn w spec hw hclean ih =>
    rcases hspawn : w.spawnSubagent git debug spec with ⟨e | id, w'⟩
    · have huntouched := hclean.refused e w' hspawn
      dsimp only
      rw [huntouched.worktrees, huntouched.plugin]
      exact ih
    · have hspawned := hclean.accepted id w' hspawn
      dsimp only
      rw [hspawned.worktrees, hspawned.child, ih, List.append_assoc]
      unfold worktreesOf
      rw [List.filterMap_append, List.filterMap_cons, List.filterMap_nil]
      cases spec.worktree <;> rfl
  | @other w event _ hother ih =>
    dsimp only
    rw [worktreesOf_step w.plugin event hother]
    exact ih

/-! ## A full registry -/

def willing : Git (List String) := ⟨fun worktrees args => (.success, worktrees ++ args.getLast?.toList), id⟩

theorem willing_lawful : willing.Lawful where
  adds r config _ := by
    show r ++ (worktreeArgs config).getLast?.toList = r ++ [config.path]
    rw [worktreeArgs, List.getLast?_concat]
    rfl
  keeps r config h := absurd rfl h

def reviewer (worktree : Option WorktreeConfig) : SubagentSpec := ⟨"reviewer", "review", [], worktree, none⟩

def single : World Unit (List String) := ⟨.new Unit 1, []⟩

theorem clean_single : Clean willing id single (reviewer (some ⟨"/tmp/a", none⟩)) := by
  refine (clean_iff willing_lawful id single _).mpr fun hleaks => ?_
  have hfull := hleaks.2.1
  exact absurd hfull (by decide)

/-- The second one is refused, and its worktree stays. -/
theorem single_leaks : ¬ ∀ w, Reached willing id (fun _ _ => True) single w → ∀ spec, Clean willing id w spec := by
  intro h
  have hfull := h _ (.spawn (reviewer none) .start trivial) (reviewer (some ⟨"/tmp/b", some "b"⟩))
  have hsame := (hfull.refused _ _ rfl).worktrees
  exact absurd hsame (by decide)

end Cuca.Subagent
