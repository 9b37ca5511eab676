import Cuca.Types

/-!
# The engine

One job at a time: the engine keeps what its cache shares with the prompt, fills the rest, and then decodes. In a round it takes the
next token, lets a drafter propose tokens after it, runs the model over all of them at once, and keeps those the model agrees with.

The model, the drafter, the sampler and the output parser are parameters, each with its own state. Measured times, which decide when
and how far to draft, and the consumer, who may leave at any time, are a `World`.

* `Machine`, `Engine`, `Job`, `World` : what a job runs on;
* `reuse`, `prefill` : the prompt;
* `round`, `decode` : the completion;
* `Engine.run` : a whole job.
-/

namespace Cuca.Local

abbrev Token := Nat

inductive Want where
  | none
  | last
  | all
  deriving DecidableEq, Repr

inductive Hidden where
  | none
  | postNorm
  | postNormAll
  deriving DecidableEq, Repr

/-- How an operation fails. -/
inductive Fault where
  | error (e : CucaError)
  | panic

/-- What a pass returns: rows of logits and rows of the final norm, each row after the other. -/
structure Forward (F : Type) where
  logits : Option (List F)
  hidden : Option (List F)

structure Trunk (S F : Type) where
  forwardExt : S → List Token → Nat → Want → Hidden → S × Except Fault (Forward F)
  truncateCache : S → Nat → S × Nat
  checkpoint : S → S
  isHybrid : Bool
  rollbackRows : Nat

/-- A step of a chain of drafts: it ends, or there are logits to pick the next draft from. -/
inductive Chain (X F : Type) where
  | stop
  | fault (f : Fault)
  | logits (l : List F) (next : Token → X)

structure Drafter (D X S F : Type) where
  observes : Bool
  observe : D → S → Nat → List Token → List F → D × Except Fault Unit
  truncate : D → Nat → D
  reset : D → D
  /-- The chain after the pending token: the last hidden row, the token, the cached positions and the most drafts. -/
  chain : D → S → List F → Token → Nat → Nat → X
  step : X → Chain X F

/-- The sampler, at a temperature above zero but for the comparison of logits. -/
structure Sampler (F Q G : Type) where
  gt : F → F → Bool
  negInfinity : F
  sample : List F → G → Except Fault (Token × G)
  warp : List F → Q
  draw : Q → G → Except Fault (Token × G)
  /-- Whether a draft is accepted, under what the model and the drafter gave it. -/
  accepts : Q → Q → Token → G → Bool × G
  residual : Q → Q → Option Q

structure Parser (P B : Type) where
  push : P → Token → P × List (Except CucaError B)
  finish : P → List (Except CucaError B)
  reasoningTokens : P → Nat

/-- What an engine is made of, and its configuration. -/
structure Machine where
  S : Type
  F : Type
  D : Type
  X : Type
  Q : Type
  G : Type
  P : Type
  B : Type
  trunk : Trunk S F
  drafter : Drafter D X S F
  sampler : Sampler F Q G
  parser : Parser P B
  isEog : Token → Bool
  contextLength : Nat
  draftTokens : Nat
  seed : Option G

/-- What is kept between jobs. -/
structure Engine (m : Machine) where
  model : m.S
  /-- The ids that fill the cache. -/
  cached : List Token
  rng : m.G
  drafter : Option m.D

structure Job (m : Machine) where
  promptIds : List Token
  /-- The output parser, with the ids of the calls it will see. -/
  parser : m.P
  enableThinking : Bool
  /-- The temperature is not above zero. -/
  greedy : Bool
  maxTokens : Option Nat

/-- What is decided outside: whether a round drafts, whether it takes one more draft, and whether the consumer is gone. -/
structure World where
  wantSpec : Nat → Bool
  takeDraft : Nat → Nat → Bool
  gone : Nat → Bool

/-- Where a failure comes from. -/
inductive Origin where
  | model
  | drafter
  | sampler
  | engine
  deriving DecidableEq, Repr

/-- Why a job ends early. -/
inductive Stop where
  | rejected
  | gone
  | failed (origin : Origin) (fault : Fault)

/-- How decoding ends. -/
inductive Ended where
  | eog
  | full
  deriving DecidableEq, Repr

structure Usage where
  promptTokens : Nat
  completionTokens : Nat
  reasoningTokens : Option Nat
  deriving DecidableEq, Repr

/-- An engine at work on a job. -/
structure Run (m : Machine) where
  engine : Engine m
  /-- The generator of a fixed seed. -/
  seeded : Option m.G
  parser : m.P
  /-- The tokens of the completion so far. -/
  pushed : List Token
  delivered : List (Except CucaError m.B)
  /-- How often the consumer was looked at. -/
  tick : Nat
  rounds : Nat
  logits : List m.F
  hidden : Option (List m.F)
  forced : Option Token
  /-- Read and write tokens. -/
  promptCache : Option (Nat × Nat)
  usage : Option Usage

namespace Engine
variable {m : Machine}

abbrev M (m : Machine) := EStateM Stop (Run m)

def localErr (message : String) : CucaError := .provider .localModel message

def saturatingU32 (n : Nat) : Nat := min n (2 ^ 32 - 1)

/-! ## Small steps -/

def orThrow {α : Type} (origin : Origin) (result : Except Fault α) : M m α :=
  match result with
  | .ok a => pure a
  | .error fault => throw (.failed origin fault)

/-- `blocking_send` -/
def send (w : World) (item : Except CucaError m.B) : M m Unit := do
  let s ← get
  if w.gone s.tick then throw .gone
  else set { s with delivered := s.delivered ++ [item], tick := s.tick + 1 }

/-- One more token of the completion, and what the parser makes of it. -/
def pushToken (w : World) (id : Token) : M m Unit := do
  let s ← get
  set { s with parser := (m.parser.push s.parser id).1, pushed := s.pushed ++ [id] }
  (m.parser.push s.parser id).2.forM (send w)

def forward (tokens : List Token) (start : Nat) (want : Want) (tap : Hidden) : M m (Forward m.F) := do
  let s ← get
  let result := m.trunk.forwardExt s.engine.model tokens start want tap
  set { s with engine := { s.engine with model := result.1 } }
  orThrow .model result.2

def observe (pos : Nat) (tokens : List Token) (rows : List m.F) : M m Unit := do
  let s ← get
  match s.engine.drafter with
  | none => pure ()
  | some d =>
    let result := m.drafter.observe d s.engine.model pos tokens rows
    set { s with engine := { s.engine with drafter := some result.1 } }
    orThrow .drafter result.2

/-! ## The prompt -/

def sharedLength (cached promptIds : List Token) : Nat := ((cached.zip promptIds).takeWhile fun pair => pair.1 == pair.2).length

/-- Keeps what the cache shares with the prompt, but for the last token of the prompt; returns how much that is. -/
def reuse (job : Job m) : M m Nat := do
  let s ← get
  let shared := sharedLength s.engine.cached job.promptIds
  let result := m.trunk.truncateCache s.engine.model (if shared = job.promptIds.length then shared - 1 else shared)
  let drafter := s.engine.drafter.map fun d => m.drafter.truncate d shared
  set { s with engine := { s.engine with model := result.1, cached := s.engine.cached.take result.2, drafter } }
  return result.2

/-- The position after the last end-of-generation token, or the end. -/
def checkpointPosition (m : Machine) (promptIds : List Token) : Nat :=
  match promptIds.reverse.findIdx? m.isEog with
  | some i => promptIds.length - i
  | none => promptIds.length

def prefillChunk (contextLength : Nat) : Nat := max 16 (min 256 (2097152 / max contextLength 1))

def lastRow (h : List m.F) (rows : Nat) : List m.F := if rows > 1 then h.drop (h.length - h.length / rows) else h

def observes (s : Run m) : Bool := s.engine.drafter.isSome && m.drafter.observes

def tap (s : Run m) : Hidden := if s.engine.drafter.isSome then .postNorm else .none

/-- Where the chunk that begins at a position ends. -/
def chunkEnd (m : Machine) (promptLength : Nat) (checkpointAt : Option Nat) (pos : Nat) : Nat :=
  let stop := min (pos + prefillChunk m.contextLength) promptLength
  match checkpointAt with
  | some at' => if pos < at' ∧ at' < stop then at' else stop
  | none => stop

/-- One chunk of the prompt; returns its logits. -/
def prefillStep (w : World) (job : Job m) (checkpointAt : Option Nat) (pos : Nat) : M m (Option (List m.F)) := do
  let s ← get
  let stop := chunkEnd m job.promptIds.length checkpointAt pos
  let tokens := (job.promptIds.take stop).drop pos
  let last := stop == job.promptIds.length
  let tapped := if observes s then .postNormAll else if last then tap s else .none
  let pass ← forward tokens pos (if last then .last else .none) tapped
  match observes s, pass.hidden with
  | true, some rows => observe pos tokens rows
  | _, _ => pure ()
  modify fun s' =>
    { s' with
      hidden := pass.hidden.map fun h => if observes s then lastRow h (stop - pos) else h
      engine := { s'.engine with
        cached := s'.engine.cached ++ tokens
        model := if checkpointAt = some stop then m.trunk.checkpoint s'.engine.model else s'.engine.model } }
  let s' ← get
  if !last && w.gone s'.tick then throw .gone
  else do
    modify fun s' => { s' with tick := if last then s'.tick else s'.tick + 1 }
    return pass.logits

def prefill (w : World) (job : Job m) (checkpointAt : Option Nat) : Nat → Nat → Option (List m.F) → M m (Option (List m.F))
  | 0, _, logits => pure logits
  | fuel + 1, pos, logits =>
    if pos < job.promptIds.length then do
      let logits ← prefillStep w job checkpointAt pos
      prefill w job checkpointAt fuel (chunkEnd m job.promptIds.length checkpointAt pos) logits
    else pure logits

/-! ## The completion -/

/-- `argmax` -/
def greedy (m : Machine) (logits : List m.F) : Token :=
  (logits.foldl (fun (acc : Nat × Token × m.F) v =>
    (acc.1 + 1, if m.sampler.gt v acc.2.2 then (acc.1, v) else acc.2)) (0, 0, m.sampler.negInfinity)).2.1

def Run.rng (s : Run m) : m.G := s.seeded.getD s.engine.rng

def Run.setRng (s : Run m) (rng : m.G) : Run m :=
  match s.seeded with
  | some _ => { s with seeded := some rng }
  | none => { s with engine := { s.engine with rng } }

/-- The next token: the one a rejected draft was replaced by, or one that is sampled. -/
def nextToken (job : Job m) : M m Token := do
  let s ← get
  match s.forced with
  | some id =>
    set { s with forced := none }
    return id
  | none =>
    if job.greedy then return greedy m s.logits
    else do
      let drawn ← orThrow .sampler (m.sampler.sample s.logits (Run.rng s))
      set (Run.setRng s drawn.2)
      return drawn.1

/-- The drafts so far: how many there were to pick, their distributions, and the generator. -/
structure Drafting (m : Machine) where
  steps : Nat
  dists : List m.Q
  rng : m.G

/-- Picks a draft, unless one more is not worth it. -/
def pick (w : World) (job : Job m) (round : Nat) (d : Drafting m) (l : List m.F) : Drafting m × Except Fault (Option Token) :=
  let adaptive := job.greedy || m.seed.isNone
  let j := d.steps + 1
  let choose (id : Token) := if adaptive && j > 1 && !w.takeDraft round j then none else some id
  if job.greedy then ({ d with steps := j }, .ok (choose (greedy m l)))
  else
    let dist := m.sampler.warp l
    match m.sampler.draw dist d.rng with
    | .ok (id, rng) => ({ steps := j, dists := d.dists ++ [dist], rng }, .ok (choose id))
    | .error fault => ({ d with steps := j }, .error fault)

/-- At most so many drafts. -/
def draftChain (w : World) (job : Job m) (round : Nat) : Nat → m.X → Drafting m → Drafting m × Except Fault (List Token)
  | 0, _, d => (d, .ok [])
  | k + 1, x, d =>
    match m.drafter.step x with
    | .stop => (d, .ok [])
    | .fault fault => (d, .error fault)
    | .logits l next =>
      match pick w job round d l with
      | (d, .error fault) => (d, .error fault)
      | (d, .ok none) => (d, .ok [])
      | (d, .ok (some id)) => match draftChain w job round k (next id) d with
        | (d, .ok drafts) => (d, .ok (id :: drafts))
        | (d, .error fault) => (d, .error fault)

/-- The most drafts of a round. -/
def draftCap (w : World) (job : Job m) (budget : Nat) (s : Run m) : Nat :=
  let reproducible := !job.greedy && m.seed.isSome
  let room := m.contextLength - s.engine.cached.length - 1
  if s.engine.drafter.isSome && (reproducible || w.wantSpec s.rounds) then
    min (min (min m.draftTokens (budget - s.pushed.length)) room) (m.trunk.rollbackRows - 1)
  else 0

/-- The drafts after a token, with their distributions. -/
def draft (w : World) (job : Job m) (budget : Nat) (id : Token) : M m (List Token × List m.Q) := do
  let s ← get
  let k := draftCap w job budget s
  match s.engine.drafter, s.hidden with
  | some d, some h =>
    if k > 0 then do
      let x := m.drafter.chain d s.engine.model h id s.engine.cached.length k
      let result := draftChain w job s.rounds k x ⟨0, [], Run.rng s⟩
      set (Run.setRng s result.1.rng)
      let drafts ← orThrow .drafter result.2
      return (drafts, result.1.dists)
    else return ([], [])
  | _, _ => return ([], [])

def oneMore (r : Except Fault (Nat × Option Token) × m.G) : Except Fault (Nat × Option Token) × m.G :=
  (r.1.map fun agreed => (agreed.1 + 1, agreed.2), r.2)

/-- How many drafts the model agrees with, and the token to take in place of the first it does not. -/
def accept (job : Job m) (row : Nat → List m.F) (dists : List m.Q) :
    Nat → List Token → m.G → Except Fault (Nat × Option Token) × m.G
  | _, [], rng => (.ok (0, none), rng)
  | j, d :: drafts, rng =>
    if job.greedy then
      if greedy m (row j) = d then oneMore (accept job row dists (j + 1) drafts rng) else (.ok (0, none), rng)
    else
      match dists[j]? with
      | none => (.error .panic, rng)
      | some q =>
        let p := m.sampler.warp (row j)
        let accepted := m.sampler.accepts p q d rng
        if accepted.1 then oneMore (accept job row dists (j + 1) drafts accepted.2)
        else
          match m.sampler.draw ((m.sampler.residual p q).getD p) accepted.2 with
          | .ok (id, rng) => (.ok (0, some id), rng)
          | .error fault => (.error fault, accepted.2)

/-- The `j`-th of rows of one width. -/
def rowOf (rows : List m.F) (width j : Nat) : List m.F := (rows.drop (j * width)).take width

/-- Runs the model over a token and its drafts, and keeps the drafts it agrees with; returns how many. -/
def verify (job : Job m) (id : Token) (drafts : List Token) (dists : List m.Q) : M m Nat := do
  let s ← get
  let batch := id :: drafts
  let start := s.engine.cached.length
  let pass ← forward batch start (if drafts.isEmpty then .last else .all) (tap s)
  let rows ← orThrow .engine (match pass.logits with
    | some rows => .ok rows
    | none => .error (.error (localErr "decode step produced no logits")))
  let width := if drafts.isEmpty then rows.length else rows.length / batch.length
  let s ← get
  let result := accept job (rowOf rows width) dists 0 drafts (Run.rng s)
  set (Run.setRng s result.2)
  let agreed ← orThrow .sampler result.1
  let keep := start + 1 + agreed.1
  let s ← get
  let truncated := m.trunk.truncateCache s.engine.model keep
  set { s with engine := { s.engine with model := truncated.1 } }
  orThrow .engine (if truncated.2 = keep then .ok ()
    else .error (.error (localErr s!"the model cannot roll its cache back to {keep} positions")))
  modify fun s => { s with engine := { s.engine with cached := s.engine.cached ++ id :: drafts.take agreed.1 } }
  match observes s, pass.hidden with
  | true, some h => observe start (batch.take (agreed.1 + 1)) (h.take ((agreed.1 + 1) * (h.length / batch.length)))
  | _, _ => pure ()
  modify fun s =>
    { s with
      forced := agreed.2
      logits := rowOf rows width agreed.1
      hidden := pass.hidden.map fun h => rowOf h (h.length / batch.length) agreed.1
      rounds := s.rounds + 1 }
  return agreed.1

/-- Accepted drafts are pushed like sampled tokens. -/
def emit (w : World) (budget : Nat) : List Token → M m (Option Ended)
  | [] => return none
  | d :: drafts =>
    if m.isEog d then return some .eog
    else do
      pushToken w d
      let s ← get
      if s.pushed.length = budget then return some .full
      else emit w budget drafts

/-- One round of the loop. -/
def round (w : World) (job : Job m) (budget : Nat) : M m (Option Ended) := do
  let id ← nextToken job
  if m.isEog id then return some .eog
  else do
    pushToken w id
    let s ← get
    if s.pushed.length = budget ∨ s.engine.cached.length = m.contextLength then return some .full
    else do
      let drafted ← draft w job budget id
      let accepted ← verify job id drafted.1 drafted.2
      emit w budget (drafted.1.take accepted)

/-- The loop; every round pushes a token, or is the last one. -/
def decode (w : World) (job : Job m) (budget : Nat) : Nat → M m Ended
  | 0 => return .full
  | fuel + 1 => do
    let s ← get
    if s.pushed.length < budget then do
      let ended ← round w job budget
      match ended with
      | some ended => return ended
      | none => decode w job budget fuel
    else return .full

/-! ## Jobs -/

def budgetOf (job : Job m) : Nat :=
  let room := m.contextLength - job.promptIds.length
  job.maxTokens.elim room fun n => min n room

def usageOf (job : Job m) (s : Run m) : Usage where
  promptTokens := saturatingU32 job.promptIds.length
  completionTokens := saturatingU32 s.pushed.length
  reasoningTokens := if job.enableThinking then some (m.parser.reasoningTokens s.parser) else none

/-- What the parser still holds, and the usage. -/
def finish (w : World) (job : Job m) : M m Unit := do
  let s ← get
  (m.parser.finish s.parser).forM (send w)
  modify fun s => { s with usage := some (usageOf job s) }

def generate (w : World) (job : Job m) : M m Ended := do
  let length := job.promptIds.length
  if length = 0 ∨ length ≥ m.contextLength then throw .rejected
  else do
    let kept ← reuse job
    let checkpointAt := if m.trunk.isHybrid && checkpointPosition m job.promptIds > kept
      then some (checkpointPosition m job.promptIds) else none
    let logits ← prefill w job checkpointAt (length - kept) kept none
    let logits ← orThrow .engine (match logits with
      | some logits => .ok logits
      | none => .error (.error (localErr "prefill produced no logits")))
    modify fun s => { s with logits, promptCache := some (saturatingU32 kept, saturatingU32 (length - kept)) }
    let ended ← decode w job (budgetOf job) (budgetOf job)
    finish w job
    return ended

/-- Forget every cached position. -/
def reset (e : Engine m) : Engine m :=
  { e with
    model := (m.trunk.truncateCache e.model 0).1
    cached := []
    drafter := e.drafter.map m.drafter.reset }

/-- What a job leaves behind. -/
structure Report (m : Machine) where
  stop : Except Stop Ended
  pushed : List Token
  delivered : List (Except CucaError m.B)
  promptCache : Option (Nat × Nat)
  usage : Option Usage

def reportOf (stop : Except Stop Ended) (s : Run m) : Report m := ⟨stop, s.pushed, s.delivered, s.promptCache, s.usage⟩

def lastItem (w : World) (s : Run m) (e : CucaError) : Run m :=
  if w.gone s.tick then s else { s with delivered := s.delivered ++ [.error e], tick := s.tick + 1 }

def begin (e : Engine m) (job : Job m) : Run m :=
  { engine := e
    seeded := m.seed
    parser := job.parser
    pushed := []
    delivered := []
    tick := 0
    rounds := 0
    logits := []
    hidden := none
    forced := none
    promptCache := none
    usage := none }

def rejection (m : Machine) (length : Nat) : CucaError :=
  let context := m.contextLength
  localErr s!"prompt has {length} tokens; context_length is {context}"

/-- A job, run to its end. -/
def run (e : Engine m) (w : World) (job : Job m) : Engine m × Report m :=
  match (generate w job).run (begin e job) with
  | .ok ended s => (s.engine, reportOf (.ok ended) s)
  | .error .gone s => (s.engine, reportOf (.error .gone) s)
  | .error .rejected s => (s.engine, reportOf (.error .rejected) (lastItem w s (rejection m job.promptIds.length)))
  | .error (.failed origin (.error e)) s => (reset s.engine, reportOf (.error (.failed origin (.error e))) (lastItem w s e))
  | .error (.failed origin .panic) s =>
    (reset s.engine, reportOf (.error (.failed origin .panic)) (lastItem w s (localErr "local engine panicked; KV cache reset")))

end Engine

end Cuca.Local
