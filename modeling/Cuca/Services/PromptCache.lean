import Cuca.Lib.Assoc
import Cuca.Lib.Simulation
import Cuca.Lib.Sorted
import Cuca.Services.PromptDigest

/-!
# The prompt cache

`PromptCacheState` couples the entries by key, the recency order by touch counter, and a lower bound on the expiries.

* `lookup`, `insert` : the two calls of a client;
* `snapshotAt`, `replaceSnapshotAt` : export and import;
* `step`, `run` : any sequence of them.

The clock reading of each call is an argument.
-/

namespace Cuca.PromptCache
open PromptDigest Postcard

structure PromptCacheConfig where
  /-- Most entries retained. -/
  capacity : Nat
  /-- Time to live, in nanoseconds. -/
  ttl : Nat
deriving DecidableEq, Repr

def u64Max : Nat := 2 ^ 64 - 1

/-- `ttl.as_millis() as u64`. -/
def PromptCacheConfig.ttlMillis (config : PromptCacheConfig) : Nat := config.ttl / 10 ^ 6 % 2 ^ 64

/-- When an entry stored at `now` expires. -/
def PromptCacheConfig.expiresAt (config : PromptCacheConfig) (now : Nat) : Nat := min (now + config.ttlMillis) u64Max

structure PromptCacheEntry where
  key : String
  request : UnifiedRequest
  response : UnifiedResponse
  storedAtUnixMs : Nat
  expiresAtUnixMs : Nat
  lruRank : Nat
deriving Repr

/-- The live entries, sorted by key. -/
abbrev PromptCacheSnapshot := List PromptCacheEntry

structure PromptCacheImportReport where
  importedEntries : Nat
  expiredEntries : Nat
  capacityEvictions : Nat
deriving DecidableEq, Repr

structure CacheSlot where
  entry : PromptCacheEntry
  tick : Nat
  key : String

structure PromptCacheState where
  entries : AList fun _ : String => CacheSlot
  /-- The keys by touch counter, oldest first. -/
  lruOrder : SortedMap Nat String
  nextTick : Nat
  /-- Lower bound on the expiries. -/
  earliestExpiry : Nat

namespace PromptCacheState

def empty : PromptCacheState := ⟨∅, ∅, 0, u64Max⟩

def len (s : PromptCacheState) : Nat := s.entries.entries.length

/-- Makes `key` the most recently used; its tick is the old counter. -/
def pushRecent (s : PromptCacheState) (key : String) : PromptCacheState :=
  { s with lruOrder := s.lruOrder.insert s.nextTick key, nextTick := s.nextTick + 1 }

/-- Removes every entry that has expired, unless none can have. -/
def pruneExpired (s : PromptCacheState) (now : Nat) : PromptCacheState :=
  if now < s.earliestExpiry then s
  else
    let expired := Assoc.retain (·.2.entry.expiresAtUnixMs ≤ now) s.entries
    let kept := Assoc.retain (now < ·.2.entry.expiresAtUnixMs) s.entries
    { s with
      entries := kept
      lruOrder := (expired.entries.map (·.2.tick)).foldl SortedMap.erase s.lruOrder
      earliestExpiry := (kept.entries.map (·.2.entry.expiresAtUnixMs)).foldl min u64Max }

/-- Evicts the least recently used entries until no more than `capacity` are left. Each round takes one key off the
recency order. -/
def evict (capacity : Nat) : Nat → PromptCacheState → PromptCacheState
  | 0, s => s
  | rounds + 1, s =>
    if capacity < s.len then
      match s.lruOrder.popFirst with
      | some ((_, oldest), lruOrder) =>
        evict capacity rounds { s with entries := s.entries.erase oldest, lruOrder := lruOrder }
      | none => s
    else s

/-- Answers a digest; a live hit becomes the most recent, an expired entry is removed. -/
def lookup (s : PromptCacheState) (now : Nat) (key : String) : Option PromptCacheEntry × PromptCacheState :=
  match s.entries.lookup key with
  | none => (none, s)
  | some slot =>
    let lruOrder := s.lruOrder.erase slot.tick
    if slot.entry.expiresAtUnixMs ≤ now then
      (none, { s with entries := s.entries.erase key, lruOrder := lruOrder })
    else
      let touched := { s with lruOrder := lruOrder }.pushRecent slot.key
      (some { slot.entry with lruRank := touched.lruOrder.entries.length - 1 },
        { touched with entries := s.entries.insert key { slot with tick := s.nextTick } })

/-- Stores a pair under its digest. -/
def store (config : PromptCacheConfig) (s : PromptCacheState) (now : Nat) (key : String) (request : UnifiedRequest)
    (response : UnifiedResponse) : PromptCacheState :=
  let pruned := s.pruneExpired now
  let expiresAt := config.expiresAt now
  let pushed := pruned.pushRecent key
  let stored := { pushed with
    entries := pruned.entries.insert key ⟨⟨key, request, response, now, expiresAt, 0⟩, pruned.nextTick, key⟩
    lruOrder :=
      match pruned.entries.lookup key with
      | some replaced => pushed.lruOrder.erase replaced.tick
      | none => pushed.lruOrder
    earliestExpiry := min pruned.earliestExpiry expiresAt }
  stored.evict config.capacity stored.lruOrder.entries.length

/-- Ranks from `0`, in order. -/
def renumber (entries : List PromptCacheEntry) : List PromptCacheEntry :=
  entries.zipIdx.map fun (entry, rank) => { entry with lruRank := rank }

def residents (s : PromptCacheState) : List PromptCacheEntry :=
  s.lruOrder.values.filterMap fun key => (s.entries.lookup key).map (·.entry)

def snapshotAt (s : PromptCacheState) (now : Nat) : PromptCacheSnapshot :=
  (renumber (s.residents.filter (now < ·.expiresAtUnixMs))).insertionSort (·.key ≤ ·.key)

/-- Adds an entry of a snapshot as the most recent. -/
def install (s : PromptCacheState) (entry : PromptCacheEntry) : PromptCacheState :=
  let pushed := s.pushRecent entry.key
  { pushed with
    entries := s.entries.insert entry.key ⟨entry, s.nextTick, entry.key⟩
    earliestExpiry := min s.earliestExpiry entry.expiresAtUnixMs }

end PromptCacheState

/-- Whether `s` is 64 lowercase hexadecimal digits. -/
def isLowercaseSha256Hex (s : String) : Bool :=
  s.length == 64 && s.toList.all fun c => ('0' ≤ c ∧ c ≤ '9') ∨ ('a' ≤ c ∧ c ≤ 'f')

section
variable (numberText : Number → List Char) (sha256 : Bytes → Vector UInt8 32)

/-- Stores a request and its response. -/
def insert (config : PromptCacheConfig) (s : PromptCacheState) (now : Nat) (request : UnifiedRequest)
    (response : UnifiedResponse) : Except PromptCacheError Unit × PromptCacheState :=
  match digestRequest numberText sha256 request with
  | .error e => (.error e, s)
  | .ok key => (.ok (), s.store config now key request response)

/-- The checks of the entries, in order; the ranks seen. -/
def validateEntries (seenKeys : List String) (seenRanks : List Nat) :
    List PromptCacheEntry → Except PromptCacheError (List Nat)
  | [] => .ok seenRanks
  | entry :: entries =>
    if !isLowercaseSha256Hex entry.key then
      .error (.validation ("entries[" ++ entry.key ++ "].key")
        "key must be a lowercase 64-character SHA-256 hex digest")
    else if entry.key ∈ seenKeys then
      .error (.validation ("entries[" ++ entry.key ++ "].key") "duplicate key in imported snapshot")
    else if entry.expiresAtUnixMs ≤ entry.storedAtUnixMs then
      .error (.validation ("entries[" ++ entry.key ++ "].stored_at_unix_ms")
        "stored_at_unix_ms must be less than expires_at_unix_ms")
    else
      match digestRequest numberText sha256 entry.request with
      | .error e => .error e
      | .ok expectedKey =>
        if expectedKey ≠ entry.key then
          .error (.validation ("entries[" ++ entry.key ++ "].key") "key does not match the digest of its request")
        else if entry.lruRank ∈ seenRanks then
          .error (.validation ("entries[" ++ entry.key ++ "].lru_rank") "duplicate lru_rank in imported snapshot")
        else validateEntries (entry.key :: seenKeys) (entry.lruRank :: seenRanks) entries

def validateSnapshot (snapshot : PromptCacheSnapshot) : Except PromptCacheError Unit :=
  match validateEntries numberText sha256 [] [] snapshot with
  | .error e => .error e
  | .ok seenRanks =>
    if seenRanks.any (snapshot.length ≤ ·) then
      .error (.validation "entries[].lru_rank" ("ranks must be contiguous from 0.." ++ toString snapshot.length))
    else .ok ()

/-- The state a snapshot installs. -/
def stageSnapshot (config : PromptCacheConfig) (snapshot : PromptCacheSnapshot) (now : Nat) :
    Except PromptCacheError (PromptCacheState × PromptCacheImportReport) :=
  match validateSnapshot numberText sha256 snapshot with
  | .error e => .error e
  | .ok () =>
    let live := (snapshot.filter (now < ·.expiresAtUnixMs)).insertionSort (·.lruRank ≤ ·.lruRank)
    let capacityEvictions := live.length - config.capacity
    let state := (PromptCacheState.renumber (live.drop capacityEvictions)).foldl PromptCacheState.install .empty
    .ok (state, ⟨state.len, snapshot.length - live.length, capacityEvictions⟩)

/-- Replaces the state by that of a snapshot; an invalid snapshot changes nothing. -/
def replaceSnapshotAt (config : PromptCacheConfig) (s : PromptCacheState) (snapshot : PromptCacheSnapshot)
    (now : Nat) : Except PromptCacheError PromptCacheImportReport × PromptCacheState :=
  match stageSnapshot numberText sha256 config snapshot now with
  | .error e => (.error e, s)
  | .ok (staged, report) => (.ok report, staged)

/-! ## Runs -/

inductive Call where
  | lookup (now : Nat) (key : String)
  | insert (now : Nat) (request : UnifiedRequest) (response : UnifiedResponse)
  | snapshotAt (now : Nat)
  | replaceSnapshotAt (snapshot : PromptCacheSnapshot) (now : Nat)

inductive Answer where
  | found (entry : Option PromptCacheEntry)
  | inserted (result : Except PromptCacheError Unit)
  | exported (snapshot : PromptCacheSnapshot)
  | imported (result : Except PromptCacheError PromptCacheImportReport)

def step (config : PromptCacheConfig) (s : PromptCacheState) : Call → Answer × PromptCacheState
  | .lookup now key => (.found (s.lookup now key).1, (s.lookup now key).2)
  | .insert now request response =>
    (.inserted (insert numberText sha256 config s now request response).1,
      (insert numberText sha256 config s now request response).2)
  | .snapshotAt now => (.exported (s.snapshotAt now), s)
  | .replaceSnapshotAt snapshot now =>
    (.imported (replaceSnapshotAt numberText sha256 config s snapshot now).1,
      (replaceSnapshotAt numberText sha256 config s snapshot now).2)

def run (config : PromptCacheConfig) (s : PromptCacheState) (calls : List Call) : List Answer × PromptCacheState :=
  Simulation.run (step numberText sha256 config) s calls

end
end Cuca.PromptCache
