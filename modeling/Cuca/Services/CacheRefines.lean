import Cuca.Services.CacheMirrors
import Cuca.Services.SnapshotChecks

/-!
# The prompt cache refines a recency list

`Reference` is a cache that is one list of entries, the least recent first. `PromptCache` answers as it does.

* `Reference.lookup`, `Reference.insert`, `Reference.snapshotAt`, `Reference.replaceSnapshotAt`;
* `Refines` : a state of the cache and a list;
* `step_refines` : one call, and `cache_refines` : any sequence;
* `Keyed`, `Timely` : what holds of every resident, and what need not;
* `sound_exported`, `import_exported` : the checks and the state an export installs;
* `snapshot_round_trip` : the export of a reachable state is imported exactly if its entries are timely.
-/

namespace Cuca.PromptCache
open PromptDigest Postcard

/-! ## The reference -/

/-- The entries, the least recent first. -/
abbrev Reference := List PromptCacheEntry

namespace Reference

def without (r : Reference) (key : String) : Reference := r.filter (·.key ≠ key)

def sweep (r : Reference) (now : Nat) : Reference := r.filter (now < ·.expiresAtUnixMs)

/-- The most recent `capacity` entries. -/
def newest (r : Reference) (capacity : Nat) : Reference := r.drop (r.length - capacity)

/-- A live hit moves to the most recent end; an expired one is dropped. -/
def lookup (r : Reference) (now : Nat) (key : String) : Option PromptCacheEntry × Reference :=
  match r.find? (·.key = key) with
  | none => (none, r)
  | some entry =>
    if entry.expiresAtUnixMs ≤ now then (none, r.without key)
    else (some { entry with lruRank := (r.without key).length }, r.without key ++ [entry])

def snapshotAt (r : Reference) (now : Nat) : PromptCacheSnapshot :=
  (PromptCacheState.renumber (r.sweep now)).insertionSort (·.key ≤ ·.key)

section
variable (numberText : Number → List Char) (sha256 : Bytes → Vector UInt8 32)

/-- Sweeps, adds the pair at the most recent end, and evicts the least recent. -/
def insert (config : PromptCacheConfig) (r : Reference) (now : Nat) (request : UnifiedRequest)
    (response : UnifiedResponse) : Except PromptCacheError Unit × Reference :=
  match digestRequest numberText sha256 request with
  | .error e => (.error e, r)
  | .ok key =>
    (.ok (), newest ((r.sweep now).without key ++ [⟨key, request, response, now, config.expiresAt now, 0⟩])
      config.capacity)

/-- Keeps the most recent live entries of a valid snapshot. -/
def replaceSnapshotAt (config : PromptCacheConfig) (r : Reference) (snapshot : PromptCacheSnapshot) (now : Nat) :
    Except PromptCacheError PromptCacheImportReport × Reference :=
  match validateSnapshot numberText sha256 snapshot with
  | .error e => (.error e, r)
  | .ok () =>
    let live := (sweep snapshot now).insertionSort (·.lruRank ≤ ·.lruRank)
    (.ok ⟨(newest live config.capacity).length, snapshot.length - live.length, live.length - config.capacity⟩,
      PromptCacheState.renumber (newest live config.capacity))

def step (config : PromptCacheConfig) (r : Reference) : Call → Answer × Reference
  | .lookup now key => (.found (r.lookup now key).1, (r.lookup now key).2)
  | .insert now request response =>
    (.inserted (insert numberText sha256 config r now request response).1,
      (insert numberText sha256 config r now request response).2)
  | .snapshotAt now => (.exported (r.snapshotAt now), r)
  | .replaceSnapshotAt snapshot now =>
    (.imported (replaceSnapshotAt numberText sha256 config r snapshot now).1,
      (replaceSnapshotAt numberText sha256 config r snapshot now).2)

def run (config : PromptCacheConfig) (r : Reference) (calls : List Call) : List Answer × Reference :=
  Simulation.run (step numberText sha256 config) r calls

end
end Reference

/-! ## One call -/

def Refines (config : PromptCacheConfig) (s : PromptCacheState) (r : Reference) : Prop :=
  ∃ slots, Mirrors s slots ∧ r = slots.map (·.entry) ∧ slots.length ≤ config.capacity

section
variable {config : PromptCacheConfig} {s : PromptCacheState} {slots : List CacheSlot} {r : Reference}

theorem Mirrors.without (h : Mirrors s slots) (key : String) :
    Reference.without (slots.map (·.entry)) key = (slots.filter (·.key ≠ key)).map (·.entry) := by
  unfold Reference.without
  rw [List.filter_map]
  congr 1
  refine List.filter_congr fun slot hslot => ?_
  rw [Function.comp_apply, h.named slot hslot]

theorem sweep_map (slots : List CacheSlot) (now : Nat) :
    Reference.sweep (slots.map (·.entry)) now = (slots.filter (now < ·.entry.expiresAtUnixMs)).map (·.entry) :=
  List.filter_map

theorem newest_map (slots : List CacheSlot) (capacity : Nat) :
    Reference.newest (slots.map (·.entry)) capacity = (slots.drop (slots.length - capacity)).map (·.entry) := by
  unfold Reference.newest
  rw [List.length_map, List.map_drop]

theorem Mirrors.find (h : Mirrors s slots) (key : String) :
    (slots.map (·.entry)).find? (·.key = key) = (s.entries.lookup key).map (·.entry) := by
  cases hfound : s.entries.lookup key with
  | none =>
    refine List.find?_eq_none.mpr fun entry hentry => ?_
    obtain ⟨slot, hslot, rfl⟩ := List.mem_map.mp hentry
    simpa [h.named slot hslot] using h.lookup_none.mp hfound slot hslot
  | some slot =>
    obtain ⟨hmem, hkey⟩ := h.lookup_iff.mp hfound
    have hname := h.named slot hmem
    cases hfind : (slots.map (·.entry)).find? (·.key = key) with
    | none =>
      have := List.find?_eq_none.mp hfind slot.entry (List.mem_map_of_mem hmem)
      simp [hname, hkey] at this
    | some entry =>
      obtain ⟨slot', hmem', rfl⟩ := List.mem_map.mp (List.mem_of_find?_eq_some hfind)
      have hkey' : slot'.entry.key = key := by simpa using List.find?_some hfind
      rw [h.named slot' hmem'] at hkey'
      rw [h.eq_of_key hmem' hmem (hkey'.trans hkey.symm)]
      rfl

theorem Refines.residents (h : Refines config s r) : s.residents = r := by
  obtain ⟨slots, hmirrors, rfl, -⟩ := h
  exact hmirrors.residents_eq

theorem lookup_refines (h : Refines config s r) (now : Nat) (key : String) :
    (s.lookup now key).1 = (r.lookup now key).1 ∧ Refines config (s.lookup now key).2 (r.lookup now key).2 := by
  obtain ⟨slots, hmirrors, rfl, hcapacity⟩ := h
  unfold Reference.lookup
  rw [hmirrors.find]
  cases hfound : s.entries.lookup key with
  | none =>
    have hmiss : s.lookup now key = (none, s) := by
      unfold PromptCacheState.lookup
      rw [hfound]
    rw [hmiss]
    exact ⟨rfl, slots, hmirrors, rfl, hcapacity⟩
  | some slot =>
    obtain ⟨hmem, rfl⟩ := hmirrors.lookup_iff.mp hfound
    have hlength := List.length_filter_lt_length_iff_exists (p := fun slot' => decide (slot'.key ≠ slot.key)) |>.mpr
      ⟨slot, hmem, by simp⟩
    show _ = (if slot.entry.expiresAtUnixMs ≤ now then _ else _ : Option PromptCacheEntry × Reference).1 ∧
      Refines config _ (if slot.entry.expiresAtUnixMs ≤ now then _ else _ : Option PromptCacheEntry × Reference).2
    rw [hmirrors.without]
    by_cases hexpired : slot.entry.expiresAtUnixMs ≤ now
    · obtain ⟨hanswer, hnext⟩ := hmirrors.lookup_expired hmem hexpired
      rw [if_pos hexpired]
      exact ⟨hanswer, _, hnext, rfl, by omega⟩
    · obtain ⟨hanswer, hnext⟩ := hmirrors.lookup_hit hmem (Nat.lt_of_not_le hexpired)
      rw [if_neg hexpired]
      refine ⟨by rw [hanswer, List.length_map], _, hnext, ?_, ?_⟩
      · rw [List.map_append]
        rfl
      · rw [List.length_append, List.length_singleton]
        omega

theorem store_refines (h : Refines config s r) (now : Nat) (key : String) (request : UnifiedRequest)
    (response : UnifiedResponse) :
    Refines config (s.store config now key request response)
      (Reference.newest ((r.sweep now).without key ++ [⟨key, request, response, now, config.expiresAt now, 0⟩])
        config.capacity) := by
  obtain ⟨slots, hmirrors, rfl, -⟩ := h
  obtain ⟨slot, hentry, hstored⟩ := hmirrors.store config now key request response
  refine ⟨_, hstored, ?_, ?_⟩
  · rw [sweep_map, (hmirrors.pruneExpired now).without, ← newest_map, List.map_append, List.map_singleton, hentry]
  · rw [List.length_drop]
    omega

theorem snapshotAt_refines (h : Refines config s r) (now : Nat) : s.snapshotAt now = r.snapshotAt now := by
  unfold PromptCacheState.snapshotAt
  rw [h.residents]
  rfl

variable {numberText : Number → List Char} {sha256 : Bytes → Vector UInt8 32}

theorem insert_refines (h : Refines config s r) (now : Nat) (request : UnifiedRequest) (response : UnifiedResponse) :
    (insert numberText sha256 config s now request response).1 =
        (Reference.insert numberText sha256 config r now request response).1 ∧
      Refines config (insert numberText sha256 config s now request response).2
        (Reference.insert numberText sha256 config r now request response).2 := by
  unfold insert Reference.insert
  cases digestRequest numberText sha256 request with
  | error e => exact ⟨rfl, h⟩
  | ok key => exact ⟨rfl, store_refines h now key request response⟩

theorem stage_refines (config : PromptCacheConfig) {live : List PromptCacheEntry} (hkeys : (live.map (·.key)).Nodup) :
    Refines config
      ((PromptCacheState.renumber (live.drop (live.length - config.capacity))).foldl PromptCacheState.install .empty)
      (PromptCacheState.renumber (Reference.newest live config.capacity)) := by
  have hnodup : ((PromptCacheState.renumber (live.drop (live.length - config.capacity))).map (·.key)).Nodup := by
    rw [map_renumber _ fun _ _ => rfl]
    exact hkeys.sublist ((List.drop_sublist _ _).map _)
  obtain ⟨installed, hentries, hmirrors⟩ := mirrors_empty.installs _ hnodup fun slot hslot => nomatch hslot
  refine ⟨installed, hmirrors, hentries.symm, ?_⟩
  rw [← @List.length_map _ _ installed (·.entry), hentries, length_renumber, List.length_drop]
  omega

theorem replaceSnapshotAt_refines (h : Refines config s r) (snapshot : PromptCacheSnapshot) (now : Nat) :
    (replaceSnapshotAt numberText sha256 config s snapshot now).1 =
        (Reference.replaceSnapshotAt numberText sha256 config r snapshot now).1 ∧
      Refines config (replaceSnapshotAt numberText sha256 config s snapshot now).2
        (Reference.replaceSnapshotAt numberText sha256 config r snapshot now).2 := by
  unfold replaceSnapshotAt Reference.replaceSnapshotAt stageSnapshot
  cases hvalid : validateSnapshot numberText sha256 snapshot with
  | error e => exact ⟨rfl, h⟩
  | ok u =>
    have hsound := validateSnapshot_ok.mp hvalid
    have hkeys : (((Reference.sweep snapshot now).insertionSort (·.lruRank ≤ ·.lruRank)).map (·.key)).Nodup :=
      ((List.perm_insertionSort _ _).map _).nodup_iff.mpr (hsound.keys.sublist (List.filter_sublist.map _))
    have hstaged := stage_refines config hkeys
    refine ⟨?_, hstaged⟩
    obtain ⟨slots, hmirrors, hentries, -⟩ := hstaged
    have hlen := hmirrors.len_eq
    rw [← @List.length_map _ _ slots (·.entry), ← hentries, length_renumber] at hlen
    show Except.ok _ = Except.ok _
    rw [← hlen]
    rfl

theorem step_refines (h : Refines config s r) (call : Call) :
    (step numberText sha256 config s call).1 = (Reference.step numberText sha256 config r call).1 ∧
      Refines config (step numberText sha256 config s call).2 (Reference.step numberText sha256 config r call).2 := by
  cases call with
  | lookup now key =>
    obtain ⟨hanswer, hnext⟩ := lookup_refines h now key
    exact ⟨congrArg Answer.found hanswer, hnext⟩
  | insert now request response =>
    obtain ⟨hanswer, hnext⟩ := insert_refines h now request response
    exact ⟨congrArg Answer.inserted hanswer, hnext⟩
  | snapshotAt now => exact ⟨congrArg Answer.exported (snapshotAt_refines h now), h⟩
  | replaceSnapshotAt snapshot now =>
    obtain ⟨hanswer, hnext⟩ := replaceSnapshotAt_refines h snapshot now
    exact ⟨congrArg Answer.imported hanswer, hnext⟩

end

/-! ## Every sequence of calls -/

theorem run_refines (numberText : Number → List Char) (sha256 : Bytes → Vector UInt8 32) (config : PromptCacheConfig)
    (calls : List Call) :
    (run numberText sha256 config .empty calls).1 = (Reference.run numberText sha256 config [] calls).1 ∧
      Refines config (run numberText sha256 config .empty calls).2
        (Reference.run numberText sha256 config [] calls).2 := by
  have hempty : Refines config .empty [] := ⟨[], mirrors_empty, rfl, Nat.zero_le _⟩
  exact Simulation.run_simulates (R := Refines config) (fun _ _ call h => step_refines h call) hempty calls

/-- **The cache refines the reference**: the same answers, the same residents in the same order. Map and order stay in
bijection, no more than the capacity are resident, and the sweep is the eager one. -/
theorem cache_refines (numberText : Number → List Char) (sha256 : Bytes → Vector UInt8 32) (config : PromptCacheConfig)
    (calls : List Call) :
    (run numberText sha256 config .empty calls).1 = (Reference.run numberText sha256 config [] calls).1 ∧
      let s := (run numberText sha256 config .empty calls).2
      s.residents = (Reference.run numberText sha256 config [] calls).2 ∧
      (∀ key slot, s.entries.lookup key = some slot → (slot.tick, key) ∈ s.lruOrder.entries) ∧
      (∀ tick key, (tick, key) ∈ s.lruOrder.entries → ∃ slot, s.entries.lookup key = some slot ∧ slot.tick = tick) ∧
      (s.lruOrder.entries.map Prod.fst).Nodup ∧
      s.len = s.residents.length ∧ s.len ≤ config.capacity ∧
      ∀ now, (s.pruneExpired now).residents = s.residents.filter (now < ·.expiresAtUnixMs) := by
  obtain ⟨hanswers, hlast⟩ := run_refines numberText sha256 config calls
  refine ⟨hanswers, hlast.residents, ?_⟩
  obtain ⟨slots, hmirrors, -, hcapacity⟩ := hlast
  refine ⟨hmirrors.bijection.1, hmirrors.bijection.2, ?_, ?_, hmirrors.len_eq.trans_le hcapacity, fun now => ?_⟩
  · rw [hmirrors.order, List.map_map]
    exact hmirrors.ticks_nodup
  · rw [hmirrors.residents_eq, List.length_map]
    exact hmirrors.len_eq
  · rw [(hmirrors.pruneExpired now).residents_eq, hmirrors.residents_eq]
    exact (sweep_map slots now).symm

/-! ## Export and import

What a cache exports is imported again, unless an entry was stored no earlier than it expires: such an entry can be live
at an earlier reading of the clock, and the import refuses it.
-/

open PromptCacheState

variable {numberText : Number → List Char} {sha256 : Bytes → Vector UInt8 32}

/-! ## Residents -/

def Keyed (numberText : Number → List Char) (sha256 : Bytes → Vector UInt8 32) (entry : PromptCacheEntry) : Prop :=
  isLowercaseSha256Hex entry.key = true ∧ digestRequest numberText sha256 entry.request = .ok entry.key

def Timely (entry : PromptCacheEntry) : Prop := entry.storedAtUnixMs < entry.expiresAtUnixMs

instance (entry : PromptCacheEntry) : Decidable (Timely entry) := inferInstanceAs (Decidable (_ < _))

theorem entrySound_iff {entry : PromptCacheEntry} :
    EntrySound numberText sha256 entry ↔ Keyed numberText sha256 entry ∧ Timely entry :=
  ⟨fun h => ⟨⟨h.shape, h.digest⟩, h.times⟩, fun h => ⟨h.1.1, h.2, h.1.2⟩⟩

theorem hexDigit_lowercase : ∀ n < 16, ('0' ≤ Canonical.hexDigit n ∧ Canonical.hexDigit n ≤ '9') ∨
    ('a' ≤ Canonical.hexDigit n ∧ Canonical.hexDigit n ≤ 'f') := by decide

theorem isLowercaseSha256Hex_toLowerHex (hash : Vector UInt8 32) :
    isLowercaseSha256Hex (toLowerHex hash.toList) = true := by
  have hlength : (hash.toList.flatMap fun b => [Canonical.hexDigit (b.toNat / 16), Canonical.hexDigit (b.toNat % 16)]).length
      = 64 := by
    rw [List.length_flatMap]
    simp
  unfold isLowercaseSha256Hex toLowerHex
  rw [Bool.and_eq_true, String.length_ofList, String.toList_ofList, hlength, List.all_eq_true]
  refine ⟨rfl, fun c hc => ?_⟩
  obtain ⟨b, -, hb⟩ := List.mem_flatMap.mp hc
  have hbyte := b.toNat_lt
  have hdigit : ∃ n < 16, c = Canonical.hexDigit n := by
    rcases List.mem_cons.mp hb with rfl | hb
    · exact ⟨_, by omega, rfl⟩
    · exact ⟨_, by omega, List.mem_singleton.mp hb⟩
  obtain ⟨n, hn, rfl⟩ := hdigit
  simpa using hexDigit_lowercase n hn

theorem keyed_of_digest {request : UnifiedRequest} {key : String}
    (h : digestRequest numberText sha256 request = .ok key) (entry : PromptCacheEntry) (hrequest : entry.request = request)
    (hkey : entry.key = key) : Keyed numberText sha256 entry := by
  subst hrequest hkey
  refine ⟨?_, h⟩
  unfold digestRequest at h
  split_ifs at h
  rw [← Except.ok.inj h]
  exact isLowercaseSha256Hex_toLowerHex _

def Every (P : PromptCacheEntry → Prop) (r : Reference) : Prop := ∀ entry ∈ r, P entry

def RankFree (P : PromptCacheEntry → Prop) : Prop := ∀ entry rank, P { entry with lruRank := rank } ↔ P entry

theorem Every.renumber {P : PromptCacheEntry → Prop} (hP : RankFree P) {r : Reference} :
    Every P (renumber r) ↔ Every P r := by
  have hmap := map_renumber P (fun entry rank => propext (hP entry rank)) r
  have hall (r : Reference) : Every P r ↔ ∀ p ∈ r.map P, p := by
    constructor
    · intro h p hp
      obtain ⟨entry, hentry, rfl⟩ := List.mem_map.mp hp
      exact h entry hentry
    · exact fun h entry hentry => h _ (List.mem_map_of_mem hentry)
  rw [hall, hall, hmap]

theorem every_step {P : PromptCacheEntry → Prop} (hP : RankFree P)
    (himport : ∀ entry, EntrySound numberText sha256 entry → P entry) {config : PromptCacheConfig} {call : Call}
    (hstore : ∀ now request response key, call = .insert now request response →
      digestRequest numberText sha256 request = .ok key → P ⟨key, request, response, now, config.expiresAt now, 0⟩)
    {r : Reference} (h : Every P r) : Every P (Reference.step numberText sha256 config r call).2 := by
  cases call with
  | lookup now key =>
    show Every P (r.lookup now key).2
    unfold Reference.lookup
    split
    · exact h
    · rename_i entry hfound
      have hwithout : Every P (r.without key) := fun e he => h e (List.mem_of_mem_filter he)
      split_ifs
      · exact hwithout
      · intro e he
        rcases List.mem_append.mp he with hold | hnew
        · exact hwithout e hold
        · exact List.mem_singleton.mp hnew ▸ h entry (List.mem_of_find?_eq_some hfound)
  | insert now request response =>
    show Every P (Reference.insert numberText sha256 config r now request response).2
    unfold Reference.insert
    split
    · exact h
    · rename_i key hkey
      intro e he
      rcases List.mem_append.mp (List.mem_of_mem_drop he) with hold | hnew
      · exact h e (List.mem_of_mem_filter (List.mem_of_mem_filter hold))
      · exact List.mem_singleton.mp hnew ▸ hstore now request response key rfl hkey
  | snapshotAt now => exact h
  | replaceSnapshotAt snapshot now =>
    show Every P (Reference.replaceSnapshotAt numberText sha256 config r snapshot now).2
    unfold Reference.replaceSnapshotAt
    split
    · exact h
    · rename_i hvalid
      refine (Every.renumber hP).mpr fun e he => ?_
      have hmem := (List.mem_insertionSort _).mp (List.mem_of_mem_drop he)
      exact himport e ((validateSnapshot_ok.mp hvalid).entries e (List.mem_of_mem_filter hmem))

theorem residents_keyed (config : PromptCacheConfig) (calls : List Call) :
    Every (Keyed numberText sha256) (run numberText sha256 config .empty calls).2.residents := by
  rw [(run_refines numberText sha256 config calls).2.residents]
  refine Simulation.run_invariant (I := Every (Keyed numberText sha256)) (fun r call h => ?_)
    (fun _ hentry => (List.not_mem_nil hentry).elim) calls
  refine every_step (fun _ _ => Iff.rfl) (fun entry hsound => (entrySound_iff.mp hsound).1) ?_ h
  intro now request response key _ hkey
  exact keyed_of_digest hkey _ rfl rfl

/-- The insertion outlives the reading of the clock. -/
def Call.Outlives (config : PromptCacheConfig) : Call → Prop
  | .insert now _ _ => now < config.expiresAt now
  | _ => True

theorem residents_timely (config : PromptCacheConfig) (calls : List Call) (h : ∀ call ∈ calls, call.Outlives config) :
    Every Timely (run numberText sha256 config .empty calls).2.residents := by
  rw [(run_refines numberText sha256 config calls).2.residents]
  refine Simulation.run_induction (I := Every Timely) (P := Call.Outlives config) (fun r call hcall hr => ?_)
    (fun _ hentry => (List.not_mem_nil hentry).elim) calls h
  refine every_step (fun _ _ => Iff.rfl) (fun entry hsound => (entrySound_iff.mp hsound).2) ?_ hr
  rintro now request response key rfl -
  exact hcall

theorem residents_keys_nodup (config : PromptCacheConfig) (calls : List Call) :
    ((run numberText sha256 config .empty calls).2.residents.map (·.key)).Nodup := by
  obtain ⟨slots, hmirrors, -, -⟩ := (run_refines numberText sha256 config calls).2
  rw [hmirrors.residents_eq, List.map_map]
  have hnames : slots.map (fun slot => slot.entry.key) = slots.map (·.key) := List.map_congr_left hmirrors.named
  show (slots.map fun slot => slot.entry.key).Nodup
  rw [hnames]
  exact hmirrors.keys_nodup

/-! ## Exports -/

def exported (live : List PromptCacheEntry) : PromptCacheSnapshot := (renumber live).insertionSort (·.key ≤ ·.key)

variable {live : List PromptCacheEntry}

theorem perm_exported : (exported live).Perm (renumber live) := List.perm_insertionSort _ _

theorem length_exported : (exported live).length = live.length := perm_exported.length_eq.trans (length_renumber live)

theorem every_exported {P : PromptCacheEntry → Prop} (hP : RankFree P) : Every P (exported live) ↔ Every P live := by
  refine Iff.trans ?_ (Every.renumber hP)
  exact forall_congr' fun entry => imp_congr_left perm_exported.mem_iff

/-- **The checks of an export**: only the times can fail. -/
theorem sound_exported (hkeyed : Every (Keyed numberText sha256) live) (hkeys : (live.map (·.key)).Nodup) :
    Sound numberText sha256 (exported live) ↔ Every Timely live := by
  rw [← every_exported (P := Timely) fun _ _ => Iff.rfl]
  constructor
  · intro h entry hentry
    exact (h.entries entry hentry).times
  · intro h
    refine ⟨fun entry hentry => entrySound_iff.mpr ⟨?_, h entry hentry⟩, ?_, ?_⟩
    · exact (every_exported (P := Keyed numberText sha256) fun _ _ => Iff.rfl).mpr hkeyed entry hentry
    · rw [(perm_exported.map _).nodup_iff, map_renumber _ fun _ _ => rfl]
      exact hkeys
    · rw [length_exported]
      exact (perm_exported.map _).trans (.of_eq (map_lruRank_renumber live))

theorem sort_exported {now : Nat} (hlive : ∀ entry ∈ live, now < entry.expiresAtUnixMs) :
    ((exported live).filter (now < ·.expiresAtUnixMs)).insertionSort (·.lruRank ≤ ·.lruRank) = renumber live := by
  have hall : (exported live).filter (now < ·.expiresAtUnixMs) = exported live := by
    refine List.filter_eq_self.mpr fun entry hentry => ?_
    simpa using (every_exported (P := fun e => now < e.expiresAtUnixMs) fun _ _ => Iff.rfl).mpr hlive entry hentry
  have hranks : ((renumber live).map (·.lruRank)).Nodup := by
    rw [map_lruRank_renumber]
    exact List.nodup_range
  have hsorted : (renumber live).Pairwise fun a b => a.lruRank ≤ b.lruRank := by
    have := List.pairwise_lt_range (n := live.length)
    rw [← map_lruRank_renumber, List.pairwise_map] at this
    exact this.imp le_of_lt
  have hperm := (List.perm_insertionSort (fun a b => a.lruRank ≤ b.lruRank) (exported live)).trans perm_exported
  rw [hall]
  refine hperm.eq_of_pairwise (fun a b ha hb hab hba => ?_) ?_ hsorted
  · exact List.inj_on_of_nodup_map hranks (hperm.mem_iff.mp ha) hb (Nat.le_antisymm hab hba)
  · have : Std.Total fun a b : PromptCacheEntry => a.lruRank ≤ b.lruRank := ⟨fun a b => Nat.le_total _ _⟩
    have : IsTrans PromptCacheEntry fun a b => a.lruRank ≤ b.lruRank := ⟨fun a b c => Nat.le_trans⟩
    exact List.pairwise_insertionSort _ _

theorem renumber_drop_renumber (entries : List PromptCacheEntry) (k : Nat) :
    renumber ((renumber entries).drop k) = renumber (entries.drop k) := by
  have hranked (entries : List PromptCacheEntry) :
      renumber entries = renumber (entries.map fun entry => { entry with lruRank := 0 }) := by
    unfold renumber
    rw [List.zipIdx_map, List.map_map]
    rfl
  rw [hranked, List.map_drop, map_renumber _ fun _ _ => rfl, ← List.map_drop, ← hranked]

/-! ## Imports -/

theorem import_exported {now : Nat} (hlive : ∀ entry ∈ live, now < entry.expiresAtUnixMs)
    (hsound : Sound numberText sha256 (exported live)) (other : PromptCacheConfig) (t : PromptCacheState) :
    (replaceSnapshotAt numberText sha256 other t (exported live) now).1 =
        .ok ⟨min live.length other.capacity, 0, live.length - other.capacity⟩ ∧
      (replaceSnapshotAt numberText sha256 other t (exported live) now).2.residents =
        renumber (live.drop (live.length - other.capacity)) := by
  have hkeys : ((renumber live).map (·.key)).Nodup := (perm_exported.map _).nodup_iff.mp hsound.keys
  have hstaged := stage_refines other hkeys
  unfold Reference.newest at hstaged
  rw [length_renumber, renumber_drop_renumber] at hstaged
  have hresidents := hstaged.residents
  obtain ⟨slots, hmirrors, -, -⟩ := hstaged
  have hlen := hmirrors.len_eq
  rw [← @List.length_map _ _ slots (·.entry), ← hmirrors.residents_eq, hresidents, length_renumber,
    List.length_drop] at hlen
  have himported : live.length - (live.length - other.capacity) = min live.length other.capacity := by omega
  unfold replaceSnapshotAt stageSnapshot
  rw [validateSnapshot_ok.mpr hsound, sort_exported hlive]
  simp only [length_renumber, renumber_drop_renumber, length_exported]
  exact ⟨by rw [hlen, himported, Nat.sub_self], hresidents⟩

/-- The export at `now` is imported by every cache: the report counts no expired entries and only the evictions the
capacity forces, the most recent live entries survive, and with room for all the export is the same. -/
def RoundTrips (numberText : Number → List Char) (sha256 : Bytes → Vector UInt8 32) (s : PromptCacheState) (now : Nat) :
    Prop :=
  ∀ (other : PromptCacheConfig) (t : PromptCacheState),
    let live := s.residents.filter (now < ·.expiresAtUnixMs)
    let imported := replaceSnapshotAt numberText sha256 other t (s.snapshotAt now) now
    imported.1 = .ok ⟨min live.length other.capacity, 0, live.length - other.capacity⟩ ∧
      imported.2.residents = renumber (live.drop (live.length - other.capacity)) ∧
      (live.length ≤ other.capacity → imported.2.snapshotAt now = s.snapshotAt now)

theorem roundTrips_iff {s : PromptCacheState} (hkeyed : Every (Keyed numberText sha256) s.residents)
    (hkeys : (s.residents.map (·.key)).Nodup) (now : Nat) :
    RoundTrips numberText sha256 s now ↔ Every Timely (s.residents.filter (now < ·.expiresAtUnixMs)) := by
  have hlive : ∀ entry ∈ s.residents.filter (now < ·.expiresAtUnixMs), now < entry.expiresAtUnixMs :=
    fun entry hentry => by simpa using (List.mem_filter.mp hentry).2
  have hkeyedLive : Every (Keyed numberText sha256) (s.residents.filter (now < ·.expiresAtUnixMs)) :=
    fun entry hentry => hkeyed entry (List.mem_of_mem_filter hentry)
  have hsound := sound_exported hkeyedLive (hkeys.sublist (List.filter_sublist.map _))
  unfold RoundTrips
  show (∀ other t, _) ↔ _
  constructor
  · intro h
    obtain ⟨hreport, -, -⟩ := h ⟨0, 0⟩ .empty
    refine hsound.mp (validateSnapshot_ok.mp ?_)
    unfold replaceSnapshotAt stageSnapshot at hreport
    cases hvalid : validateSnapshot numberText sha256 (s.snapshotAt now) with
    | error e =>
      rw [hvalid] at hreport
      cases hreport
    | ok u => exact hvalid
  · intro htimely other t
    obtain ⟨hreport, hresidents⟩ := import_exported hlive (hsound.mpr htimely) other t
    refine ⟨hreport, hresidents, fun hroom => ?_⟩
    show exported (List.filter _ (replaceSnapshotAt numberText sha256 other t (exported _) now).2.residents) = exported _
    rw [hresidents, Nat.sub_eq_zero_of_le hroom, List.drop_zero]
    generalize s.residents.filter (now < ·.expiresAtUnixMs) = live at hlive
    have hall : (renumber live).filter (now < ·.expiresAtUnixMs) = renumber live := by
      refine List.filter_eq_self.mpr fun entry hentry => ?_
      simpa using (Every.renumber (P := fun e => now < e.expiresAtUnixMs) fun _ _ => Iff.rfl).mpr hlive entry hentry
    have htwice : renumber (renumber live) = renumber live := renumber_drop_renumber live 0
    unfold exported
    rw [hall, htwice]

/-- **Export and import**: a reachable state's export is imported, and gives the same export, exactly if its live entries
are timely. They are where every insertion outlives its reading of the clock. An unsound snapshot is refused and changes
nothing. -/
theorem snapshot_round_trip (numberText : Number → List Char) (sha256 : Bytes → Vector UInt8 32)
    (config : PromptCacheConfig) (calls : List Call) :
    let s := (run numberText sha256 config .empty calls).2
    (∀ now, RoundTrips numberText sha256 s now ↔ Every Timely (s.residents.filter (now < ·.expiresAtUnixMs))) ∧
      ((∀ call ∈ calls, call.Outlives config) → ∀ now, RoundTrips numberText sha256 s now) ∧
      ∀ (other : PromptCacheConfig) (t : PromptCacheState) (snapshot : PromptCacheSnapshot) (now : Nat),
        ¬ Sound numberText sha256 snapshot → ∃ e, replaceSnapshotAt numberText sha256 other t snapshot now = (.error e, t) := by
  intro s
  have hiff := roundTrips_iff (@residents_keyed numberText sha256 config calls)
    (residents_keys_nodup config calls)
  refine ⟨hiff, fun h now => (hiff now).mpr fun entry hentry => ?_, fun other t snapshot now hunsound => ?_⟩
  · exact residents_timely config calls h entry (List.mem_of_mem_filter hentry)
  · unfold replaceSnapshotAt stageSnapshot
    cases hvalid : validateSnapshot numberText sha256 snapshot with
    | error e => exact ⟨e, rfl⟩
    | ok u => exact absurd (validateSnapshot_ok.mp hvalid) hunsound

def plainRequest : UnifiedRequest := ⟨"m", .openAi, [], none, none, false, none, [], .disabled⟩

def plainResponse : UnifiedResponse := ⟨"m", .openAi, 0, 0, 0, none, [], none, none⟩

/-- An entry stored at the last reading of the clock is live at an earlier one, and its export is refused. -/
theorem late_entry_refused :
    ¬ RoundTrips (fun _ => []) (fun _ => Vector.replicate 32 0)
      (run (fun _ => []) (fun _ => Vector.replicate 32 0) ⟨1, 10 ^ 6⟩ .empty
        [.insert u64Max plainRequest plainResponse]).2 0 := by
  rw [roundTrips_iff (residents_keyed _ _) (residents_keys_nodup _ _),
    (run_refines (fun _ => []) (fun _ => Vector.replicate 32 0) ⟨1, 10 ^ 6⟩ _).2.residents]
  have hresident : (Reference.run (fun _ => []) (fun _ => Vector.replicate 32 0) ⟨1, 10 ^ 6⟩ []
      [.insert u64Max plainRequest plainResponse]).2 =
      [⟨toLowerHex (List.replicate 32 0), plainRequest, plainResponse, u64Max, u64Max, 0⟩] := by rfl
  rw [hresident]
  intro h
  have htimely := h _ (List.mem_filter.mpr ⟨List.mem_singleton_self _, by decide⟩)
  exact Nat.lt_irrefl _ htimely

end Cuca.PromptCache
