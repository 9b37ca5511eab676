import Cuca.Services.VectorStore
import Mathlib.Algebra.Ring.Int.Defs

/-!
# The store holds the newest turns

Over any batches, accepted or refused, the entries are the last of the turns that were accepted, each with the vector that was
given for it.

* `accepted` : the turns of a batch, with their vectors; `run` : the store after a run, with the turns that were accepted;
* `Keeps` : what the entries show, the slots, and the counters;
* `commitTurn_keeps`, `storeTurns_keeps` : each turn, and each batch, keeps it;
* `holds_newest` : after a run.
-/

namespace Cuca.Services.VectorStore
open Arena

/-- A turn that was accepted, with its vector and whether its norm is zero; of too many turns, the first are given none. -/
structure Accepted (F : Type) where
  message : UnifiedMessage
  sessionHint : String
  given : Option (List F × Bool)

namespace InMemoryVectorStore
variable {F : Type} (p : InMemoryVectorStore F)

/-- The turns that a batch adds to those accepted. -/
def accepted (b : Batch F) : List (Accepted F) :=
  let skipped := b.turns.length - p.config.maxEntries
  (b.turns.take skipped).map (fun turn => ⟨turn, b.sessionHint, none⟩) ++
    (b.turns.drop skipped).mapIdx fun call turn => ⟨turn, b.sessionHint, (p.embedTurn b.embed call turn).toOption⟩

/-- A batch, and what it adds where it is accepted. -/
def step (state : StoreState F × List (Accepted F)) (b : Batch F) : StoreState F × List (Accepted F) :=
  match p.storeTurns b state.1 with
  | (s, .ok ()) => (s, state.2 ++ p.accepted b)
  | (s, .error _) => (s, state.2)

def run (batches : List (Batch F)) : StoreState F × List (Accepted F) := batches.foldl p.step (.new F, [])

def vectorOf (s : StoreState F) (e : StoredTurn) : List F := row p.config.dimensions s.arena e.slot

def shown (s : StoreState F) (e : StoredTurn) : Accepted F := ⟨e.message, e.sessionHint, some (p.vectorOf s e, e.zeroNorm)⟩

/-- The entries show these turns, of so many that were accepted. -/
structure Keeps (s : StoreState F) (live : List (Accepted F)) (count : Nat) : Prop where
  shown : s.entries.map (p.shown s) = live
  slots : (s.entries.map StoredTurn.slot).Nodup
  within : ∀ e ∈ s.entries, e.slot < s.entries.length
  arena : s.arena.length = s.entries.length * p.config.dimensions
  accounts : s.evicted + s.entries.length = count
  zeros : s.zeroNorm = s.entries.countP StoredTurn.zeroNorm

variable {p}

theorem keeps_new (p : InMemoryVectorStore F) : p.Keeps (.new F) [] 0 where
  shown := rfl
  slots := List.nodup_nil
  within := fun _ h => absurd h List.not_mem_nil
  arena := (Nat.zero_mul _).symm
  accounts := rfl
  zeros := rfl

theorem Keeps.length {s : StoreState F} {live : List (Accepted F)} {count : Nat} (h : p.Keeps s live count) :
    live.length = s.entries.length := by
  rw [← h.shown, List.length_map]

theorem Keeps.bounds {s : StoreState F} {live : List (Accepted F)} {count : Nat} (h : p.Keeps s live count) {e : StoredTurn}
    (he : e ∈ s.entries) : e.slot * p.config.dimensions + p.config.dimensions ≤ s.arena.length := by
  rw [h.arena, ← Nat.succ_mul]
  exact Nat.mul_le_mul_right _ (h.within e he)

theorem commitTurn_full {s : StoreState F} {victim : StoredTurn} {rest : List StoredTurn} (hentries : s.entries = victim :: rest)
    (hfull : s.entries.length ≥ p.config.maxEntries) (hint : String) (vector : List F) (turn : UnifiedMessage) (zeroNorm : Bool) :
    p.commitTurn hint vector turn zeroNorm s =
      let zeroNorms := if victim.zeroNorm then s.zeroNorm - 1 else s.zeroNorm
      ⟨rest ++ [⟨turn, victim.slot, zeroNorm, s.nextSequence, hint⟩],
        writeRow p.config.dimensions s.arena victim.slot vector, s.nextSequence + 1, s.evicted + 1,
        if zeroNorm then zeroNorms + 1 else zeroNorms⟩ := by
  unfold commitTurn
  rw [hentries] at hfull
  simp only [hentries, if_pos hfull, List.head?_cons, List.tail_cons]

theorem commitTurn_room {s : StoreState F} (hroom : ¬s.entries.length ≥ p.config.maxEntries) (hint : String) (vector : List F)
    (turn : UnifiedMessage) (zeroNorm : Bool) : p.commitTurn hint vector turn zeroNorm s =
      ⟨s.entries ++ [⟨turn, s.arena.length / p.config.dimensions, zeroNorm, s.nextSequence, hint⟩], s.arena ++ vector,
        s.nextSequence + 1, s.evicted, if zeroNorm then s.zeroNorm + 1 else s.zeroNorm⟩ := by
  unfold commitTurn
  simp only [if_neg hroom]

theorem countP_zeroNorm_append (entries : List StoredTurn) (e : StoredTurn) :
    (entries ++ [e]).countP StoredTurn.zeroNorm =
      if e.zeroNorm then entries.countP StoredTurn.zeroNorm + 1 else entries.countP StoredTurn.zeroNorm := by
  rw [List.countP_append, List.countP_singleton]
  split_ifs
  · rfl
  · rfl

/-- **A turn that is committed** goes behind the others; the first of them goes where the store is full. -/
theorem commitTurn_keeps (hmax : 0 < p.config.maxEntries) (hwidth : 0 < p.config.dimensions) {s : StoreState F}
    {live : List (Accepted F)} {count : Nat} (h : p.Keeps s live count) (hlive : live.length ≤ p.config.maxEntries)
    {vector : List F} (hvector : vector.length = p.config.dimensions) (hint : String) (turn : UnifiedMessage) (zeroNorm : Bool) :
    p.Keeps (p.commitTurn hint vector turn zeroNorm s)
      ((live ++ [Accepted.mk turn hint (some (vector, zeroNorm))]).rtake p.config.maxEntries) (count + 1) := by
  have hlength := h.length
  by_cases hfull : s.entries.length ≥ p.config.maxEntries
  · rcases hentries : s.entries with _ | ⟨victim, rest⟩
    · rw [hentries] at hfull
      exact absurd hfull (Nat.not_le.mpr hmax)
    · have hvictim : victim ∈ s.entries := hentries ▸ List.mem_cons_self
      have hbound := h.bounds hvictim
      have hrest {e : StoredTurn} (he : e ∈ rest) : e ∈ s.entries := hentries ▸ List.mem_cons_of_mem _ he
      have hslots := h.slots
      rw [hentries, List.map_cons, List.nodup_cons] at hslots
      have hsize : s.entries.length = rest.length + 1 := congrArg List.length hentries
      rw [commitTurn_full hentries hfull]
      constructor
      · rw [List.map_append, List.map_singleton, ← h.shown, hentries, List.map_cons, List.cons_append, List.rtake]
        rw [show ((p.shown s victim :: (rest.map (p.shown s) ++ [_])).length - p.config.maxEntries) = 1 by
          simp only [List.length_cons, List.length_append, List.length_map, List.length_nil]
          omega, List.drop_one, List.tail_cons]
        congr 1
        · apply List.map_congr_left
          intro e he
          have hne : e.slot ≠ victim.slot := fun heq => hslots.1 (heq ▸ List.mem_map_of_mem he)
          rw [shown, shown, vectorOf, vectorOf, row_writeRow_of_ne hbound (h.bounds (hrest he)) hvector hne]
        · rw [shown, vectorOf, row_writeRow hbound hvector]
      · rw [List.map_append, List.map_singleton, List.perm_append_comm.nodup_iff, List.singleton_append, List.nodup_cons]
        exact hslots
      · intro e he
        rw [List.length_append, List.length_singleton, ← hsize]
        rcases List.mem_append.mp he with hold | hnew
        · exact h.within e (hrest hold)
        · rw [List.mem_singleton.mp hnew]
          exact h.within victim hvictim
      · rw [length_writeRow hbound hvector, h.arena, List.length_append, List.length_singleton, hsize]
      · have haccounts := h.accounts
        rw [List.length_append, List.length_singleton]
        dsimp only
        omega
      · have hzeros := h.zeros
        rw [hentries, List.countP_cons] at hzeros
        rw [countP_zeroNorm_append]
        dsimp only
        split_ifs at hzeros ⊢ <;> omega
  · have hslot : s.arena.length / p.config.dimensions = s.entries.length := by rw [h.arena, Nat.mul_div_cancel _ hwidth]
    rw [commitTurn_room hfull, hslot]
    constructor
    · rw [rtake_of_length_le (by rw [List.length_append, List.length_singleton]; omega), List.map_append, List.map_singleton,
        ← h.shown]
      congr 1
      · apply List.map_congr_left
        intro e he
        rw [shown, shown, vectorOf, vectorOf, row_append (h.bounds he)]
      · rw [shown, vectorOf, row_append_new h.arena hvector]
    · rw [List.map_append, List.map_singleton, List.perm_append_comm.nodup_iff, List.singleton_append, List.nodup_cons]
      refine ⟨fun hmem => ?_, h.slots⟩
      obtain ⟨e, he, heq⟩ := List.mem_map.mp hmem
      exact absurd (h.within e he) (by rw [heq]; exact Nat.lt_irrefl _)
    · intro e he
      rw [List.length_append, List.length_singleton]
      rcases List.mem_append.mp he with hold | hnew
      · exact Nat.lt_succ_of_lt (h.within e hold)
      · rw [List.mem_singleton.mp hnew]
        exact Nat.lt_succ_self _
    · rw [List.length_append, List.length_append, List.length_singleton, h.arena, hvector, Nat.succ_mul]
    · have haccounts := h.accounts
      rw [List.length_append, List.length_singleton]
      dsimp only
      omega
    · rw [countP_zeroNorm_append, ← h.zeros]

/-! ## Batches -/

theorem embedTurn_ok {embed : Nat → String → Except PluginError (List F)} {call : Nat} {turn : UnifiedMessage} {vector : List F}
    {zeroNorm : Bool} (h : p.embedTurn embed call turn = .ok (vector, zeroNorm)) :
    vector.length = p.config.dimensions ∧ ∃ source, p.normalizer.run source = .ok (vector, !zeroNorm) := by
  rw [embedTurn] at h
  split at h
  · exact nomatch h
  · rename_i source _
    by_cases hwidth : source.length ≠ p.config.dimensions
    · rw [checkWidth, if_pos hwidth] at h
      exact nomatch h
    · rw [checkWidth, if_neg hwidth] at h
      dsimp only at h
      split at h
      · exact nomatch h
      · rename_i normalized nonzero hrun
        obtain ⟨rfl, rfl⟩ := Prod.mk.inj (Except.ok.inj h)
        refine ⟨(p.normalizer.inPlace hrun).trans (not_not.mp hwidth), source, ?_⟩
        rw [Bool.not_not]
        exact hrun

theorem commit_keeps (hmax : 0 < p.config.maxEntries) (hwidth : 0 < p.config.dimensions)
    {embed : Nat → String → Except PluginError (List F)} {call index : Nat} {turns : List UnifiedMessage} {before staged : List F}
    {pending : List (UnifiedMessage × Bool)} (hstage : p.stage embed call turns = .ok (staged, pending))
    (hbefore : before.length = index * p.config.dimensions) {s : StoreState F} {live : List (Accepted F)} {count : Nat}
    (h : p.Keeps s live count) (hlive : live.length ≤ p.config.maxEntries) (hint : String) :
    p.Keeps (p.commit hint (before ++ staged) index pending s)
      ((live ++ turns.mapIdx fun i turn => Accepted.mk turn hint (p.embedTurn embed (call + i) turn).toOption).rtake
        p.config.maxEntries) (count + turns.length) := by
  induction turns generalizing call index before staged pending s live count with
  | nil =>
    obtain ⟨rfl, rfl⟩ := Prod.mk.inj (Except.ok.inj hstage)
    rw [List.mapIdx_nil, List.append_nil, List.append_nil, rtake_of_length_le hlive]
    exact h
  | cons turn turns ih =>
    rw [stage] at hstage
    rcases hturn : p.embedTurn embed call turn with e | ⟨vector, zeroNorm⟩
    · rw [hturn] at hstage
      exact nomatch hstage
    rw [hturn] at hstage
    dsimp only at hstage
    split at hstage
    · exact nomatch hstage
    · rename_i later restPending hrest
      obtain ⟨rfl, rfl⟩ := Prod.mk.inj (Except.ok.inj hstage)
      obtain ⟨hvector, _⟩ := embedTurn_ok hturn
      have hindex : (before ++ vector).length = (index + 1) * p.config.dimensions := by
        rw [List.length_append, hbefore, hvector, Nat.succ_mul]
      have hrow : row p.config.dimensions (before ++ (vector ++ later)) index = vector := by
        rw [← List.append_assoc, row_append (by rw [hindex, Nat.succ_mul]), row_append_new hbefore hvector]
      have hfirst := commitTurn_keeps hmax hwidth h hlive hvector hint turn zeroNorm
      have hnext := ih hrest hindex hfirst (by rw [length_rtake]; exact Nat.min_le_left _ _)
      rw [rtake_rtake_append, List.append_assoc, List.append_assoc, Nat.add_assoc, Nat.add_comm 1] at hnext
      have hhead : p.embedTurn embed (call + 0) turn = .ok (vector, zeroNorm) := hturn
      rw [commit, hrow, List.mapIdx_cons, hhead, List.length_cons]
      have hcalls : (fun i turn => Accepted.mk turn hint (p.embedTurn embed (call + (i + 1)) turn).toOption) =
          fun i turn => Accepted.mk turn hint (p.embedTurn embed (call + 1 + i) turn).toOption := by
        funext i turn
        rw [Nat.add_assoc, Nat.add_comm 1]
      rw [hcalls]
      exact hnext

/-- **A batch**: its turns go behind the others where it is accepted; nothing changes where it is refused. -/
theorem storeTurns_keeps (hmax : 0 < p.config.maxEntries) (hwidth : 0 < p.config.dimensions) (b : Batch F) {s : StoreState F}
    {log : List (Accepted F)} (h : p.Keeps s (log.rtake p.config.maxEntries) log.length) :
    p.Keeps (p.step (s, log) b).1 ((p.step (s, log) b).2.rtake p.config.maxEntries) (p.step (s, log) b).2.length := by
  rw [step, storeTurns]
  split_ifs with hempty
  · have hnone : p.accepted b = [] := by
      rw [accepted, List.isEmpty_iff.mp hempty, List.take_nil, List.drop_nil]
      rfl
    dsimp only
    rw [hnone, List.append_nil]
    exact h
  · rcases p.checkSizes b.turns with e | _
    · exact h
    · dsimp only
      rcases hstage : p.stage b.embed 0 (b.turns.drop (b.turns.length - p.config.maxEntries)) with e | ⟨staged, pending⟩
      · exact h
      · dsimp only
        generalize hskipped : b.turns.length - p.config.maxEntries = skipped at hstage
        have hcounted : p.Keeps { s with evicted := s.evicted + skipped } (log.rtake p.config.maxEntries) (log.length + skipped) :=
          { h with accounts := (Nat.add_right_comm _ _ _).trans (congrArg (· + skipped) h.accounts) }
        have hstart : ([] : List F).length = 0 * p.config.dimensions := (Nat.zero_mul _).symm
        have hkept := commit_keeps hmax hwidth hstage hstart hcounted (by rw [length_rtake]; exact Nat.min_le_left _ _)
          b.sessionHint
        simp only [List.nil_append, Nat.zero_add, rtake_rtake_append] at hkept
        rw [accepted]
        simp only [hskipped]
        generalize hheads : (b.turns.take skipped).map (fun turn => Accepted.mk turn b.sessionHint none) = heads
        generalize hnewest : (b.turns.drop skipped).mapIdx (fun call turn =>
          Accepted.mk turn b.sessionHint (p.embedTurn b.embed call turn).toOption) = newest at hkept ⊢
        have hfirst : heads.length = skipped := by
          rw [← hheads, List.length_map, List.length_take_of_le (by omega)]
        have hlast : newest.length = b.turns.length - skipped := by
          rw [← hnewest, List.length_mapIdx, List.length_drop]
        have hcount : (log ++ (heads ++ newest)).length = log.length + skipped + (b.turns.drop skipped).length := by
          rw [List.length_append, List.length_append, hfirst, hlast, List.length_drop, Nat.add_assoc]
        have hlive : (log ++ (heads ++ newest)).rtake p.config.maxEntries = (log ++ newest).rtake p.config.maxEntries := by
          rcases Nat.eq_zero_or_pos skipped with hzero | hpos
          · rw [List.length_eq_zero_iff.mp (hfirst.trans hzero), List.nil_append]
          · rw [← List.append_assoc, rtake_append_of_le (by omega), rtake_append_of_le (by omega)]
        rw [hcount, hlive]
        exact hkept

theorem storeTurns_refused {b : Batch F} {s : StoreState F} {e : PluginError} (h : (p.storeTurns b s).2 = .error e) :
    (p.storeTurns b s).1 = s := by
  rw [storeTurns] at h ⊢
  by_cases hempty : b.turns.isEmpty = true
  · rw [if_pos hempty]
  · rw [if_neg hempty] at h ⊢
    rcases hsizes : p.checkSizes b.turns with e' | ⟨⟩
    · rfl
    · rw [hsizes] at h
      dsimp only at h ⊢
      rcases hstage : p.stage b.embed 0 (b.turns.drop (b.turns.length - p.config.maxEntries)) with e' | ⟨staged, pending⟩
      · rfl
      · rw [hstage] at h
        exact nomatch h

/-! ## Runs -/

theorem run_keeps (hmax : 0 < p.config.maxEntries) (hwidth : 0 < p.config.dimensions) (batches : List (Batch F)) :
    p.Keeps (p.run batches).1 ((p.run batches).2.rtake p.config.maxEntries) (p.run batches).2.length := by
  induction batches using List.reverseRecOn with
  | nil =>
    have hnew : p.run [] = (.new F, []) := rfl
    rw [hnew, List.rtake_nil]
    exact keeps_new p
  | append_singleton batches b ih =>
    rw [run, List.foldl_concat]
    exact storeTurns_keeps hmax hwidth b ih

theorem validate_ok {config : VectorStoreConfig} (h : config.validate = .ok ()) :
    0 < config.maxEntries ∧ 0 < config.dimensions := by
  rw [VectorStoreConfig.validate] at h
  dsimp only at h
  split_ifs at h with hentries hdimensions
  exact ⟨Nat.pos_of_ne_zero hentries, Nat.pos_of_ne_zero hdimensions⟩

theorem given_of_mem {batches : List (Batch F)} {t : Accepted F} (ht : t ∈ (p.run batches).2) {vector : List F}
    {zeroNorm : Bool} (hgiven : t.given = some (vector, zeroNorm)) :
    ∃ source, p.normalizer.run source = .ok (vector, !zeroNorm) := by
  induction batches using List.reverseRecOn with
  | nil => exact absurd ht List.not_mem_nil
  | append_singleton batches b ih =>
    rw [run, List.foldl_concat, step] at ht
    have hadded : t ∈ p.accepted b → ∃ source, p.normalizer.run source = .ok (vector, !zeroNorm) := by
      intro hnew
      rw [accepted, List.mem_append, List.mem_map, List.mem_mapIdx] at hnew
      rcases hnew with ⟨turn, _, rfl⟩ | ⟨call, _, rfl⟩
      · exact nomatch hgiven
      · dsimp only at hgiven
        rcases hturn : p.embedTurn b.embed call (b.turns.drop (b.turns.length - p.config.maxEntries))[call] with e | found
        · rw [hturn] at hgiven
          exact nomatch hgiven
        · rw [hturn] at hgiven
          obtain rfl : found = (vector, zeroNorm) := Option.some.inj hgiven
          exact (embedTurn_ok hturn).2
    split at ht
    · exact (List.mem_append.mp ht).elim ih hadded
    · exact ih ht

/-- **The store holds the newest turns**: as many as it has room for, in the order in which they were accepted, each bound by
its own slot to the vector that was given for it; what was evicted and what is live are the turns that were accepted, the
zero norms are counted, and what is refused changes nothing. -/
theorem holds_newest (hvalid : p.config.validate = .ok ()) (batches : List (Batch F)) :
    let s := (p.run batches).1
    let live := (p.run batches).2.rtake p.config.maxEntries
    s.entries.map (p.shown s) = live ∧ (s.entries.map StoredTurn.slot).Nodup ∧
      s.evicted + s.entries.length = (p.run batches).2.length ∧
      s.zeroNorm = live.countP (fun t => t.given.any Prod.snd) ∧
      (∀ isZeroRow : List F → Bool, (∀ source vector nonzero, p.normalizer.run source = .ok (vector, nonzero) →
        isZeroRow vector = !nonzero) → s.zeroNorm = s.entries.countP fun e => isZeroRow (p.vectorOf s e)) ∧
      ∀ b e, (p.storeTurns b s).2 = .error e → (p.storeTurns b s).1 = s := by
  obtain ⟨hmax, hwidth⟩ := validate_ok hvalid
  have h := run_keeps hmax hwidth batches
  refine ⟨h.shown, h.slots, h.accounts, ?_, fun isZeroRow hzero => ?_, fun b e => storeTurns_refused⟩
  · rw [← h.shown, List.countP_map, h.zeros]
    rfl
  · rw [h.zeros]
    apply List.countP_congr
    intro e he
    have hmem : p.shown (p.run batches).1 e ∈ (p.run batches).2.rtake p.config.maxEntries :=
      h.shown ▸ List.mem_map_of_mem he
    obtain ⟨source, hsource⟩ := given_of_mem (List.mem_of_mem_drop hmem) rfl
    rw [hzero source _ _ hsource, Bool.not_not]

/-- Room for two turns of one component; `1.0` and `0.0` as integers. -/
def roomForTwo : InMemoryVectorStore Int where
  config := ⟨2, 1, 100⟩
  normalizer := VectorStore.normalizer ⟨0, fun _ => true, (· == 0), fun a b => (List.zipWith (· * ·) a b).sum, fun _ => 1, (· * ·), toString⟩
  jsonLength := fun _ => 2

/-- Three turns, the last of zero norm. -/
def threeTurns : Batch Int where
  sessionHint := "s"
  turns := [⟨.user, [.text "a"], none, none⟩, ⟨.user, [.text "b"], none, none⟩, ⟨.user, [.text "c"], none, none⟩]
  embed := fun _ text => .ok [if text = "c" then 0 else 1]

theorem holds_newest_evicting :
    let s := (roomForTwo.run [threeTurns]).1
    s.entries.map (roomForTwo.shown s) =
        [⟨⟨.user, [.text "b"], none, none⟩, "s", some ([1], false)⟩, ⟨⟨.user, [.text "c"], none, none⟩, "s", some ([0], true)⟩] ∧
      s.evicted + s.entries.length = 3 ∧ s.zeroNorm = 1 := by
  obtain ⟨hshown, _, haccounts, hzeros, _⟩ := holds_newest (p := roomForTwo) rfl [threeTurns]
  exact ⟨hshown, haccounts, hzeros⟩

end InMemoryVectorStore

end Cuca.Services.VectorStore
