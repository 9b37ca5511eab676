import Cuca.Services.Dispatch
import Mathlib.Tactic.Ring

/-!
# Where calls are placed

Which backend a call goes to, and which waiting call a rebalance moves.

* `Load.strictWeak` : being lighter is a strict weak order, whose least class are the idle loads;
* `pick_iff`, `pick_none` : a call goes to the first backend that none is lighter than;
* `move_takes_longest_iff` : a move takes the call that has waited longest exactly where that call has the biggest value.
-/

namespace Cuca.Services
open Selection

/-! ## Loads -/

namespace Load

/-- Where the products of `isLighterThan` fit a `u128`. -/
structure Bounded (l : Load) : Prop where
  level : l.level ≤ 64
  product : l.calls * l.paceMs * 64 < 2 ^ 128

theorem Bounded.no_overflow {a b : Load} (ha : a.Bounded) (hb : b.Bounded) :
    a.calls * a.paceMs < 2 ^ 128 ∧ a.calls * a.paceMs * max b.level 1 < 2 ^ 128 := by
  have hlevel : max b.level 1 ≤ 64 := Nat.max_le.mpr ⟨hb.level, by decide⟩
  have hproduct := ha.product
  have hle : a.calls * a.paceMs * max b.level 1 ≤ a.calls * a.paceMs * 64 := Nat.mul_le_mul_left _ hlevel
  omega

theorem isLighterThan_iff {a b : Load} : a.isLighterThan b = true ↔
    a.calls = 0 ∧ 0 < b.calls ∨ (a.calls = 0 ↔ b.calls = 0) ∧ a.calls * a.paceMs * max b.level 1 < b.calls * b.paceMs * max a.level 1 := by
  unfold isLighterThan
  split
  · rename_i hidle
    exact ⟨fun _ => .inl hidle, fun _ => rfl⟩
  · rename_i hnot
    split
    · rename_i hbusy
      refine ⟨fun h => (nomatch h), fun h => ?_⟩
      omega
    · rename_i hnot'
      have hsame : a.calls = 0 ↔ b.calls = 0 := by omega
      rw [decide_eq_true_iff]
      exact ⟨fun h => .inr ⟨hsame, h⟩, fun h => (h.resolve_left hnot).2⟩

theorem incomparable_iff {a b : Load} : (a.isLighterThan b = false ∧ b.isLighterThan a = false) ↔
    (a.calls = 0 ↔ b.calls = 0) ∧ a.calls * a.paceMs * max b.level 1 = b.calls * b.paceMs * max a.level 1 := by
  rw [← Bool.not_eq_true, ← Bool.not_eq_true, isLighterThan_iff, isLighterThan_iff]
  generalize a.calls * a.paceMs * max b.level 1 = left
  generalize b.calls * b.paceMs * max a.level 1 = right
  omega

theorem ratio_lt_trans {wa wb wc la lb lc : Nat} (hc : 0 < lc) (ha : 0 < la) (hab : wa * lb < wb * la) (hbc : wb * lc < wc * lb) :
    wa * lc < wc * la := by
  apply Nat.lt_of_mul_lt_mul_right (a := lb)
  calc wa * lc * lb = wa * lb * lc := by ring
    _ < wb * la * lc := Nat.mul_lt_mul_of_pos_right hab hc
    _ = wb * lc * la := by ring
    _ < wc * lb * la := Nat.mul_lt_mul_of_pos_right hbc ha
    _ = wc * la * lb := by ring

theorem ratio_eq_trans {wa wb wc la lb lc : Nat} (hb : 0 < lb) (hab : wa * lb = wb * la) (hbc : wb * lc = wc * lb) :
    wa * lc = wc * la := by
  apply Nat.eq_of_mul_eq_mul_right hb
  calc wa * lc * lb = wa * lb * lc := by ring
    _ = wb * lc * la := by rw [hab]; ring
    _ = wc * la * lb := by rw [hbc]; ring

theorem level_pos (l : Load) : 0 < max l.level 1 := Nat.lt_of_lt_of_le Nat.one_pos (Nat.le_max_right _ _)

/-- **Being lighter is a strict weak order.** -/
theorem strictWeak : StrictWeak isLighterThan := by
  refine ⟨fun a => ?_, fun a b c hab hbc => ?_, fun a b c hab hba hbc hcb => ?_⟩
  · exact (incomparable_iff.mpr ⟨Iff.rfl, rfl⟩).1
  · rw [isLighterThan_iff] at *
    obtain ⟨ha, hb⟩ | ⟨hab, hlt⟩ := hab
    · obtain ⟨hb', -⟩ | ⟨hbc, -⟩ := hbc
      · omega
      · exact .inl ⟨ha, by omega⟩
    · obtain ⟨hb, hc⟩ | ⟨hbc, hlt'⟩ := hbc
      · exact .inl ⟨by omega, hc⟩
      · exact .inr ⟨hab.trans hbc, ratio_lt_trans c.level_pos a.level_pos hlt hlt'⟩
  · obtain ⟨hidle, heq⟩ := incomparable_iff.mp ⟨hab, hba⟩
    obtain ⟨hidle', heq'⟩ := incomparable_iff.mp ⟨hbc, hcb⟩
    exact incomparable_iff.mpr ⟨hidle.trans hidle', ratio_eq_trans b.level_pos heq heq'⟩

theorem idle_least {a : Load} (h : a.calls = 0) (b : Load) :
    (0 < b.calls → a.isLighterThan b = true ∧ b.isLighterThan a = false) ∧
      (b.calls = 0 → a.isLighterThan b = false ∧ b.isLighterThan a = false) := by
  constructor
  · intro hbusy
    refine ⟨isLighterThan_iff.mpr (.inl ⟨h, hbusy⟩), ?_⟩
    rw [← Bool.not_eq_true, isLighterThan_iff]
    omega
  · intro hidle
    apply incomparable_iff.mpr
    simp [h, hidle]

end Load

/-! ## The choice of a backend -/

section Pick
variable (admits : Nat → Bool) (loads : Nat → Load) (tried : List Nat) (count : Nat)

/-- A position that admits the call and has not been tried. -/
structure Candidate (position : Nat) : Prop where
  listed : position < count
  untried : position ∉ tried
  admitted : admits position = true

/-- A candidate that no candidate is lighter than. -/
structure Lightest (position : Nat) : Prop where
  candidate : Candidate admits tried count position
  least : ∀ other, Candidate admits tried count other → (loads other).isLighterThan (loads position) = false

def candidates : List Nat := (List.range count).filter fun position => !(decide (position ∈ tried) || !admits position)

variable {admits loads tried count}

theorem mem_candidates {position : Nat} : position ∈ candidates admits tried count ↔ Candidate admits tried count position := by
  unfold candidates
  rw [List.mem_filter, List.mem_range]
  constructor
  · rintro ⟨hlt, hcandidate⟩
    have hboth : position ∉ tried ∧ admits position = true := by simpa using hcandidate
    exact ⟨hlt, hboth.1, hboth.2⟩
  · rintro ⟨hlt, huntried, hadmitted⟩
    exact ⟨hlt, by simp [huntried, hadmitted]⟩

theorem candidates_sorted : (candidates admits tried count).Pairwise (· < ·) :=
  List.Pairwise.filter _ List.pairwise_lt_range

/-- **A call goes by a scan of the candidates** for the first of the lightest. -/
theorem pick_eq : pick admits loads tried count =
    firstLeast (fun i j => (loads i).isLighterThan (loads j)) (candidates admits tried count) := by
  unfold pick candidates firstLeast
  rw [List.foldl_filter]
  congr 1
  funext best position
  by_cases hskip : position ∈ tried ∨ !admits position
  · have hfalse : (!(decide (position ∈ tried) || !admits position)) = false := by
      rw [Bool.not_eq_false', Bool.or_eq_true, decide_eq_true_iff]
      exact hskip
    rw [if_pos hskip, hfalse, if_neg Bool.false_ne_true]
  · have htrue : (!(decide (position ∈ tried) || !admits position)) = true := by simpa using hskip
    rw [if_neg hskip, htrue, if_pos rfl]
    cases best <;> rfl

theorem strictWeak_loads : StrictWeak fun i j => (loads i).isLighterThan (loads j) :=
  ⟨fun i => Load.strictWeak.irrefl (loads i), fun i j l => Load.strictWeak.trans (loads i) (loads j) (loads l),
    fun i j l => Load.strictWeak.incomparable (loads i) (loads j) (loads l)⟩

theorem pick_none : pick admits loads tried count = none ↔ ∀ position, ¬Candidate admits tried count position := by
  rw [pick_eq, firstLeast_eq_none_iff, List.eq_nil_iff_forall_not_mem]
  exact forall_congr' fun position => not_congr mem_candidates

theorem pick_lightest {position : Nat} (h : pick admits loads tried count = some position) :
    Lightest admits loads tried count position ∧
      ∀ other < position, Candidate admits tried count other → (loads position).isLighterThan (loads other) = true := by
  rw [pick_eq] at h
  obtain ⟨before, after, hsplit, hbefore, hafter⟩ := firstLeast_split strictWeak_loads h
  have hmem : position ∈ candidates admits tried count := by
    rw [hsplit]
    simp
  have hside {other : Nat} (hother : Candidate admits tried count other) : other ∈ before ∨ other = position ∨ other ∈ after := by
    have hin := mem_candidates.mpr hother
    rw [hsplit] at hin
    simpa using hin
  have hsorted : (before ++ position :: after).Pairwise (· < ·) := hsplit ▸ candidates_sorted
  obtain ⟨-, htail, -⟩ := List.pairwise_append.mp hsorted
  refine ⟨⟨mem_candidates.mp hmem, fun other hother => ?_⟩, fun other hlt hother => ?_⟩
  · obtain hin | rfl | hin := hside hother
    · by_contra hlighter
      have hself := strictWeak_loads.trans _ _ _ (hbefore other hin) (by simpa using hlighter)
      exact absurd hself (by simp [Load.strictWeak.irrefl])
    · exact Load.strictWeak.irrefl _
    · exact hafter other hin
  · obtain hin | rfl | hin := hside hother
    · exact hbefore other hin
    · exact absurd hlt (Nat.lt_irrefl _)
    · have hgt := (List.pairwise_cons.mp htail).1 other hin
      omega

/-- **A call goes to the first of the lightest candidates.** -/
theorem pick_iff {position : Nat} : pick admits loads tried count = some position ↔
    Lightest admits loads tried count position ∧ ∀ other < position, ¬Lightest admits loads tried count other := by
  constructor
  · intro h
    obtain ⟨hlightest, hbefore⟩ := pick_lightest h
    refine ⟨hlightest, fun other hlt hother => ?_⟩
    exact absurd (hbefore other hlt hother.candidate) (by simp [hother.least position hlightest.candidate])
  · rintro ⟨hlightest, hfirst⟩
    cases hpick : pick admits loads tried count with
    | none => exact absurd hlightest.candidate (pick_none.mp hpick position)
    | some picked =>
      obtain ⟨hpicked, hbefore⟩ := pick_lightest hpick
      obtain hlt | rfl | hgt := Nat.lt_trichotomy position picked
      · exact absurd (hbefore position hlt hlightest.candidate) (by simp [hlightest.least picked hpicked.candidate])
      · rfl
      · exact absurd hpicked (hfirst picked hgt)

end Pick

/-- **Placement by load**: the products fit, being lighter is a strict weak order with the idle loads as its least class, and a call goes
to the first of the lightest candidates. -/
theorem placement_by_load :
    (∀ a b : Load, a.Bounded → b.Bounded → a.calls * a.paceMs < 2 ^ 128 ∧ a.calls * a.paceMs * max b.level 1 < 2 ^ 128) ∧
      StrictWeak Load.isLighterThan ∧
      (∀ a b : Load, a.calls = 0 → (0 < b.calls → a.isLighterThan b = true ∧ b.isLighterThan a = false) ∧
        (b.calls = 0 → a.isLighterThan b = false ∧ b.isLighterThan a = false)) ∧
      ∀ (admits : Nat → Bool) (loads : Nat → Load) (tried : List Nat) (count : Nat),
        (∀ position, pick admits loads tried count = some position ↔ Lightest admits loads tried count position ∧
          ∀ other < position, ¬Lightest admits loads tried count other) ∧
        (pick admits loads tried count = none ↔ ∀ position, ¬Candidate admits tried count position) :=
  ⟨fun _ _ ha hb => ha.no_overflow hb, Load.strictWeak, fun _ b h => Load.idle_least h b,
    fun _ _ _ _ => ⟨fun _ => pick_iff, pick_none⟩⟩

/-! ## The choice of a waiting call -/

section Move
variable {F : Type} [Meter F] {source target : Scheduler F} {targetBit : UInt64} {now : Nat} {gate : Gate}

omit [Meter F] in
/-- A movable call that no movable call has waited longer than. -/
structure LongestWaiting (source : Scheduler F) (targetBit : UInt64) (gate : Gate) (waiter : Waiter) : Prop where
  waits : waiter ∈ source.state.queue.waiting
  moves : movable gate targetBit waiter = true
  longest : ∀ other ∈ source.state.queue.waiting, movable gate targetBit other = true → waiter.arrived ≤ other.arrived

/-- A move takes a call that has waited longest, and is refused exactly when no call can move. -/
structure MovesLongest (source target : Scheduler F) (targetBit : UInt64) (now : Nat) (gate : Gate) : Prop where
  refused : moveWaiting source target targetBit now gate = none ↔
    ∀ waiter ∈ source.state.queue.waiting, movable gate targetBit waiter = false
  taken : ∀ source' target', moveWaiting source target targetBit now gate = some (source', target') →
    ∃ position waiter, source.state.queue.waiting[position]? = some waiter ∧ LongestWaiting source targetBit gate waiter ∧
      source' = source.leave position ∧ target' = target.join waiter now gate

omit [Meter F] in
/-- The movable calls of biggest value, the earliest ids among equals, have waited longest. -/
def BiggestIsLongest (source : Scheduler F) (targetBit : UInt64) (gate : Gate) : Prop :=
  ∀ waiter ∈ source.state.queue.waiting, movable gate targetBit waiter = true →
    (∀ other ∈ source.state.queue.waiting, movable gate targetBit other = true → (other.order waiter).isLE = true) →
    ∀ other ∈ source.state.queue.waiting, movable gate targetBit other = true → waiter.arrived ≤ other.arrived

theorem moveWaiting_none : moveWaiting source target targetBit now gate = none ↔
    ∀ waiter ∈ source.state.queue.waiting, movable gate targetBit waiter = false := by
  rw [← Queue.best_none]
  unfold moveWaiting
  cases hbest : source.state.queue.best (movable gate targetBit) with
  | none => exact ⟨fun _ => rfl, fun _ => rfl⟩
  | some position =>
    obtain ⟨waiter, hwaiter⟩ := Queue.best_some hbest
    dsimp only
    rw [hwaiter.at_index]
    exact ⟨fun h => (nomatch h), fun h => (nomatch h)⟩

omit [Meter F] in
theorem order_antisymm {a b : Waiter} (hab : (a.order b).isLE = true) (hba : (b.order a).isLE = true) : a.id = b.id := by
  rw [Waiter.order_isLE] at hab hba
  omega

theorem MovesLongest.biggest (h : MovesLongest source target targetBit now gate) (hids : (source.state.queue.waiting.map Waiter.id).Nodup) :
    BiggestIsLongest source targetBit gate := by
  intro waiter hwaiter hmovable hbest other hother hmovable'
  cases hmove : moveWaiting source target targetBit now gate with
  | none => exact absurd hmovable (by simp [moveWaiting_none.mp hmove waiter hwaiter])
  | some moved =>
    obtain ⟨position, taken, htaken, heq, -⟩ := moveWaiting_some hmove
    obtain ⟨position', waiter', hat, hlongest, heq', -⟩ := h.taken moved.1 moved.2 hmove
    obtain ⟨best, hbest'⟩ := Queue.best_some htaken.best_eq
    -- the call of biggest value is the one that the choice takes
    obtain rfl : taken = best := Option.some.inj (htaken.at_index.symm.trans hbest'.at_index)
    have hid : waiter.id = taken.id :=
      order_antisymm (hbest'.first waiter hwaiter hmovable) (hbest taken (List.mem_of_getElem? htaken.at_index) htaken.movable)
    obtain rfl : waiter = taken := List.inj_on_of_nodup_map hids hwaiter (List.mem_of_getElem? htaken.at_index) hid
    -- and the same call has left the queue
    have hleft : source.state.queue.waiting.eraseIdx position = source.state.queue.waiting.eraseIdx position' :=
      congrArg (fun s => s.state.queue.waiting) (heq.symm.trans heq')
    have hperm := (Queue.perm_eraseIdx htaken.at_index).symm.trans (Queue.perm_eraseIdx hat)
    rw [hleft] at hperm
    obtain rfl : waiter = waiter' := List.singleton_perm_singleton.mp ((List.perm_append_right_iff _).mp hperm)
    exact hlongest.longest other hother hmovable'

theorem BiggestIsLongest.moves (h : BiggestIsLongest source targetBit gate) : MovesLongest source target targetBit now gate := by
  refine ⟨moveWaiting_none, fun source' target' hmove => ?_⟩
  obtain ⟨position, waiter, htaken, hsource, htarget⟩ := moveWaiting_some hmove
  obtain ⟨best, hbest⟩ := Queue.best_some htaken.best_eq
  obtain rfl : waiter = best := Option.some.inj (htaken.at_index.symm.trans hbest.at_index)
  have hmem := List.mem_of_getElem? htaken.at_index
  refine ⟨position, waiter, htaken.at_index, ⟨hmem, htaken.movable, ?_⟩, hsource, htarget⟩
  exact h waiter hmem htaken.movable hbest.first

/-- **What a move takes**: the call that has waited longest exactly where the call of biggest value has. -/
theorem move_takes_longest_iff (source target : Scheduler F) (targetBit : UInt64) (now : Nat) (gate : Gate)
    (hids : (source.state.queue.waiting.map Waiter.id).Nodup) :
    MovesLongest source target targetBit now gate ↔ BiggestIsLongest source targetBit gate :=
  ⟨fun h => h.biggest hids, fun h => h.moves⟩

/-- A scheduler with these waiting calls. -/
def waitingAt (waiting : List Waiter) : Scheduler Fraction :=
  let idle : Scheduler Fraction := .new ⟨"a"⟩ ⟨⟨1, 8, 4⟩, rfl⟩ 0
  { idle with state := { idle.state with queue := ⟨waiting, []⟩ } }

theorem move_takes_longest_iff_uniform :
    let source := waitingAt [⟨0, CallMeta.new "a" .low "x", 1, 0⟩, ⟨1, CallMeta.new "b" .low "y", 1, 5⟩]
    MovesLongest source (waitingAt []) 1 9 .open ↔ BiggestIsLongest source 1 .open :=
  move_takes_longest_iff _ (waitingAt []) 1 9 .open (by decide)

/-- A call of low priority that has waited since 0 stays behind, and an urgent one that came at 5 is moved. -/
theorem move_takes_urgent :
    ¬MovesLongest (waitingAt [⟨0, CallMeta.new "a" .low "x", 1, 0⟩, ⟨1, CallMeta.new "b" .urgent "y", 10000, 5⟩]) (waitingAt []) 1 9
      .open := by
  intro h
  have hlongest := h.biggest (by decide) ⟨1, CallMeta.new "b" .urgent "y", 10000, 5⟩ (by decide) (by decide) (by decide)
    ⟨0, CallMeta.new "a" .low "x", 1, 0⟩ (by decide) (by decide)
  exact absurd hlongest (by decide)

end Move

end Cuca.Services
