import Mathlib.Data.List.Count
import Mathlib.Data.List.Induction
import Mathlib.Data.List.Nodup

/-!
# Failures of keys

Keys fail and pass, again and again. A bounded queue holds the keys that have failed and have not passed since; when it is full, a new key
takes the place of the oldest.

* `Strike`, `fail`, `pass` : a key in the queue, and what an event does to it;
* `queue` : the queue after some events;
* `Sound`, `queue_sound` : what a queue says of the events.
-/

namespace Strikes

variable {κ : Type*} [DecidableEq κ]

/-- A key in the queue, with its failures since it came there, and the number of the first of these events. -/
structure Strike (κ : Type*) where
  key : κ
  count : Nat
  since : Nat

inductive Event (κ : Type*) where
  | fails (k : κ)
  | passes (k : κ)
  deriving DecidableEq

def keys (q : List (Strike κ)) : List κ := q.map Strike.key

def count (q : List (Strike κ)) (k : κ) : Option Nat := (q.find? fun s => s.key = k).map Strike.count

def attempt (q : List (Strike κ)) (k : κ) : Nat := (count q k).getD 0 + 1

def pass (q : List (Strike κ)) (k : κ) : List (Strike κ) := q.filter fun s => s.key ≠ k

def evict (cap : Nat) (q : List (Strike κ)) : List (Strike κ) := if q.length < cap then q else q.tail

def Strike.again (k : κ) (s : Strike κ) : Strike κ := if s.key = k then { s with count := s.count + 1 } else s

def fail (cap now : Nat) (q : List (Strike κ)) (k : κ) : List (Strike κ) :=
  if k ∈ keys q then q.map (Strike.again k) else evict cap q ++ [⟨k, 1, now⟩]

def step (cap now : Nat) (q : List (Strike κ)) : Event κ → List (Strike κ)
  | .fails k => fail cap now q k
  | .passes k => pass q k

/-- The queue after some events, the last of which is the first of the list. -/
def queueBack (cap : Nat) : List (Event κ) → List (Strike κ)
  | [] => []
  | e :: es => step cap es.length (queueBack cap es) e

def queue (cap : Nat) (events : List (Event κ)) : List (Strike κ) := queueBack cap events.reverse

@[simp] theorem queue_nil (cap : Nat) : queue cap ([] : List (Event κ)) = [] := rfl

theorem queue_snoc (cap : Nat) (events : List (Event κ)) (e : Event κ) :
    queue cap (events ++ [e]) = step cap events.length (queue cap events) e := by
  unfold queue
  rw [List.reverse_append, List.reverse_singleton, List.singleton_append, queueBack, List.length_reverse]

/-! ## Counts -/

theorem key_again (k : κ) (s : Strike κ) : (s.again k).key = s.key := by
  unfold Strike.again
  split <;> rfl

theorem keys_again (k : κ) (q : List (Strike κ)) : keys (q.map (Strike.again k)) = keys q := by
  unfold keys
  rw [List.map_map]
  exact List.map_congr_left fun s _ => key_again k s

variable {q : List (Strike κ)}

theorem count_isSome {k : κ} : (count q k).isSome = true ↔ k ∈ keys q := by
  unfold count keys
  rw [Option.isSome_map, List.find?_isSome, List.mem_map]
  simp

theorem count_eq_none {k : κ} : count q k = none ↔ k ∉ keys q := by
  rw [← count_isSome, Option.not_isSome_iff_eq_none]

theorem count_pass (q : List (Strike κ)) (k k' : κ) : count (pass q k) k' = if k' = k then none else count q k' := by
  by_cases h : k' = k
  · rw [if_pos h, count_eq_none, h]
    unfold pass keys
    simp
  · rw [if_neg h]
    unfold count pass
    rw [List.find?_filter]
    congr 2
    funext s
    by_cases hs : s.key = k'
    · simp [hs, h]
    · simp [hs]

theorem count_again (q : List (Strike κ)) (k k' : κ) :
    count (q.map (Strike.again k)) k' = if k' = k then (count q k).map (· + 1) else count q k' := by
  have hkey : ((fun s => decide (s.key = k')) ∘ Strike.again k : Strike κ → Bool) = fun s => decide (s.key = k') := by
    funext s
    rw [Function.comp_apply, key_again]
  have hafter : count (q.map (Strike.again k)) k' = ((q.find? fun s => s.key = k').map (Strike.again k)).map Strike.count := by
    unfold count
    rw [List.find?_map, hkey]
  rcases hfind : q.find? fun s => s.key = k' with _ | s
  · have hnone : count q k' = none := by
      unfold count
      rw [hfind, Option.map_none]
    rw [hafter, hfind]
    split
    · rw [← ‹k' = k›, hnone]
      rfl
    · exact hnone.symm
  · have hs : s.key = k' := by simpa using List.find?_some hfind
    have hsome : count q k' = some s.count := by
      unfold count
      rw [hfind, Option.map_some]
    rw [hafter, hfind]
    by_cases h : k' = k
    · rw [if_pos h, ← h, hsome]
      simp [Strike.again, hs]
    · rw [if_neg h, hsome]
      simp [Strike.again, hs, h]

theorem count_append (q q' : List (Strike κ)) (k : κ) : count (q ++ q') k = (count q k).or (count q' k) := by
  unfold count
  rw [List.find?_append]
  cases q.find? fun s => s.key = k <;> rfl

theorem count_new (k : κ) (now : Nat) (k' : κ) : count [⟨k, 1, now⟩] k' = if k' = k then some 1 else none := by
  unfold count
  by_cases h : k' = k
  · simp [h]
  · simp [h, Ne.symm h]

theorem count_fail_of_mem {k : κ} (h : k ∈ keys q) (cap now : Nat) (k' : κ) :
    count (fail cap now q k) k' = if k' = k then some (attempt q k) else count q k' := by
  obtain ⟨c, hc⟩ := Option.isSome_iff_exists.mp (count_isSome.mpr h)
  unfold fail attempt
  rw [if_pos h, count_again, hc]
  rfl

omit [DecidableEq κ] in
theorem keys_evict_sublist (cap : Nat) (q : List (Strike κ)) : (keys (evict cap q)).Sublist (keys q) := by
  unfold evict
  split
  · exact List.Sublist.refl _
  · exact (List.tail_sublist q).map Strike.key

theorem count_fail_of_not_mem {k : κ} (h : k ∉ keys q) (cap now : Nat) (k' : κ) :
    count (fail cap now q k) k' = if k' = k then some 1 else count (evict cap q) k' := by
  unfold fail
  rw [if_neg h, count_append, count_new]
  by_cases heq : k' = k
  · have hnone : count (evict cap q) k' = none := count_eq_none.mpr fun hin => h (heq ▸ (keys_evict_sublist cap q).subset hin)
    rw [if_pos heq, if_pos heq, hnone, Option.none_or]
  · rw [if_neg heq, if_neg heq, Option.or_none]

theorem attempt_of_not_mem {k : κ} (h : k ∉ keys q) : attempt q k = 1 := by
  unfold attempt
  rw [count_eq_none.mpr h]
  rfl

theorem count_fail_self (q : List (Strike κ)) (k : κ) (cap now : Nat) : count (fail cap now q k) k = some (attempt q k) := by
  by_cases h : k ∈ keys q
  · rw [count_fail_of_mem h, if_pos rfl]
  · rw [count_fail_of_not_mem h, if_pos rfl, attempt_of_not_mem h]

theorem attempt_replicate (cap : Nat) (k : κ) (n : Nat) : attempt (queue cap (List.replicate n (.fails k))) k = n + 1 := by
  induction n with
  | zero => rfl
  | succ n ih =>
    rw [List.replicate_succ', queue_snoc, step, attempt, count_fail_self, ih]
    rfl

theorem keys_pass (q : List (Strike κ)) (k : κ) : keys (pass q k) = (keys q).filter (· ≠ k) := by
  unfold keys pass
  rw [List.filter_map]
  rfl

/-! ## What the queue says of the events -/

/-- A queue after some events. -/
structure Sound (cap : Nat) (events : List (Event κ)) (q : List (Strike κ)) : Prop where
  once : (keys q).Nodup
  few : q.length ≤ cap
  /-- The keys stand in the order of the failures since which they are in the queue. -/
  inOrder : q.Pairwise fun s s' => s.since < s'.since
  first : ∀ s ∈ q, events[s.since]? = some (.fails s.key)
  /-- A key in the queue has not passed since. -/
  failing : ∀ s ∈ q, .passes s.key ∉ events.drop s.since
  counts : ∀ s ∈ q, s.count = (events.drop s.since).count (.fails s.key)

theorem Sound.stays {cap : Nat} {events : List (Event κ)} (h : Sound cap events q) {s : Strike κ} (hs : s ∈ q) (e : Event κ)
    (he : e ≠ .passes s.key) : (events ++ [e])[s.since]? = some (.fails s.key) ∧ .passes s.key ∉ (events ++ [e]).drop s.since ∧
      ((events ++ [e]).drop s.since).count (.fails s.key) = s.count + if e = .fails s.key then 1 else 0 := by
  have hlt := (List.getElem?_eq_some_iff.mp (h.first s hs)).1
  rw [List.getElem?_append_left hlt, List.drop_append_of_le_length (Nat.le_of_lt hlt), List.mem_append, List.count_append, ← h.counts s hs,
    List.mem_singleton, List.count_singleton]
  refine ⟨h.first s hs, not_or.mpr ⟨h.failing s hs, fun heq => he heq.symm⟩, ?_⟩
  simp

theorem Sound.step {cap : Nat} (hcap : 0 < cap) {events : List (Event κ)} (h : Sound cap events q) (e : Event κ) :
    Sound cap (events ++ [e]) (step cap events.length q e) := by
  cases e with
  | passes k =>
    have hmem {s : Strike κ} (hs : s ∈ pass q k) : s ∈ q ∧ s.key ≠ k := by simpa [pass] using hs
    have hstays {s : Strike κ} (hs : s ∈ pass q k) := h.stays (hmem hs).1 (.passes k) fun heq => (hmem hs).2 (Event.passes.inj heq).symm
    refine ⟨?_, Nat.le_trans (List.length_filter_le _ q) h.few, h.inOrder.sublist List.filter_sublist, fun s hs => (hstays hs).1,
      fun s hs => (hstays hs).2.1, fun s hs => ?_⟩
    · rw [Strikes.step, keys_pass]
      exact h.once.filter _
    · rw [(hstays hs).2.2, if_neg (by simp)]
      rfl
  | fails k =>
    rw [Strikes.step, fail]
    have hof {s : Strike κ} (hs : s ∈ q) := h.stays hs (.fails k) (by simp)
    by_cases hk : k ∈ keys q
    · rw [if_pos hk]
      have hsince (s : Strike κ) : (s.again k).since = s.since := by
        unfold Strike.again
        split <;> rfl
      have hall {P : Strike κ → Prop} (hP : ∀ s ∈ q, P (s.again k)) : ∀ s ∈ q.map (Strike.again k), P s := by
        intro s' hs'
        obtain ⟨s, hs, rfl⟩ := List.mem_map.mp hs'
        exact hP s hs
      refine ⟨?_, ?_, ?_, hall fun s hs => ?_, hall fun s hs => ?_, hall fun s hs => ?_⟩
      · rw [keys_again]
        exact h.once
      · rw [List.length_map]
        exact h.few
      · rw [List.pairwise_map]
        simpa only [hsince] using h.inOrder
      · rw [hsince, key_again]
        exact (hof hs).1
      · rw [hsince, key_again]
        exact (hof hs).2.1
      · rw [hsince, key_again, (hof hs).2.2]
        unfold Strike.again
        by_cases heq : s.key = k
        · simp [heq]
        · simp [heq, Ne.symm heq]
    · rw [if_neg hk]
      have hkept : (evict cap q).Sublist q := by
        unfold evict
        split
        · exact List.Sublist.refl _
        · exact List.tail_sublist q
      have hroom : (evict cap q).length < cap := by
        have hfew := h.few
        unfold evict
        split
        · assumption
        · rw [List.length_tail]
          omega
      -- what is said of the keys that stay, and of the new one
      have hall {P : Strike κ → Prop} (hP : ∀ s ∈ q, P s) (hnew : P ⟨k, 1, events.length⟩) : ∀ s ∈ evict cap q ++ [⟨k, 1, events.length⟩], P s := by
        intro s hs
        rcases List.mem_append.mp hs with hs | hs
        · exact hP s (hkept.subset hs)
        · rw [List.mem_singleton.mp hs]
          exact hnew
      refine ⟨?_, ?_, ?_, hall (fun s hs => (hof hs).1) ?_, hall (fun s hs => (hof hs).2.1) ?_, hall (fun s hs => ?_) ?_⟩
      · unfold keys
        rw [List.map_append, List.map_singleton, List.nodup_append]
        refine ⟨h.once.sublist (hkept.map Strike.key), List.nodup_singleton k, fun k' hk' k'' hk'' => ?_⟩
        rw [List.mem_singleton.mp hk'']
        intro heq
        have hin : k' ∈ keys q := (hkept.map Strike.key).subset hk'
        rw [heq] at hin
        exact hk hin
      · rw [List.length_append, List.length_singleton]
        omega
      · rw [List.pairwise_append]
        refine ⟨h.inOrder.sublist hkept, List.pairwise_singleton _ _, fun s hs s' hs' => ?_⟩
        rw [List.mem_singleton.mp hs']
        exact (List.getElem?_eq_some_iff.mp (h.first s (hkept.subset hs))).1
      · rw [List.getElem?_append_right (Nat.le_refl _), Nat.sub_self]
        rfl
      · rw [List.drop_left]
        simp
      · have hother : s.key ≠ k := fun heq => hk (heq ▸ List.mem_map_of_mem hs)
        rw [(hof hs).2.2, if_neg fun heq => hother (Event.fails.inj heq).symm]
        rfl
      · rw [List.drop_left]
        simp

theorem queue_sound {cap : Nat} (hcap : 0 < cap) (events : List (Event κ)) : Sound cap events (queue cap events) := by
  induction events using List.reverseRecOn with
  | nil =>
    have hnone {P : Strike κ → Prop} : ∀ s ∈ queue cap ([] : List (Event κ)), P s := fun s hs => absurd hs List.not_mem_nil
    exact ⟨List.nodup_nil, Nat.zero_le _, .nil, hnone, hnone, hnone⟩
  | append_singleton events e ih =>
    rw [queue_snoc]
    exact ih.step hcap e

end Strikes
