import Cuca.Lib.Sorted

/-!
# Breadth-first search

A search keeps the elements it has visited and those it came to last, the frontier. `next` lists the neighbours of an
element, in any order and with repetitions.

* `visit`, `expand` : one element, and one round;
* `layers`, `closure`, `search` : the frontiers of some rounds, what they visit, and rounds until a goal is found;
* `Within`, `AtDistance` : what the rounds stand for, by walks of a relation;
* `Frontier` : the invariant of the rounds, and `Frontier.expand` : one round;
* `layers_eq`, `mem_closure`, `search_eq` : the results.
-/

namespace Layers
open Sorted
variable {α : Type*} [DecidableEq α]

/-! ## The search -/

def visit (s : List α × List α) (a : α) : List α × List α := if a ∈ s.1 then s else (a :: s.1, s.2 ++ [a])

def expand (next : α → List α) (visited frontier : List α) : List α × List α :=
  (frontier.flatMap next).foldl visit (visited, [])

/-- The next `rounds` frontiers, each arranged before the round that follows. -/
def layers (next : α → List α) (arrange : List α → List α) : Nat → List α → List α → List (List α)
  | 0, _, _ => []
  | rounds + 1, visited, frontier =>
    let s := expand next visited frontier
    arrange s.2 :: layers next arrange rounds s.1 (arrange s.2)

/-- What is visited after `rounds` rounds. -/
def closure (next : α → List α) : Nat → List α → List α → List α
  | 0, visited, _ => visited
  | rounds + 1, visited, frontier =>
    let s := expand next visited frontier
    closure next rounds s.1 s.2

/-- A round that stops, with nothing, at the goal. -/
def seek (goal : α) : List α → List α × List α → Option (List α × List α)
  | [], s => some s
  | a :: as, s => if a = goal then none else seek goal as (visit s a)

/-- Rounds until the goal is found or the frontier is empty; nothing where the fuel does not last. -/
def search (next : α → List α) (goal : α) : Nat → List α → List α → Option Bool
  | 0, _, _ => none
  | fuel + 1, visited, frontier =>
    if frontier = [] then some false
    else
      match seek goal (frontier.flatMap next) (visited, []) with
      | none => some true
      | some s => search next goal fuel s.1 s.2

/-! ## Walks -/

omit [DecidableEq α]

/-- A walk of `n` steps from `a` to `b`. -/
def Walk (r : α → α → Prop) : Nat → α → α → Prop
  | 0, a, b => a = b
  | n + 1, a, b => ∃ c, Walk r n a c ∧ r c b

/-- A walk of at most `n` steps from one of the roots. -/
def Within (r : α → α → Prop) (roots : Set α) (n : Nat) (b : α) : Prop := ∃ m ≤ n, ∃ a ∈ roots, Walk r m a b

/-- The shortest walk from one of the roots has `n` steps. -/
def AtDistance (r : α → α → Prop) (roots : Set α) (n : Nat) (b : α) : Prop :=
  Within r roots n b ∧ ∀ m < n, ¬ Within r roots m b

section
variable {r : α → α → Prop} {roots : Set α}

theorem walk_zero {a b : α} : Walk r 0 a b ↔ a = b := Iff.rfl

theorem exists_walk {a b : α} : (∃ n, Walk r n a b) ↔ Relation.ReflTransGen r a b := by
  constructor
  · rintro ⟨n, hwalk⟩
    induction n generalizing b with
    | zero => rw [walk_zero.mp hwalk]
    | succ n ih =>
      obtain ⟨c, hac, hcb⟩ := hwalk
      exact (ih hac).tail hcb
  · intro hpath
    induction hpath with
    | refl => exact ⟨0, rfl⟩
    | tail _ hstep ih =>
      obtain ⟨n, hwalk⟩ := ih
      exact ⟨n + 1, _, hwalk, hstep⟩

theorem within_zero {b : α} : Within r roots 0 b ↔ b ∈ roots := by
  constructor
  · rintro ⟨m, hm, a, ha, hwalk⟩
    obtain rfl : m = 0 := Nat.le_zero.mp hm
    exact walk_zero.mp hwalk ▸ ha
  · exact fun hb => ⟨0, Nat.le_refl _, b, hb, rfl⟩

theorem Within.mono {m n : Nat} {b : α} (h : Within r roots m b) (hmn : m ≤ n) : Within r roots n b := by
  obtain ⟨k, hk, a, ha, hwalk⟩ := h
  exact ⟨k, hk.trans hmn, a, ha, hwalk⟩

theorem Within.step {n : Nat} {b c : α} (h : Within r roots n b) (hstep : r b c) : Within r roots (n + 1) c := by
  obtain ⟨k, hk, a, ha, hwalk⟩ := h
  exact ⟨k + 1, Nat.succ_le_succ hk, a, ha, b, hwalk, hstep⟩

/-- **One step further**: from what is exactly `n` steps away. -/
theorem within_succ {n : Nat} {b : α} :
    Within r roots (n + 1) b ↔ Within r roots n b ∨ ∃ c, AtDistance r roots n c ∧ r c b := by
  constructor
  · rintro ⟨m, hm, a, ha, hwalk⟩
    rcases Nat.lt_or_ge m (n + 1) with hless | hmore
    · exact .inl ⟨m, Nat.le_of_lt_succ hless, a, ha, hwalk⟩
    obtain rfl : m = n + 1 := Nat.le_antisymm hm hmore
    obtain ⟨c, hac, hcb⟩ := hwalk
    by_cases hnear : ∃ k < n, Within r roots k c
    · obtain ⟨k, hk, hc⟩ := hnear
      exact .inl ((hc.step hcb).mono hk)
    · refine .inr ⟨c, ⟨⟨n, Nat.le_refl _, a, ha, hac⟩, fun k hk hc => hnear ⟨k, hk, hc⟩⟩, hcb⟩
  · rintro (hnear | ⟨c, hc, hcb⟩)
    · exact hnear.mono (Nat.le_succ n)
    · exact hc.1.step hcb

theorem atDistance_zero {b : α} : AtDistance r roots 0 b ↔ b ∈ roots :=
  ⟨fun h => within_zero.mp h.1, fun h => ⟨within_zero.mpr h, fun _ hm => absurd hm (Nat.not_lt_zero _)⟩⟩

theorem atDistance_succ {n : Nat} {b : α} :
    AtDistance r roots (n + 1) b ↔ ¬ Within r roots n b ∧ ∃ c, AtDistance r roots n c ∧ r c b := by
  constructor
  · rintro ⟨hwithin, hnot⟩
    have hfar := hnot n (Nat.lt_succ_self n)
    exact ⟨hfar, (within_succ.mp hwithin).resolve_left hfar⟩
  · rintro ⟨hfar, hnext⟩
    exact ⟨within_succ.mpr (.inr hnext), fun m hm hnear => hfar (hnear.mono (Nat.le_of_lt_succ hm))⟩

theorem within_of_empty {n : Nat} (hempty : ∀ c, ¬ AtDistance r roots n c) {m : Nat} {b : α}
    (h : Within r roots m b) : Within r roots n b := by
  have hlater (k : Nat) : Within r roots (n + k) b → Within r roots n b := by
    have hnone (k : Nat) : ∀ c, ¬ AtDistance r roots (n + k) c := by
      induction k with
      | zero => exact hempty
      | succ k ih =>
        intro c hc
        obtain ⟨-, d, hd, -⟩ := atDistance_succ.mp hc
        exact ih d hd
    induction k with
    | zero => exact id
    | succ k ih =>
      intro hk
      rcases within_succ.mp hk with hnear | ⟨c, hc, -⟩
      · exact ih hnear
      · exact absurd hc (hnone k c)
  exact hlater m (h.mono (Nat.le_add_left m n))

/-! ## One round -/

/-- After `n` rounds: what is visited, and the frontier. -/
structure Frontier (r : α → α → Prop) (roots : Set α) (n : Nat) (visited frontier : List α) : Prop where
  seen : ∀ b, b ∈ visited ↔ Within r roots n b
  last : ∀ b, b ∈ frontier ↔ AtDistance r roots n b
  nodup : frontier.Nodup

theorem Frontier.first {visited frontier : List α} (hvisited : ∀ b, b ∈ visited ↔ b ∈ roots)
    (hfrontier : ∀ b, b ∈ frontier ↔ b ∈ roots) (hnodup : frontier.Nodup) : Frontier r roots 0 visited frontier :=
  ⟨fun b => by rw [hvisited, within_zero], fun b => by rw [hfrontier, atDistance_zero], hnodup⟩

theorem Frontier.perm {n : Nat} {visited frontier frontier' : List α} (h : Frontier r roots n visited frontier)
    (hperm : frontier'.Perm frontier) : Frontier r roots n visited frontier' :=
  ⟨h.seen, fun b => by rw [hperm.mem_iff, h.last], hperm.nodup_iff.mpr h.nodup⟩

theorem Frontier.mem_flatMap {next : α → List α} (hnext : ∀ a b, b ∈ next a ↔ r a b) {n : Nat}
    {visited frontier : List α} (h : Frontier r roots n visited frontier) (b : α) :
    b ∈ frontier.flatMap next ↔ ∃ c, AtDistance r roots n c ∧ r c b := by
  rw [List.mem_flatMap]
  exact exists_congr fun c => and_congr (h.last c) (hnext c b)

end

section
variable [DecidableEq α]

theorem visit_fst (s : List α × List α) (a b : α) : b ∈ (visit s a).1 ↔ b ∈ s.1 ∨ b = a := by
  rw [visit]
  split
  · rename_i hseen
    exact ⟨.inl, fun h => h.elim id (fun heq => heq ▸ hseen)⟩
  · rw [List.mem_cons, or_comm]

theorem visit_snd (s : List α × List α) (a b : α) : b ∈ (visit s a).2 ↔ b ∈ s.2 ∨ (b = a ∧ b ∉ s.1) := by
  rw [visit]
  split
  · rename_i hseen
    refine ⟨.inl, fun h => h.elim id ?_⟩
    rintro ⟨rfl, hnew⟩
    exact absurd hseen hnew
  · rename_i hnew
    rw [List.mem_append, List.mem_singleton]
    refine or_congr_right ⟨?_, And.left⟩
    rintro rfl
    exact ⟨rfl, hnew⟩

theorem foldl_visit_fst (as : List α) (s : List α × List α) (b : α) :
    b ∈ (as.foldl visit s).1 ↔ b ∈ s.1 ∨ b ∈ as := by
  induction as generalizing s with
  | nil => simp
  | cons a as ih => rw [List.foldl_cons, ih, visit_fst, List.mem_cons, or_assoc]

theorem foldl_visit_snd (as : List α) (s : List α × List α) (b : α) :
    b ∈ (as.foldl visit s).2 ↔ b ∈ s.2 ∨ (b ∈ as ∧ b ∉ s.1) := by
  induction as generalizing s with
  | nil => simp
  | cons a as ih =>
    rw [List.foldl_cons, ih, visit_snd, visit_fst, List.mem_cons]
    by_cases ha : b = a
    · by_cases hseen : b ∈ s.1 <;> simp [ha, hseen]
    · simp [ha]

theorem foldl_visit_nodup {as : List α} {s : List α × List α} (hnodup : s.2.Nodup) (hseen : ∀ b ∈ s.2, b ∈ s.1) :
    (as.foldl visit s).2.Nodup := by
  induction as generalizing s with
  | nil => exact hnodup
  | cons a as ih =>
    refine ih ?_ fun b hb => ?_
    · rw [visit]
      split
      · exact hnodup
      · rename_i hnew
        refine hnodup.append (List.nodup_singleton a) (List.disjoint_singleton.mpr fun ha => hnew (hseen a ha))
    · rw [visit_fst]
      rcases (visit_snd s a b).mp hb with hb | ⟨rfl, -⟩
      · exact .inl (hseen b hb)
      · exact .inr rfl

variable {r : α → α → Prop} {roots : Set α} {next : α → List α} (hnext : ∀ a b, b ∈ next a ↔ r a b)

include hnext in
theorem Frontier.expand {n : Nat} {visited frontier : List α} (h : Frontier r roots n visited frontier) :
    Frontier r roots (n + 1) (Layers.expand next visited frontier).1 (Layers.expand next visited frontier).2 := by
  refine ⟨fun b => ?_, fun b => ?_, foldl_visit_nodup List.nodup_nil fun b hb => absurd hb List.not_mem_nil⟩
  · rw [Layers.expand, foldl_visit_fst, h.seen, h.mem_flatMap hnext, within_succ]
  · rw [Layers.expand, foldl_visit_snd, h.seen, h.mem_flatMap hnext, atDistance_succ]
    simp only [List.not_mem_nil, false_or]
    exact and_comm

/-! ## Rounds -/

include hnext in
theorem mem_closure {n : Nat} {visited frontier : List α} (h : Frontier r roots n visited frontier) (rounds : Nat)
    (b : α) : b ∈ closure next rounds visited frontier ↔ Within r roots (n + rounds) b := by
  induction rounds generalizing n visited frontier with
  | zero => exact h.seen b
  | succ rounds ih =>
    rw [closure, ih (h.expand hnext)]
    rw [show n + 1 + rounds = n + (rounds + 1) by omega]

theorem Frontier.complete {n : Nat} {visited : List α} (h : Frontier r roots n visited []) {m : Nat} {b : α}
    (hwithin : Within r roots m b) : b ∈ visited := by
  have hnone : ∀ c, ¬ AtDistance r roots n c := fun c hc => List.not_mem_nil ((h.last c).mpr hc)
  exact (h.seen b).mpr (within_of_empty hnone hwithin)

theorem seek_eq (goal : α) (as : List α) (s : List α × List α) :
    seek goal as s = if goal ∈ as then none else some (as.foldl visit s) := by
  induction as generalizing s with
  | nil => simp [seek]
  | cons a as ih =>
    rw [seek, ih, List.foldl_cons]
    by_cases ha : a = goal
    · simp [ha]
    · simp [ha, Ne.symm ha]

include hnext in
/-- **A search ends, and finds what can be reached**: where the neighbours of an element are in `area`, and the
fuel is enough for what of it is not visited. -/
theorem search_eq {area : List α} (harea : ∀ a, next a ⊆ area) {goal : α} {n fuel : Nat}
    {visited frontier : List α} (h : Frontier r roots n visited frontier) (hgoal : goal ∉ visited)
    (hfuel : (area.filter (· ∉ visited)).length + 2 ≤ fuel) :
    ∃ found, search next goal fuel visited frontier = some found ∧
      (found = true ↔ ∃ m, Within r roots m goal) := by
  induction fuel generalizing n visited frontier with
  | zero => omega
  | succ fuel ih =>
    rw [search]
    by_cases hempty : frontier = []
    · subst hempty
      refine ⟨false, rfl, ⟨fun hno => absurd hno Bool.false_ne_true, ?_⟩⟩
      rintro ⟨m, hm⟩
      exact absurd (h.complete hm) hgoal
    rw [if_neg hempty, seek_eq]
    by_cases hfound : goal ∈ frontier.flatMap next
    · rw [if_pos hfound]
      obtain ⟨c, hc, hstep⟩ := (h.mem_flatMap hnext goal).mp hfound
      exact ⟨true, rfl, ⟨fun _ => ⟨n + 1, hc.1.step hstep⟩, fun _ => rfl⟩⟩
    rw [if_neg hfound]
    have hround := h.expand hnext
    have hgoal' : goal ∉ (expand next visited frontier).1 := by
      rw [expand, foldl_visit_fst]
      exact fun hmem => hmem.elim hgoal hfound
    by_cases hlast : (expand next visited frontier).2 = []
    · -- nothing new: the next round is the last one
      obtain ⟨fuel, rfl⟩ : ∃ fewer, fuel = fewer + 1 := ⟨fuel - 1, by omega⟩
      refine ⟨false, ?_, ⟨fun hno => absurd hno Bool.false_ne_true, ?_⟩⟩
      · show search next goal (fuel + 1) (expand next visited frontier).1 (expand next visited frontier).2 = some false
        rw [search, if_pos hlast]
      · rintro ⟨m, hm⟩
        rw [hlast] at hround
        exact absurd (hround.complete hm) hgoal'
    · refine ih hround hgoal' ?_
      show (area.filter (· ∉ (expand next visited frontier).1)).length + 2 ≤ fuel
      obtain ⟨new, hnew⟩ := List.exists_mem_of_ne_nil _ hlast
      obtain ⟨hneighbour, hunseen⟩ : new ∈ frontier.flatMap next ∧ new ∉ visited := by
        rw [expand, foldl_visit_snd] at hnew
        exact hnew.resolve_left List.not_mem_nil
      have hinside : new ∈ area := by
        obtain ⟨c, -, hc⟩ := List.mem_flatMap.mp hneighbour
        exact harea c hc
      have hless : (area.filter (· ∉ (expand next visited frontier).1)).length <
          (area.filter (· ∉ visited)).length := by
        have hmono : ∀ b, b ∉ (expand next visited frontier).1 → b ∉ visited := fun b hb hv =>
          hb (by rw [expand, foldl_visit_fst]; exact .inl hv)
        have hstrict : new ∈ (expand next visited frontier).1 := by
          rw [expand, foldl_visit_fst]
          exact .inr hneighbour
        have hagain : area.filter (· ∉ (expand next visited frontier).1) =
            (area.filter (· ∉ visited)).filter (· ∉ (expand next visited frontier).1) := by
          rw [List.filter_filter]
          refine List.filter_congr fun b _ => ?_
          by_cases hb : b ∈ (expand next visited frontier).1
          · simp [hb]
          · simp [hb, hmono b hb]
        rw [hagain, List.length_filter_lt_length_iff_exists]
        exact ⟨new, List.mem_filter.mpr ⟨hinside, by simpa using hunseen⟩, by simpa using hstrict⟩
      omega

end

section
variable {α : Type*} [LinearOrder α] {r : α → α → Prop} {roots : Set α} {next : α → List α}
  (hnext : ∀ a b, b ∈ next a ↔ r a b)

include hnext in
/-- **The frontiers, each sorted**, are the elements at the next distances. -/
theorem layers_eq {n : Nat} {visited frontier : List α} (h : Frontier r roots n visited frontier) (rounds : Nat) :
    layers next (·.insertionSort (· ≤ ·)) rounds visited frontier =
      (List.range rounds).map fun k => sorted {b | AtDistance r roots (n + 1 + k) b} := by
  induction rounds generalizing n visited frontier with
  | zero => rfl
  | succ rounds ih =>
    have hround := h.expand hnext
    have hfirst : (expand next visited frontier).2.insertionSort (· ≤ ·) = sorted {b | AtDistance r roots (n + 1) b} :=
      insertionSort_eq_sorted hround.nodup hround.last
    rw [layers, ih (hround.perm (List.perm_insertionSort _ _)), hfirst, List.range_succ_eq_map, List.map_cons,
      List.map_map]
    refine congrArg _ (List.map_congr_left fun k _ => ?_)
    show sorted {b | AtDistance r roots (n + 1 + 1 + k) b} = sorted {b | AtDistance r roots (n + 1 + (k + 1)) b}
    rw [show n + 1 + 1 + k = n + 1 + (k + 1) by omega]

end
end Layers
