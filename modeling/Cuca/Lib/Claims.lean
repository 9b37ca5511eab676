import Mathlib.Data.List.Flatten
import Mathlib.Data.List.Perm.Basic

/-!
# Jobs that workers claim

Jobs are numbered, and a counter says which is next. A worker claims one, computes it in its own scratch, and puts its results out by
actions, one at a time; then it claims another. Workers take turns in any order.

* `Jobs`, `State`, `turn`, `run` : the workers, and a schedule of their turns;
* `Sound` : the actions of a job are the same whoever computes it and whenever;
* `run_inv` : no turn is a fault, and every action is done, pending or still to be claimed, once;
* `finished_log`, `exists_finish` : at the end every action was done once, and every schedule can be gone on with to the end.
-/

namespace Claims

variable {S A O : Type*}

/-- So many jobs; what computing one with a scratch gives, and what an action does to the output. `none` is a fault. -/
structure Jobs (S A O : Type*) where
  count : Nat
  prepare : Nat → S → Option (S × List A)
  apply : O → A → Option O

structure Worker (S A : Type*) where
  scratch : S
  pending : List A
  done : Bool

/-- `log` is the actions so far. -/
structure State (S A O : Type*) where
  next : Nat
  workers : List (Worker S A)
  out : O
  log : List A

variable (jobs : Jobs S A O)

/-- A worker's turn: its next action, or else another claim. -/
def turn (s : State S A O) (i : Nat) : Option (State S A O) :=
  match s.workers[i]? with
  | none => some s
  | some w =>
    if w.done then some s
    else
      match w.pending with
      | a :: pending =>
        (jobs.apply s.out a).map fun out =>
          { s with workers := s.workers.set i { w with pending := pending }, out := out, log := s.log ++ [a] }
      | [] =>
        if jobs.count ≤ s.next then some { s with next := s.next + 1, workers := s.workers.set i { w with done := true } }
        else
          (jobs.prepare s.next w.scratch).map fun (scratch, pending) =>
            { s with next := s.next + 1, workers := s.workers.set i { w with scratch := scratch, pending := pending } }

def run (s : State S A O) (schedule : List Nat) : Option (State S A O) := schedule.foldlM (turn jobs) s

def State.start (out : O) (scratch : S) (threads : Nat) : State S A O := ⟨0, List.replicate threads ⟨scratch, [], false⟩, out, []⟩

def State.Finished (s : State S A O) : Prop := ∀ w ∈ s.workers, w.done = true

/-- The actions of a job do not depend on the scratch; `Good log out` is kept by every action of a job. -/
structure Sound (Ready : S → Prop) (Good : List A → O → Prop) (actions : Nat → List A) : Prop where
  prepare : ∀ c < jobs.count, ∀ scratch, Ready scratch → ∃ scratch', jobs.prepare c scratch = some (scratch', actions c) ∧ Ready scratch'
  apply : ∀ c < jobs.count, ∀ a ∈ actions c, ∀ log out, Good log out → ∃ out', jobs.apply out a = some out' ∧ Good (log ++ [a]) out'

def allActions (actions : Nat → List A) : List A := (List.range jobs.count).flatMap actions

def unclaimed (actions : Nat → List A) (next : Nat) : List A := (List.range' next (jobs.count - next)).flatMap actions

structure Inv (Ready : S → Prop) (Good : List A → O → Prop) (actions : Nat → List A) (s : State S A O) : Prop where
  all : (s.log ++ (s.workers.flatMap Worker.pending ++ unclaimed jobs actions s.next)).Perm (allActions jobs actions)
  ready : ∀ w ∈ s.workers, Ready w.scratch
  done : ∀ w ∈ s.workers, w.done = true → w.pending = [] ∧ jobs.count ≤ s.next
  good : Good s.log s.out

variable {jobs} {Ready : S → Prop} {Good : List A → O → Prop} {actions : Nat → List A} {s s' : State S A O} {i : Nat}

theorem inv_start {out : O} {scratch : S} (threads : Nat) (hready : Ready scratch) (hgood : Good [] out) :
    Inv jobs Ready Good actions (State.start out scratch threads) where
  all := by
    have hpending : (List.replicate threads (⟨scratch, [], false⟩ : Worker S A)).flatMap Worker.pending = [] := by
      rw [List.flatMap_eq_nil_iff]
      intro w hw
      rw [List.eq_of_mem_replicate hw]
    unfold State.start unclaimed allActions
    dsimp only
    rw [hpending, List.nil_append, List.nil_append, Nat.sub_zero, List.range_eq_range']
  ready w hw := by
    rw [List.eq_of_mem_replicate hw]
    exact hready
  done w hw h := by
    rw [List.eq_of_mem_replicate hw] at h
    exact absurd h Bool.false_ne_true
  good := hgood

theorem unclaimed_next (h : s.next < jobs.count) : unclaimed jobs actions s.next = actions s.next ++ unclaimed jobs actions (s.next + 1) := by
  unfold unclaimed
  obtain ⟨k, hk⟩ : ∃ k, jobs.count - s.next = k + 1 := ⟨jobs.count - s.next - 1, by omega⟩
  rw [hk, List.range'_succ, List.flatMap_cons, show jobs.count - (s.next + 1) = k by omega]

theorem unclaimed_none {next : Nat} (h : jobs.count ≤ next) : unclaimed jobs actions next = [] := by
  unfold unclaimed
  rw [Nat.sub_eq_zero_of_le h]
  rfl

def left (jobs : Jobs S A O) (actions : Nat → List A) (s : State S A O) : Nat :=
  ((allActions jobs actions).length - s.log.length) + (jobs.count - s.next) + s.workers.countP fun w => !w.done

/-- **A turn** keeps the invariant, and leaves less to do when the worker is not done. -/
theorem turn_inv (hsound : Sound jobs Ready Good actions) (h : Inv jobs Ready Good actions s) (i : Nat) :
    ∃ s', turn jobs s i = some s' ∧ Inv jobs Ready Good actions s' ∧ s'.workers.length = s.workers.length ∧
      ((∃ w, s.workers[i]? = some w ∧ w.done = false) → left jobs actions s' < left jobs actions s) := by
  unfold turn
  rcases hi : s.workers[i]? with _ | w
  · refine ⟨s, rfl, h, rfl, ?_⟩
    rintro ⟨w, hw, -⟩
    exact absurd hw (by simp)
  · obtain ⟨hlt, hget⟩ := List.getElem?_eq_some_iff.mp hi
    obtain ⟨before, behind, hworkers, hset⟩ : ∃ before behind, s.workers = before ++ w :: behind ∧
        ∀ w', s.workers.set i w' = before ++ w' :: behind := by
      obtain ⟨before, behind, heq, hlength, -⟩ := @List.exists_of_set _ i w _ hlt
      refine ⟨before, behind, hget ▸ heq, fun w' => ?_⟩
      rw [heq, List.set_append_right _ _ (by omega), hlength, Nat.sub_self]
      rfl
    have hmem (w' : Worker S A) {other : Worker S A} (hother : other ∈ s.workers.set i w') : other = w' ∨ other ∈ s.workers := by
      rw [hset, List.mem_append, List.mem_cons] at hother
      rw [hworkers, List.mem_append, List.mem_cons]
      tauto
    have hin : w ∈ s.workers := List.mem_of_getElem? hi
    have hall := h.all
    rw [hworkers, List.flatMap_append, List.flatMap_cons] at hall
    dsimp only
    by_cases hdone : w.done = true
    · rw [if_pos hdone]
      refine ⟨s, rfl, h, rfl, ?_⟩
      rintro ⟨w', hw', hnot⟩
      rw [Option.some.inj hw', hnot] at hdone
      exact absurd hdone Bool.false_ne_true
    · rw [if_neg hdone]
      rcases hpending : w.pending with _ | ⟨a, pending⟩
      · rw [hpending, List.nil_append] at hall
        dsimp only
        by_cases hnext : jobs.count ≤ s.next
        · -- no job is left
          rw [if_pos hnext]
          refine ⟨_, rfl, ⟨?_, ?_, ?_, h.good⟩, List.length_set, fun _ => ?_⟩
          · dsimp only
            rw [hset, List.flatMap_append, List.flatMap_cons, List.nil_append, unclaimed_none (Nat.le_succ_of_le hnext),
              ← @unclaimed_none _ _ _ jobs actions s.next hnext]
            exact hall
          · intro other hother
            rcases hmem _ hother with rfl | hother
            · exact h.ready w hin
            · exact h.ready other hother
          · intro other hother hdone'
            rcases hmem _ hother with rfl | hother
            · exact ⟨rfl, Nat.le_succ_of_le hnext⟩
            · exact ⟨(h.done other hother hdone').1, Nat.le_succ_of_le hnext⟩
          · unfold left
            dsimp only
            rw [hset, hworkers, List.countP_append, List.countP_append, List.countP_cons, List.countP_cons]
            simp [hdone]
            omega
        · -- a claim
          rw [if_neg hnext]
          obtain ⟨scratch, hprepare, hready⟩ := hsound.prepare s.next (Nat.lt_of_not_le hnext) w.scratch (h.ready w hin)
          rw [hprepare]
          refine ⟨_, rfl, ⟨?_, ?_, ?_, h.good⟩, List.length_set, fun _ => ?_⟩
          · rw [unclaimed_next (Nat.lt_of_not_le hnext)] at hall
            dsimp only
            rw [hset, List.flatMap_append, List.flatMap_cons]
            refine List.Perm.trans (List.Perm.append_left _ ?_) hall
            rw [List.append_assoc, List.append_assoc, List.append_assoc]
            exact List.Perm.append_left _ (List.perm_append_comm_assoc _ _ _)
          · intro other hother
            rcases hmem _ hother with rfl | hother
            · exact hready
            · exact h.ready other hother
          · intro other hother hdone'
            rcases hmem _ hother with rfl | hother
            · exact absurd hdone' hdone
            · exact absurd (h.done other hother hdone').2 hnext
          · unfold left
            dsimp only
            rw [hset, hworkers, List.countP_append, List.countP_append, List.countP_cons, List.countP_cons]
            dsimp only
            omega
      · -- an action
        dsimp only
        obtain ⟨c, hc, ha⟩ : ∃ c < jobs.count, a ∈ actions c := by
          have hact : a ∈ allActions jobs actions := by
            refine hall.subset (List.mem_append_right _ (List.mem_append_left _ (List.mem_append_right _ (List.mem_append_left _ ?_))))
            rw [hpending]
            exact List.mem_cons_self
          obtain ⟨c, hc, ha⟩ := List.mem_flatMap.mp hact
          exact ⟨c, List.mem_range.mp hc, ha⟩
        obtain ⟨out, hout, hgood⟩ := hsound.apply c hc a ha s.log s.out h.good
        rw [hout]
        refine ⟨_, rfl, ⟨?_, ?_, ?_, hgood⟩, List.length_set, fun _ => ?_⟩
        · rw [hpending] at hall
          dsimp only
          rw [hset, List.flatMap_append, List.flatMap_cons, List.append_assoc, List.singleton_append]
          refine List.Perm.trans (List.Perm.append_left _ ?_) hall
          rw [List.append_assoc, List.append_assoc, List.append_assoc, List.cons_append, List.cons_append, List.append_assoc]
          exact List.perm_middle.symm
        · intro other hother
          rcases hmem _ hother with rfl | hother
          · exact h.ready w hin
          · exact h.ready other hother
        · intro other hother hdone'
          rcases hmem _ hother with rfl | hother
          · exact absurd hdone' hdone
          · exact h.done other hother hdone'
        · have hlength := hall.length_eq
          rw [hpending] at hlength
          simp only [List.length_append, List.length_cons] at hlength
          unfold left
          dsimp only
          rw [hset, hworkers, List.countP_append, List.countP_append, List.countP_cons, List.countP_cons, List.length_append,
            List.length_singleton]
          dsimp only
          omega

/-- **No schedule** is a fault, and each keeps the invariant. -/
theorem run_inv (hsound : Sound jobs Ready Good actions) (h : Inv jobs Ready Good actions s) (schedule : List Nat) :
    ∃ s', run jobs s schedule = some s' ∧ Inv jobs Ready Good actions s' ∧ s'.workers.length = s.workers.length := by
  induction schedule generalizing s with
  | nil => exact ⟨s, rfl, h, rfl⟩
  | cons i schedule ih =>
    obtain ⟨s₁, hturn, hinv, hlength, -⟩ := turn_inv hsound h i
    obtain ⟨s₂, hrun, hinv', hlength'⟩ := ih hinv
    refine ⟨s₂, ?_, hinv', hlength'.trans hlength⟩
    show turn jobs s i >>= _ = _
    rw [hturn]
    exact hrun

theorem finished_log (h : Inv jobs Ready Good actions s) (hfinished : s.Finished) (hworkers : s.workers ≠ []) :
    s.log.Perm (allActions jobs actions) := by
  have hpending : s.workers.flatMap Worker.pending = [] := by
    rw [List.flatMap_eq_nil_iff]
    exact fun w hw => (h.done w hw (hfinished w hw)).1
  obtain ⟨w, hw⟩ := List.exists_mem_of_ne_nil _ hworkers
  have hall := h.all
  rw [hpending, unclaimed_none (h.done w hw (hfinished w hw)).2, List.append_nil, List.append_nil] at hall
  exact hall

theorem exists_finish (hsound : Sound jobs Ready Good actions) (h : Inv jobs Ready Good actions s) :
    ∃ schedule s', run jobs s schedule = some s' ∧ s'.Finished := by
  induction hleft : left jobs actions s using Nat.strongRecOn generalizing s with
  | ind n ih =>
    by_cases hfinished : s.Finished
    · exact ⟨[], s, rfl, hfinished⟩
    · unfold State.Finished at hfinished
      push Not at hfinished
      obtain ⟨w, hw, hnot⟩ := hfinished
      obtain ⟨i, hi⟩ := List.mem_iff_getElem?.mp hw
      obtain ⟨s₁, hturn, hinv, -, hless⟩ := turn_inv hsound h i
      obtain ⟨schedule, s₂, hrun, hdone⟩ := ih _ (hleft ▸ hless ⟨w, hi, eq_false_of_ne_true hnot⟩) hinv rfl
      refine ⟨i :: schedule, s₂, ?_, hdone⟩
      show turn jobs s i >>= _ = _
      rw [hturn]
      exact hrun

end Claims
