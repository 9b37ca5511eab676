import Cuca.Local.Model.Residency
import Mathlib.Order.Bounds.Basic

/-!
# Going back in a hybrid model

The recurrent state of a delta-net layer cannot be truncated: it is the fold of the rows so far. What can be gone back to are the current
end, the checkpoint, and the positions of the last call if that was recorded; from anywhere else the caller starts again at the largest of
these below, or at 0. Whatever happens in between, the states are those of the retained sequence from the zero state.

* `Coherent` : live states, checkpoint and record belong to the retained sequence;
* `Cpu.Truncated` : what a truncation of a hybrid model can do;
* `Restorable`, `Settled` : the positions that can be gone back to, and what each step must do;
* `rollback_sound` : the states are right throughout every run, and every step does what it must.
-/

namespace Cuca.Local.Model
open Transition

variable {Row St DRow : Type} {c : Config} {k : Kernel St DRow} {s : Cpu Row St DRow} {il : Nat}

/-! ## Recurrent states -/

@[simp] theorem scan_nil (k : Kernel St DRow) (il : Nat) (state : St) : k.scan il state [] = state := rfl

theorem scan_append (k : Kernel St DRow) (il : Nat) (state : St) (first second : List DRow) :
    k.scan il state (first ++ second) = k.scan il (k.scan il state first) second := List.foldl_append

def rowsOf (history : List (Entry Row DRow)) (il : Nat) : List DRow := history.map (·.delta il)

def stateOf (k : Kernel St DRow) (il : Nat) (history : List (Entry Row DRow)) : St := k.scan il (k.zero il) (rowsOf history il)

theorem rowsOf_entries (tokens : List Token) (pass : Pass Row DRow) (il : Nat) :
    rowsOf (entries tokens pass) il = pass.deltaRows il tokens.length := by
  unfold rowsOf entries Pass.deltaRows
  apply List.ext_getElem
  · simp
  · intro i hi hi'
    simp

theorem stateOf_append (history more : List (Entry Row DRow)) :
    stateOf k il (history ++ more) = k.scan il (stateOf k il history) (rowsOf more il) := by
  unfold stateOf rowsOf
  rw [List.map_append, scan_append]

@[simp] theorem stateOf_nil : stateOf k il ([] : List (Entry Row DRow)) = k.zero il := rfl

/-! ## A pass -/

def Config.Delta (c : Config) (il : Nat) : Prop := ∃ spec, c.layers[il]? = some spec ∧ spec.isDelta = true

theorem layer_frame (call : Cpu.Call Row DRow) (spec : LayerSpec) (il : Nat) (s : Cpu Row St DRow) :
    (Cpu.layer k call spec il s).1.len = s.len ∧ (Cpu.layer k call spec il s).1.verify = s.verify ∧
      (Cpu.layer k call spec il s).1.checkpoint = s.checkpoint ∧
      ∀ j, j ≠ il → (Cpu.layer k call spec il s).1.cells j = s.cells j := by
  unfold Cpu.layer
  split <;> split
  · exact ⟨rfl, rfl, rfl, fun j hj => Function.update_of_ne hj _ _⟩
  · exact ⟨rfl, rfl, rfl, fun j _ => rfl⟩
  · exact ⟨rfl, rfl, rfl, fun j hj => Function.update_of_ne hj _ _⟩
  · exact ⟨rfl, rfl, rfl, fun j _ => rfl⟩

variable {s' : Cpu Row St DRow}

theorem layer_delta {call : Cpu.Call Row DRow} {spec : LayerSpec} {reads : List (Read Row)}
    (h : Cpu.layer k call spec il s = (s', .ok reads)) (hdelta : spec.isDelta = true) :
    s'.cells il = (s.cells il).forward k il (call.pass.deltaRows il call.t) call.record := by
  unfold Cpu.layer at h
  split at h
  · split at h <;> exact nomatch congrArg Prod.snd h
  · rw [if_pos hdelta] at h
    obtain rfl := congrArg Prod.fst h
    exact Function.update_self il _ _

variable {specs : List LayerSpec}

theorem forwardLayers_frame {call : Cpu.Call Row DRow}
    {r : Except CucaError (List (Read Row))} (h : Cpu.forwardLayers k call specs il s = (s', r)) :
    s'.len = s.len ∧ s'.verify = s.verify ∧ s'.checkpoint = s.checkpoint ∧ ∀ j < il, s'.cells j = s.cells j := by
  induction specs generalizing il s s' r with
  | nil =>
    unfold Cpu.forwardLayers at h
    split at h <;> obtain rfl := congrArg Prod.fst h <;> exact ⟨rfl, rfl, rfl, fun j _ => rfl⟩
  | cons spec specs ih =>
    unfold Cpu.forwardLayers at h
    obtain ⟨hlen, hverify, hcheckpoint, hcells⟩ := layer_frame (k := k) call spec il s
    split at h
    · rename_i s₁ e heq
      rw [heq] at hlen hverify hcheckpoint hcells
      obtain rfl := congrArg Prod.fst h
      exact ⟨hlen, hverify, hcheckpoint, fun j hj => hcells j (by omega)⟩
    · rename_i s₁ reads heq
      rw [heq] at hlen hverify hcheckpoint hcells
      have hrest {s₂ : Cpu Row St DRow} {r₂ : Except CucaError (List (Read Row))}
          (h₂ : Cpu.forwardLayers k call specs (il + 1) s₁ = (s₂, r₂)) : s₂.len = s.len ∧ s₂.verify = s.verify ∧
            s₂.checkpoint = s.checkpoint ∧ ∀ j < il, s₂.cells j = s.cells j := by
        obtain ⟨hlen', hverify', hcheckpoint', hcells'⟩ := ih h₂
        refine ⟨hlen'.trans hlen, hverify'.trans hverify, hcheckpoint'.trans hcheckpoint, fun j hj => ?_⟩
        exact (hcells' j (by omega)).trans (hcells j (by omega))
      split at h
      · rename_i s₂ e heq'
        obtain rfl := congrArg Prod.fst h
        exact hrest heq'
      · rename_i s₂ more heq'
        obtain rfl := congrArg Prod.fst h
        exact hrest heq'

/-- **A pass that succeeds runs all rows through every recurrent state.** -/
theorem forwardLayers_delta {call : Cpu.Call Row DRow} {reads : List (Read Row)}
    (hdrop : c.layers.drop il = specs) (h : Cpu.forwardLayers k call specs il s = (s', .ok reads)) {j : Nat} (hj : il ≤ j)
    (hdelta : c.Delta j) : s'.cells j = (s.cells j).forward k j (call.pass.deltaRows j call.t) call.record := by
  obtain ⟨spec', hspec', hdelta'⟩ := hdelta
  induction specs generalizing il s reads with
  | nil =>
    have hlt := (List.getElem?_eq_some_iff.mp hspec').1
    have hle := List.drop_eq_nil_iff.mp hdrop
    omega
  | cons spec specs ih =>
    obtain ⟨hspec, hrest⟩ := drop_cons hdrop
    unfold Cpu.forwardLayers at h
    obtain ⟨-, -, -, hcells⟩ := layer_frame (k := k) call spec il s
    split at h
    · exact nomatch congrArg Prod.snd h
    · rename_i s₁ first heq
      split at h
      · exact nomatch congrArg Prod.snd h
      · rename_i s₂ more heq'
        obtain rfl := congrArg Prod.fst h
        rw [heq] at hcells
        by_cases hhere : j = il
        · subst hhere
          obtain rfl : spec = spec' := Option.some.inj (hspec.symm.trans hspec')
          rw [(forwardLayers_frame heq').2.2.2 j (Nat.lt_succ_self j)]
          exact layer_delta heq hdelta'
        · rw [ih hrest heq' (by omega), hcells j hhere]

/-! ## Truncation -/

theorem ringFloor_plain (hplain : ∀ spec ∈ specs, spec.window = none) (slabs : Nat → Option (Slab Row)) :
    Cpu.ringFloor slabs specs il = 0 := by
  induction specs generalizing il with
  | nil => rfl
  | cons spec specs ih =>
    unfold Cpu.ringFloor
    rw [hplain spec List.mem_cons_self]
    have hrest (spec' : LayerSpec) (hspec' : spec' ∈ specs) : spec'.window = none := hplain spec' (List.mem_cons_of_mem spec hspec')
    cases slabs il <;> exact ih hrest

theorem makeRoom_plain (hplain : ∀ spec ∈ specs, spec.window = none) (start t : Nat)
    (slabs : Nat → Option (Slab Row)) : Cpu.makeRoom start t specs il slabs = (slabs, none) := by
  induction specs generalizing il with
  | nil => rfl
  | cons spec specs ih =>
    unfold Cpu.makeRoom
    rw [hplain spec List.mem_cons_self]
    have hrest (spec' : LayerSpec) (hspec' : spec' ∈ specs) : spec'.window = none := hplain spec' (List.mem_cons_of_mem spec hspec')
    cases slabs il <;> exact ih hrest

/-- What a truncation of a hybrid model can do, of `len` positions at most. -/
inductive Truncated (c : Config) (k : Kernel St DRow) (s : Cpu Row St DRow) (len : Nat) : Cpu Row St DRow × Nat → Prop where
  | discarded (hlen : len = 0) : Truncated c k s len (Cpu.discardState c k s, 0)
  | whole (hlen : 0 < len) (hall : s.len ≤ len) : Truncated c k s len (s, s.len)
  | replayed {v : Nat × Nat} (hlen : 0 < len) (hlt : len < s.len) (hv : s.verify = some v) (hfirst : v.1 ≤ len) :
    Truncated c k s len ({ s with
      cells := fun il => (s.cells il).restorePrefix k il (len - v.1), checkpoint := s.checkpoint.filter (· ≤ len), len }, len)
  | restored {kept : Nat} (hlen : 0 < len) (hlt : len < s.len) (hv : ∀ v ∈ s.verify, len < v.1) (hat : s.checkpoint = some kept)
    (hle : kept ≤ len) : Truncated c k s len ({ s with
      cells := fun il => (s.cells il).restoreCheckpoint, verify := none, checkpoint := some kept, len := kept }, kept)
  | zeroed (hlen : 0 < len) (hlt : len < s.len) (hv : ∀ v ∈ s.verify, len < v.1) (hat : ∀ kept ∈ s.checkpoint, len < kept) :
    Truncated c k s len ({ s with cells := fun il => (s.cells il).reset k il, verify := none, checkpoint := none, len := 0 }, 0)

/-- The record reaches to the end, and the checkpoint is not 0. -/
structure Placed (s : Cpu Row St DRow) : Prop where
  verify : ∀ v ∈ s.verify, v.1 ≤ s.len ∧ s.len ≤ v.1 + v.2
  checkpoint : ∀ kept ∈ s.checkpoint, 0 < kept

theorem truncatePositions_truncated (hhybrid : c.hybrid = true) (h : Placed s) (len : Nat) :
    Truncated c k s len (Cpu.truncatePositions c k s len) := by
  unfold Cpu.truncatePositions
  by_cases hzero : len = 0
  · rw [if_pos ⟨hhybrid, hzero⟩]
    exact .discarded hzero
  · rw [if_neg fun hboth => hzero hboth.2]
    have hpos := Nat.pos_of_ne_zero hzero
    by_cases hall : len ≥ s.len
    · rw [if_pos hall]
      exact .whole hpos hall
    · rw [if_neg hall, hhybrid, if_neg (by decide)]
      have hlt := Nat.lt_of_not_le hall
      by_cases hrecord : ∃ v ∈ s.verify, v.1 ≤ len
      · obtain ⟨v, hv, hfirst⟩ := hrecord
        have hv : s.verify = some v := hv
        have hend := (h.verify v hv).2
        have hin : s.verify.filter (fun v => v.1 ≤ len ∧ len < v.1 + v.2) = some v := by
          rw [hv, Option.filter_some, if_pos (by simp; omega)]
        have hkept : Cpu.keptAt s len = len := by
          unfold Cpu.keptAt
          rw [hin]
        dsimp only
        rw [hkept, hin]
        exact .replayed hpos hlt hv hfirst
      · have hv (v : Nat × Nat) (hmem : v ∈ s.verify) : len < v.1 := Nat.lt_of_not_le fun hle => hrecord ⟨v, hmem, hle⟩
        have hnot {kept : Nat} (hle : kept ≤ len) : s.verify.filter (fun v => v.1 ≤ kept ∧ kept < v.1 + v.2) = none := by
          rw [Option.filter_eq_none_iff]
          intro v hmem
          have hfirst := hv v hmem
          simp
          omega
        have hkept : Cpu.keptAt s len = (s.checkpoint.filter (· ≤ len)).getD 0 := by
          unfold Cpu.keptAt
          rw [hnot (Nat.le_refl len)]
        dsimp only
        cases hat : s.checkpoint with
        | none =>
          rw [hkept, hat]
          dsimp only [Option.filter_none, Option.getD_none]
          rw [hnot (Nat.zero_le len), if_neg (by simp)]
          exact .zeroed hpos hlt hv (by simp [hat])
        | some kept =>
          by_cases hle : kept ≤ len
          · have hfilter : (some kept).filter (· ≤ len) = some kept := by rw [Option.filter_some, if_pos (by simpa using hle)]
            have hself : (some kept).filter (· ≤ kept) = some kept := by rw [Option.filter_some, if_pos (by simp)]
            rw [hkept, hat, hfilter, Option.getD_some, hnot hle]
            dsimp only
            rw [if_pos rfl]
            dsimp only
            rw [hself]
            exact .restored hpos hlt hv hat hle
          · have hfilter : (some kept).filter (· ≤ len) = none := by rw [Option.filter_some, if_neg (by simpa using hle)]
            have hpositive := h.checkpoint kept hat
            have hzero' : (some kept).filter (· ≤ 0) = none := by rw [Option.filter_some, if_neg (by simp; omega)]
            rw [hkept, hat, hfilter, Option.getD_none, hnot (Nat.zero_le len)]
            dsimp only
            rw [if_neg (by simp; omega)]
            dsimp only
            rw [hzero']
            refine .zeroed hpos hlt hv fun kept' hmem => ?_
            obtain rfl : kept = kept' := Option.some.inj (hat.symm.trans hmem)
            exact Nat.lt_of_not_le hle

/-! ## Runs -/

/-- **The recurrent states are those of the retained sequence**: the live ones of all of it, the checkpoint's of its first positions, and
the record goes from one of its positions to the end. -/
structure Coherent (c : Config) (k : Kernel St DRow) (s : Traced Row St DRow) : Prop where
  length : s.history.length = s.cpu.len
  live : ∀ il, c.Delta il → (s.cpu.cells il).live = stateOf k il s.history
  checkpoint : ∀ kept ∈ s.cpu.checkpoint, 0 < kept ∧ kept ≤ s.cpu.len ∧
    ∀ il, c.Delta il → (s.cpu.cells il).checkpoint = stateOf k il (s.history.take kept)
  verify : ∀ v ∈ s.cpu.verify, s.record = some v ∧ v.1 ≤ s.cpu.len ∧ s.cpu.len ≤ v.1 + v.2 ∧
    ∀ il, c.Delta il → (s.cpu.cells il).pre = stateOf k il (s.history.take v.1) ∧
      (s.cpu.cells il).log.take (s.cpu.len - v.1) = rowsOf (s.history.drop v.1) il
  record : ∀ v ∈ s.record, s.cpu.verify = some v ∨ s.cpu.len < v.1 ∨ s.cpu.len = 0

def Restorable (s : Traced Row St DRow) (p : Nat) : Prop :=
  p = s.cpu.len ∨ p ∈ s.cpu.checkpoint ∨ ∃ v ∈ s.record, v.1 ≤ p ∧ p ≤ v.1 + v.2

/-- An empty cache and the zero state. -/
structure Emptied (c : Config) (k : Kernel St DRow) (s : Traced Row St DRow) : Prop where
  len : s.cpu.len = 0
  checkpoint : s.cpu.checkpoint = none
  live : ∀ il, c.Delta il → (s.cpu.cells il).live = k.zero il

def below (len : Nat) (checkpoint : Option Nat) : Option Nat := checkpoint.filter (· ≤ len)

/-- The checkpoint after a step. -/
def nextCheckpoint (c : Config) (k : Kernel St DRow) (s : Traced Row St DRow) (e : Event Row DRow) : Option Nat :=
  match e with
  | .checkpoint => if s.cpu.len = 0 then s.cpu.checkpoint else some s.cpu.len
  | _ => below (Traced.step c k s e).cpu.len s.cpu.checkpoint

/-- What a step must do to what can be gone back to. -/
def Settled (c : Config) (k : Kernel St DRow) (s : Traced Row St DRow) (e : Event Row DRow) : Prop :=
  (Traced.step c k s e).cpu.checkpoint = nextCheckpoint c k s e ∧
    match e with
    | .forward tokens start want exact pass =>
      match (Cpu.forwardExt c k s.cpu tokens.length start want exact pass).2 with
      | .ok _ => (Traced.step c k s e).history = s.history ++ entries tokens pass
      | .error _ =>
        if Cpu.rejection c s.cpu.len tokens.length start = none ∧ Cpu.unembedded c pass = none then Emptied c k (Traced.step c k s e)
        else (Traced.step c k s e).history = s.history
    | .truncate len =>
      IsGreatest {p | p = 0 ∨ p ≤ len ∧ p ≤ s.cpu.len ∧ Restorable s p} (Cpu.truncateCache c k s.cpu len).2 ∧
        (Traced.step c k s e).history = s.history.take (Cpu.truncateCache c k s.cpu len).2
    | .checkpoint => (Traced.step c k s e).history = s.history

theorem coherent_init (c : Config) (k : Kernel St DRow) (blank : Row) : Coherent c k (Traced.init c k blank) :=
  ⟨rfl, fun _ _ => rfl, fun _ h => (nomatch h), fun _ h => (nomatch h), fun _ h => (nomatch h)⟩

namespace Coherent
variable {s : Traced Row St DRow}

theorem placed (h : Coherent c k s) : Placed s.cpu :=
  ⟨fun v hv => ⟨(h.verify v hv).2.1, (h.verify v hv).2.2.1⟩, fun kept hkept => (h.checkpoint kept hkept).1⟩

theorem take_len (h : Coherent c k s) : s.history.take s.cpu.len = s.history := by
  rw [← h.length]
  exact List.take_length

theorem filter_checkpoint (h : Coherent c k s) {len : Nat} (hle : s.cpu.len ≤ len) :
    s.cpu.checkpoint.filter (· ≤ len) = s.cpu.checkpoint := by
  cases hat : s.cpu.checkpoint with
  | none => rfl
  | some kept =>
    have hkept := (h.checkpoint kept hat).2.1
    rw [Option.filter_some, if_pos (by simp; omega)]

theorem filter_zero (h : Coherent c k s) : s.cpu.checkpoint.filter (· ≤ 0) = none := by
  rw [Option.filter_eq_none_iff]
  intro kept hat
  have hpos := (h.checkpoint kept hat).1
  simp
  omega

theorem checkpoint_take (h : Coherent c k s) {len kept : Nat} (hat : kept ∈ s.cpu.checkpoint.filter (· ≤ len)) :
    0 < kept ∧ kept ≤ len ∧ ∀ il, c.Delta il → (s.cpu.cells il).checkpoint = stateOf k il ((s.history.take len).take kept) := by
  obtain ⟨hat, hle⟩ := Option.filter_eq_some_iff.mp hat
  have hle : kept ≤ len := by simpa using hle
  obtain ⟨hpos, -, hstate⟩ := h.checkpoint kept hat
  refine ⟨hpos, hle, fun il hdelta => ?_⟩
  rw [List.take_take, Nat.min_eq_left hle]
  exact hstate il hdelta

theorem replayDelta (h : Coherent c k s) {v : Nat × Nat} (hv : s.cpu.verify = some v) {len : Nat} (hfirst : v.1 ≤ len) (hlen : len ≤ s.cpu.len)
    (hdelta : c.Delta il) :
    (s.cpu.cells il).log.take (len - v.1) = rowsOf ((s.history.take len).drop v.1) il ∧
      k.scan il (s.cpu.cells il).pre ((s.cpu.cells il).log.take (len - v.1)) = stateOf k il (s.history.take len) := by
  obtain ⟨-, -, -, hcells⟩ := h.verify v hv
  obtain ⟨hpre, hlog⟩ := hcells il hdelta
  have hrows : (s.cpu.cells il).log.take (len - v.1) = rowsOf ((s.history.take len).drop v.1) il := by
    calc (s.cpu.cells il).log.take (len - v.1)
        = ((s.cpu.cells il).log.take (s.cpu.len - v.1)).take (len - v.1) := by rw [List.take_take, Nat.min_eq_left (by omega)]
      _ = rowsOf ((s.history.take len).drop v.1) il := by
          rw [hlog, List.drop_take]
          exact List.map_take.symm
  refine ⟨hrows, ?_⟩
  have htake : (s.history.take len).take v.1 = s.history.take v.1 := by rw [List.take_take, Nat.min_eq_left hfirst]
  calc k.scan il (s.cpu.cells il).pre ((s.cpu.cells il).log.take (len - v.1))
      = k.scan il (stateOf k il (s.history.take v.1)) (rowsOf ((s.history.take len).drop v.1) il) := by rw [hrows, hpre]
    _ = stateOf k il (s.history.take v.1 ++ (s.history.take len).drop v.1) := (stateOf_append _ _).symm
    _ = stateOf k il (s.history.take len) := by rw [← htake, List.take_append_drop]

/-- **A truncation** goes back to the largest position that it can, and leaves the states of what it retains. -/
theorem truncated (h : Coherent c k s) (hhybrid : c.hybrid = true) {len : Nat} {r : Cpu Row St DRow × Nat} (hr : Truncated c k s.cpu len r) :
    Coherent c k ⟨r.1, s.history.take r.2, s.record⟩ ∧ r.1.checkpoint = s.cpu.checkpoint.filter (· ≤ r.1.len) ∧
      IsGreatest {p | p = 0 ∨ p ≤ len ∧ p ≤ s.cpu.len ∧ Restorable s p} r.2 := by
  cases hr with
  | discarded hlen =>
    have hdiscard : Cpu.discardState c k s.cpu =
        { s.cpu with len := 0, cells := fun il => (s.cpu.cells il).reset k il, verify := none, checkpoint := none } := if_pos hhybrid
    rw [hdiscard]
    refine ⟨⟨rfl, fun _ _ => rfl, fun _ hat => (nomatch hat), fun _ hv => (nomatch hv), fun _ _ => .inr (.inr rfl)⟩,
      h.filter_zero.symm, .inl rfl, ?_⟩
    rintro p (rfl | ⟨hle, -⟩)
    · exact Nat.le_refl 0
    · dsimp only
      omega
  | whole hlen hall =>
    dsimp only
    rw [h.take_len]
    refine ⟨h, (h.filter_checkpoint (Nat.le_refl _)).symm, .inr ⟨hall, Nat.le_refl _, .inl rfl⟩, ?_⟩
    rintro p (rfl | ⟨-, hle, -⟩)
    · exact Nat.zero_le _
    · exact hle
  | @replayed v hlen hlt hv hfirst =>
    obtain ⟨hrecord, -, hend, hcells⟩ := h.verify v hv
    refine ⟨⟨?_, fun il hdelta => ?_, fun kept hat => h.checkpoint_take hat, fun v' hv' => ?_, fun v' hv' => ?_⟩, rfl,
      .inr ⟨Nat.le_refl _, hlt.le, .inr (.inr ⟨v, hrecord, hfirst, by omega⟩)⟩, ?_⟩
    · rw [List.length_take, h.length]
      exact Nat.min_eq_left hlt.le
    · exact (h.replayDelta hv hfirst hlt.le hdelta).2
    · obtain rfl : v = v' := Option.some.inj (hv.symm.trans hv')
      refine ⟨hrecord, hfirst, hlt.le.trans hend, fun il hdelta => ⟨?_, (h.replayDelta hv hfirst hlt.le hdelta).1⟩⟩
      rw [List.take_take, Nat.min_eq_left hfirst]
      exact (hcells il hdelta).1
    · obtain rfl : v = v' := Option.some.inj (hrecord.symm.trans hv')
      exact .inl hv
    · rintro p (rfl | ⟨hle, -⟩)
      · exact Nat.zero_le _
      · exact hle
  | @restored kept hlen hlt hv hat hle =>
    have hstate := (h.checkpoint kept hat).2.2
    have hpos := (h.checkpoint kept hat).1
    refine ⟨⟨?_, fun il hdelta => hstate il hdelta, fun kept' hat' => ?_, fun _ hv' => (nomatch hv'), fun v hrecord => .inr ?_⟩, ?_,
      .inr ⟨hle, hle.trans hlt.le, .inr (.inl hat)⟩, ?_⟩
    · rw [List.length_take, h.length]
      exact Nat.min_eq_left (hle.trans hlt.le)
    · obtain rfl := Option.some.inj hat'
      refine ⟨hpos, Nat.le_refl _, fun il hdelta => ?_⟩
      rw [List.take_take, Nat.min_self]
      exact hstate il hdelta
    · obtain hverify | hbelow | hzero := h.record v hrecord
      · exact .inl (hle.trans_lt (hv v hverify))
      · exact .inl ((hle.trans hlt.le).trans_lt hbelow)
      · omega
    · dsimp only
      rw [hat, Option.filter_some, if_pos (by simp)]
    · rintro p (rfl | ⟨hle', hend, rfl | hat' | ⟨v, hrecord, hfirst, -⟩⟩)
      · exact Nat.zero_le _
      · omega
      · exact Nat.le_of_eq (Option.some.inj (hat'.symm.trans hat))
      · obtain hverify | hbelow | hzero := h.record v hrecord
        · exact absurd (hv v hverify) (by omega)
        · omega
        · omega
  | zeroed hlen hlt hv hat =>
    refine ⟨⟨rfl, fun _ _ => rfl, fun _ hat' => (nomatch hat'), fun _ hv' => (nomatch hv'), fun _ _ => .inr (.inr rfl)⟩,
      h.filter_zero.symm, .inl rfl, ?_⟩
    rintro p (rfl | ⟨hle', hend, rfl | hat' | ⟨v, hrecord, hfirst, -⟩⟩)
    · exact Nat.le_refl 0
    · omega
    · exact absurd (hat p hat') (by omega)
    · obtain hverify | hbelow | hzero := h.record v hrecord
      · exact absurd (hv v hverify) (by omega)
      · omega
      · omega

theorem unchanged (h : Coherent c k s) (slabs : Nat → Option (Slab Row)) :
    Coherent c k ⟨{ s.cpu with slabs }, s.history.take s.cpu.len, s.record⟩ := by
  rw [h.take_len]
  exact ⟨h.length, h.live, h.checkpoint, h.verify, h.record⟩

/-- **A call**: what it retains runs through every recurrent state; a pass that fails leaves an empty cache. -/
theorem forward (hsound : LayersSound c.layers) (hhybrid : c.hybrid = true) (h : Coherent c k s) (tokens : List Token) (start : Nat)
    (want : Want) (exact : Bool) (pass : Pass Row DRow) :
    Coherent c k (Traced.step c k s (.forward tokens start want exact pass)) ∧ Settled c k s (.forward tokens start want exact pass) := by
  have hcalled := Cpu.forwardExt_called c k s.cpu tokens.length start want exact pass
  unfold Settled nextCheckpoint Traced.step
  dsimp only
  generalize Cpu.forwardExt c k s.cpu tokens.length start want exact pass = r at hcalled ⊢
  have hsame := (h.filter_checkpoint (Nat.le_refl s.cpu.len)).symm
  cases hcalled with
  | rejected hrejected =>
    refine ⟨h.unchanged s.cpu.slabs, hsame, ?_⟩
    dsimp only
    rw [if_neg fun hboth => Option.some_ne_none _ (hrejected.symm.trans hboth.1)]
    exact h.take_len
  | noRoom hok hmake =>
    rw [makeRoom_plain (hsound.hybrid hhybrid)] at hmake
    exact nomatch congrArg Prod.snd hmake
  | @unread slabs e hok hmake hembed =>
    refine ⟨h.unchanged slabs, hsame, ?_⟩
    dsimp only
    rw [if_neg fun hboth => Option.some_ne_none _ (hembed.symm.trans hboth.2)]
    exact h.take_len
  | @failed slabs s' e hok hmake hembed hpass =>
    have hdiscard : Cpu.discardState c k s' =
        { s' with len := 0, cells := fun il => (s'.cells il).reset k il, verify := none, checkpoint := none } := if_pos hhybrid
    dsimp only
    rw [hdiscard, if_pos ⟨hok, hembed⟩]
    exact ⟨⟨rfl, fun _ _ => rfl, fun _ hat => (nomatch hat), fun _ hv => (nomatch hv), fun _ _ => .inr (.inr rfl)⟩, h.filter_zero.symm,
      rfl, rfl, fun _ _ => rfl⟩
  | @passed slabs s' reads hok hmake hembed hpass =>
    obtain ⟨-, rfl, -⟩ := Cpu.of_rejection c hok
    obtain ⟨hlen, hverify, hcheckpoint, -⟩ := forwardLayers_frame hpass
    have hcell (il : Nat) (hdelta : c.Delta il) : s'.cells il =
        (s.cpu.cells il).forward k il (pass.deltaRows il tokens.length) (Cpu.recorded c tokens.length want) :=
      forwardLayers_delta List.drop_zero hpass (Nat.zero_le il) hdelta
    have hverify : s'.verify = none := hverify
    have hcheckpoint : s'.checkpoint = s.cpu.checkpoint := hcheckpoint
    have hbefore {n : Nat} (hn : n ≤ s.cpu.len) : (s.history ++ entries tokens pass).take n = s.history.take n :=
      List.take_append_of_le_length (h.length.symm ▸ hn)
    dsimp only
    refine ⟨⟨?_, fun il hdelta => ?_, fun kept hat => ?_, fun v hv => ?_, fun v hv => ?_⟩, ?_, rfl⟩
    · rw [List.length_append, entries_length, h.length]
    · rw [hcell il hdelta, stateOf_append, rowsOf_entries, ← h.live il hdelta]
      unfold Cell.forward
      dsimp only
      split <;> rfl
    · obtain ⟨hpos, hle, hstate⟩ := h.checkpoint kept (hcheckpoint ▸ hat)
      refine ⟨hpos, by dsimp only; omega, fun il hdelta => ?_⟩
      dsimp only
      rw [hcell il hdelta, hbefore hle, ← hstate il hdelta]
      unfold Cell.forward
      dsimp only
      split <;> rfl
    · rw [hverify] at hv
      dsimp only at hv ⊢
      split at hv
      · rename_i hrecorded
        obtain rfl := Option.some.inj hv
        rw [if_pos hrecorded]
        refine ⟨rfl, Nat.le_add_right _ _, Nat.le_refl _, fun il hdelta => ?_⟩
        rw [hcell il hdelta, hrecorded, hbefore (Nat.le_refl _), h.take_len, Nat.add_sub_cancel_left, ← h.length, List.drop_left,
          rowsOf_entries]
        refine ⟨h.live il hdelta, List.take_of_length_le ?_⟩
        exact Nat.le_of_eq (by simp [Cell.forward, Cell.beginRecord, Pass.deltaRows])
      · exact nomatch hv
    · dsimp only at hv ⊢
      split at hv
      · rename_i hrecorded
        rw [if_pos hrecorded]
        exact .inl hv
      · exact nomatch hv
    · rw [hcheckpoint]
      exact (h.filter_checkpoint (Nat.le_add_right _ _)).symm

theorem truncate (hsound : LayersSound c.layers) (hhybrid : c.hybrid = true) (h : Coherent c k s) (len : Nat) :
    Coherent c k (Traced.step c k s (.truncate len)) ∧ Settled c k s (.truncate len) := by
  obtain ⟨hcoherent, hcheckpoint, hgreatest⟩ := h.truncated hhybrid (truncatePositions_truncated (k := k) hhybrid h.placed len)
  have hlen := (truncatePositions_len (c := c) (k := k) s.cpu len).2.1
  unfold Settled nextCheckpoint Traced.step Cpu.truncateCache
  dsimp only
  rw [ringFloor_plain (hsound.hybrid hhybrid), if_neg (Nat.not_lt_zero len)]
  split
  · rename_i hzero
    rw [hzero] at hcoherent hgreatest
    exact ⟨⟨hcoherent.length, hcoherent.live, hcoherent.checkpoint, hcoherent.verify, hcoherent.record⟩, hcheckpoint, hgreatest, rfl⟩
  · exact ⟨hcoherent, hcheckpoint, hgreatest, rfl⟩

theorem takeCheckpoint (hhybrid : c.hybrid = true) (h : Coherent c k s) :
    Coherent c k (Traced.step c k s .checkpoint) ∧ Settled c k s .checkpoint := by
  unfold Settled nextCheckpoint Traced.step Cpu.takeCheckpoint
  dsimp only
  by_cases hzero : s.cpu.len = 0
  · rw [if_pos (.inr hzero), if_pos hzero]
    exact ⟨h, rfl, rfl⟩
  · rw [if_neg (by simp [hhybrid, hzero]), if_neg hzero]
    refine ⟨⟨h.length, h.live, fun kept hat => ?_, h.verify, h.record⟩, rfl, rfl⟩
    obtain rfl := Option.some.inj hat
    refine ⟨Nat.pos_of_ne_zero hzero, Nat.le_refl _, fun il hdelta => ?_⟩
    rw [h.take_len]
    exact h.live il hdelta

theorem step (hsound : LayersSound c.layers) (hhybrid : c.hybrid = true) (h : Coherent c k s) (e : Event Row DRow) :
    Coherent c k (Traced.step c k s e) ∧ Settled c k s e := by
  cases e with
  | forward tokens start want exact pass => exact h.forward hsound hhybrid tokens start want exact pass
  | truncate len => exact h.truncate hsound hhybrid len
  | checkpoint => exact h.takeCheckpoint hhybrid

end Coherent

/-- **Going back is sound**: in every run of a hybrid model the recurrent states are those of the retained sequence from the zero state,
a truncation returns the largest position that can be gone back to, and a pass that fails leaves an empty cache. -/
theorem rollback_sound (c : Config) (k : Kernel St DRow) (blank : Row) {arch : Arch} {value : String → Option Value}
    {block : Nat → Bool → Except CucaError Unit} (hlayers : layerList arch value block = .ok c.layers) (hhybrid : c.hybrid = true)
    (events : List (Event Row DRow)) :
    Throughout (Traced.step c k) (Coherent c k) (Traced.init c k blank) events ∧
      Along (Traced.step c k) (Settled c k) (Traced.init c k blank) events := by
  have hsound := layerList_sound hlayers
  have hinit := coherent_init c k blank
  generalize Traced.init c k blank = s at hinit ⊢
  induction events generalizing s with
  | nil => exact ⟨hinit, trivial⟩
  | cons e events ih =>
    obtain ⟨hcoherent, hsettled⟩ := hinit.step hsound hhybrid e
    obtain ⟨hthroughout, halong⟩ := ih _ hcoherent
    exact ⟨⟨hinit, hthroughout⟩, hsettled, halong⟩

/-- A file of a hybrid model: a delta-net layer and an attention layer. -/
def hybridFile : String → Option Value := fun key =>
  if key = "block_count" then some (.integer 2) else if key = "full_attention_interval" then some (.integer 2)
  else if key = "nextn_predict_layers" ∨ key = "attention.sliding_window" then none else some (.integer 1)

def hybridModel : Config :=
  ⟨[⟨.deltaNet ⟨1, 1, 1, 1, 1⟩, none, none⟩, ⟨.attention, none, some 1⟩], 64, by decide, false⟩

def listKernel : Kernel (List Nat) Nat := ⟨fun _ => [], [], fun _ state row => state ++ [row]⟩

def countingPass : Pass Nat Nat := ⟨fun _ i => i, fun _ i => i, none, none⟩

theorem rollback_sound_small :
    Throughout (Traced.step hybridModel listKernel) (Coherent hybridModel listKernel) (Traced.init hybridModel listKernel 0)
        [.forward [7, 8, 9] 0 .all false countingPass, .truncate 2, .checkpoint, .forward [5] 2 .last false countingPass, .truncate 2] ∧
      Along (Traced.step hybridModel listKernel) (Settled hybridModel listKernel) (Traced.init hybridModel listKernel 0)
        [.forward [7, 8, 9] 0 .all false countingPass, .truncate 2, .checkpoint, .forward [5] 2 .last false countingPass, .truncate 2] := by
  have hlayers : layerList .qwen35 hybridFile (fun _ _ => .ok ()) = .ok hybridModel.layers := by rfl
  exact rollback_sound hybridModel listKernel 0 hlayers rfl _

/-- After a recorded call of four rows and a truncation to 2, position 3 is one of the recorded call's, and below the length asked for, but
2 is returned. -/
theorem recorded_position_not_returned :
    let recorded := Traced.step hybridModel listKernel (Traced.init hybridModel listKernel 0) (.forward [1, 2, 3, 4] 0 .all false countingPass)
    let shorter := Traced.step hybridModel listKernel recorded (.truncate 2)
    shorter.record = some (0, 4) ∧ shorter.cpu.verify = some (0, 4) ∧ (Cpu.truncateCache hybridModel listKernel shorter.cpu 3).2 = 2 ∧
      ¬IsGreatest {p | p = 0 ∨ p ≤ 3 ∧ Restorable shorter p} (Cpu.truncateCache hybridModel listKernel shorter.cpu 3).2 := by
  refine ⟨rfl, rfl, rfl, fun hgreatest => ?_⟩
  have hthree : 3 ≤ 2 := hgreatest.2 (.inr ⟨Nat.le_refl 3, .inr (.inr ⟨(0, 4), rfl, by decide, by decide⟩)⟩)
  exact absurd hthree (by decide)

end Cuca.Local.Model
