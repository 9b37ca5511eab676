import Cuca.Local.Model.DeltaNet
import Cuca.Local.Model.Transformer
import Mathlib.Data.Option.NAry

/-!
# Scans in parts

A scan of some rows and then of others is the scan of all of them: the history that the first leaves is what the second
reads in place of the rows before it, and every head goes on from the matrix it had.

* `row_append_first`, `row_append_second` : the rows that the two scans read, in the window of the whole;
* `scanHead_append`, `headRows_append` : one head;
* `scan_append` : the state and the outputs of a scan in parts;
* `scan_chunks` : both, and the state that a rollback restores.
-/

namespace Cuca.Local.DeltaNet
open Blocks Model

variable {α : Type} (ops : Scalar α)

/-! ## Shapes -/

structure DeltaState.Fits (d : DeltaSpec) (state : DeltaState α) : Prop where
  conv : state.conv.length = d.historyRows * d.convDim
  s : state.s.length = d.nVHeads * (d.headKDim * d.headVDim)

structure Rows.Fits (d : DeltaSpec) (rows : Rows α) : Prop where
  mixed : rows.mixed.length = rows.t * d.convDim
  beta : rows.beta.length = rows.t * d.nVHeads
  decay : rows.decay.length = rows.t * d.nVHeads

def GatesFit (d : DeltaSpec) (rows : Rows α) (z : Option (List α)) : Prop := ∀ gates ∈ z, gates.length = rows.t * d.valueDim

instance : Append (Rows α) :=
  ⟨fun first second => ⟨first.t + second.t, first.mixed ++ second.mixed, first.beta ++ second.beta, first.decay ++ second.decay⟩⟩

theorem Rows.fits_append {d : DeltaSpec} {first second : Rows α} (h₁ : first.Fits d) (h₂ : second.Fits d) :
    (first ++ second).Fits d where
  mixed := by
    show (first.mixed ++ second.mixed).length = (first.t + second.t) * d.convDim
    rw [List.length_append, h₁.mixed, h₂.mixed, Nat.add_mul]
  beta := by
    show (first.beta ++ second.beta).length = (first.t + second.t) * d.nVHeads
    rw [List.length_append, h₁.beta, h₂.beta, Nat.add_mul]
  decay := by
    show (first.decay ++ second.decay).length = (first.t + second.t) * d.nVHeads
    rw [List.length_append, h₁.decay, h₂.decay, Nat.add_mul]

/-! ## The window -/

section window
variable {d : DeltaSpec} {state : DeltaState α} {first second : Rows α}

theorem length_row {rows : Rows α} (hstate : state.Fits d) (hrows : rows.Fits d) {r : Nat} (hr : r < d.historyRows + rows.t) :
    ((window d state rows).row r).length = d.convDim := by
  rw [Window.row]
  split
  case isTrue hlt =>
    apply length_block
    rw [show (window d state rows).history = state.conv from rfl, hstate.conv]
    exact Nat.mul_le_mul_right _ hlt
  case isFalse hle =>
    apply length_block
    rw [show (window d state rows).mixed = rows.mixed from rfl, hrows.mixed]
    apply Nat.mul_le_mul_right
    show r - d.historyRows + 1 ≤ rows.t
    have hge : ¬ r < d.historyRows := hle
    omega

theorem row_append_first (h₁ : first.Fits d) {r : Nat} (hr : r < d.historyRows + first.t) :
    (window d state (first ++ second)).row r = (window d state first).row r := by
  rw [Window.row, Window.row]
  show (if r < d.historyRows then _ else block d.convDim (first.mixed ++ second.mixed) (r - d.historyRows)) =
    if r < d.historyRows then _ else block d.convDim first.mixed (r - d.historyRows)
  split
  case isTrue => rfl
  case isFalse hle =>
    apply block_append_left
    rw [h₁.mixed]
    apply Nat.mul_le_mul_right
    omega

theorem row_append_second (hstate : state.Fits d) (h₁ : first.Fits d) {s : List α} (r : Nat) :
    (window d ⟨nextHistory d state first, s⟩ second).row r = (window d state (first ++ second)).row (first.t + r) := by
  by_cases hr : r < d.historyRows
  · have hblock : block d.convDim (nextHistory d state first) r = (window d state first).row (first.t + r) :=
      block_flatMap (fun i hi => length_row hstate h₁ (by omega)) hr
    rw [Window.row, row_append_first h₁ (by omega), ← hblock]
    exact if_pos hr
  · have hr' : ¬ first.t + r < d.historyRows := by omega
    have hsub : first.t + r - d.historyRows = first.t + (r - d.historyRows) := by omega
    rw [Window.row, Window.row]
    show (if r < d.historyRows then _ else block d.convDim second.mixed (r - d.historyRows)) =
      if first.t + r < d.historyRows then _ else block d.convDim (first.mixed ++ second.mixed) (first.t + r - d.historyRows)
    rw [if_neg hr, if_neg hr', hsub, block_append_right h₁.mixed]

end window

/-! ## A head -/

section head
variable {k : DeltaKernel α} {d : DeltaSpec} {state : DeltaState α} {first second : Rows α}

theorem scanHead_cons (h : Nat) (row : HeadRow α) (rows : List (HeadRow α)) (matrix : List α) :
    scanHead ops k h (row :: rows) matrix =
      ((scanHead ops k h rows (headStep ops k h matrix row).1).1,
        (headStep ops k h matrix row).2.toList ++ (scanHead ops k h rows (headStep ops k h matrix row).1).2) := rfl

theorem scanHead_append (h : Nat) (xs ys : List (HeadRow α)) (matrix : List α) :
    scanHead ops k h (xs ++ ys) matrix =
      ((scanHead ops k h ys (scanHead ops k h xs matrix).1).1,
        (scanHead ops k h xs matrix).2 ++ (scanHead ops k h ys (scanHead ops k h xs matrix).1).2) := by
  induction xs generalizing matrix with
  | nil => rfl
  | cons row xs ih =>
    rw [List.cons_append, scanHead_cons, scanHead_cons, ih, List.append_assoc]

theorem getD_append_first {xs ys : List α} {n width i j : Nat} {fill : α} (hxs : xs.length = n * width) (hi : i < n)
    (hj : j < width) : (xs ++ ys).getD (i * width + j) fill = xs.getD (i * width + j) fill := by
  have hlt : (i + 1) * width ≤ n * width := Nat.mul_le_mul_right width hi
  rw [Nat.add_mul, Nat.one_mul] at hlt
  exact List.getD_append _ _ _ _ (by omega)

theorem getD_append_second {xs ys : List α} {n width i j : Nat} {fill : α} (hxs : xs.length = n * width) :
    (xs ++ ys).getD ((n + i) * width + j) fill = ys.getD (i * width + j) fill := by
  rw [Nat.add_mul, List.getD_append_right _ _ _ _ (by omega)]
  congr 1
  omega

theorem gate_eq_block (gates : List α) (h ti : Nat) :
    (gates.drop (ti * d.valueDim + h * d.headVDim)).take d.headVDim = block d.headVDim gates (ti * d.nVHeads + h) := by
  rw [block, DeltaSpec.valueDim, Nat.add_mul, Nat.mul_assoc]

theorem headRows_append (hstate : state.Fits d) (h₁ : first.Fits d) (z : Option (List α × List α))
    (hz : GatesFit d first (z.map Prod.fst)) {h : Nat} (hh : h < d.nVHeads) {s : List α} :
    headRows ops d (window d state (first ++ second)) (first ++ second) (z.map fun z => z.1 ++ z.2) h =
      headRows ops d (window d state first) first (z.map Prod.fst) h ++
        headRows ops d (window d ⟨nextHistory d state first, s⟩ second) second (z.map Prod.snd) h := by
  have ht : (first ++ second).t = first.t + second.t := rfl
  rw [headRows, headRows, headRows, ht, List.range_add, List.map_append, List.map_map]
  congr 1
  · apply List.map_congr_left
    intro ti hti
    have hti := List.mem_range.mp hti
    rw [headRow, headRow, HeadRow.mk.injEq]
    refine ⟨?_, getD_append_first h₁.beta hti hh, getD_append_first h₁.decay hti hh, ?_⟩
    · apply List.map_congr_left
      intro i hi
      have hi := List.mem_range.mp hi
      have hhistory : d.historyRows = d.convKernel - 1 := rfl
      exact row_append_first h₁ (by omega)
    · rcases z with _ | ⟨z₁, z₂⟩
      · rfl
      · have hlength := hz z₁ rfl
        have hle : (ti * d.nVHeads + h + 1) * d.headVDim ≤ z₁.length := by
          rw [hlength, DeltaSpec.valueDim, ← Nat.mul_assoc]
          apply Nat.mul_le_mul_right
          have hle : (ti + 1) * d.nVHeads ≤ first.t * d.nVHeads := Nat.mul_le_mul_right _ hti
          rw [Nat.add_mul, Nat.one_mul] at hle
          omega
        simp only [Option.map_some, gate_eq_block, block_append_left hle]
  · apply List.map_congr_left
    intro ti _
    rw [Function.comp, headRow, headRow, HeadRow.mk.injEq]
    refine ⟨?_, getD_append_second h₁.beta, getD_append_second h₁.decay, ?_⟩
    · apply List.map_congr_left
      intro i _
      rw [row_append_second hstate h₁, Nat.add_assoc]
    · rcases z with _ | ⟨z₁, z₂⟩
      · rfl
      · have hlength : z₁.length = first.t * d.nVHeads * d.headVDim := by
          rw [hz z₁ rfl, DeltaSpec.valueDim, Nat.mul_assoc]
        have hrow : (first.t + ti) * d.nVHeads + h = first.t * d.nVHeads + (ti * d.nVHeads + h) := by
          rw [Nat.add_mul, Nat.add_assoc]
        simp only [Option.map_some, gate_eq_block, hrow, block_append_right hlength]

end head

/-! ## Lengths -/

section lengths
variable {k : DeltaKernel α} {d : DeltaSpec}

theorem length_zipInto {β : Type} (f : α → β → α) (xs : List α) (ys : List β) : (zipInto f xs ys).length = xs.length := by
  induction xs generalizing ys with
  | nil => cases ys <;> rfl
  | cons x xs ih =>
    cases ys with
    | nil => rfl
    | cons y ys => rw [zipInto, List.length_cons, List.length_cons, ih]

theorem zipInto_zip_left {β γ : Type} (f : α → β → α) (xs : List α) {ys : List β} {zs : List γ} (h : ys.length ≤ zs.length) :
    zipInto (fun x p => f x p.1) xs (ys.zip zs) = zipInto f xs ys := by
  induction xs generalizing ys zs with
  | nil => cases ys <;> cases zs <;> rfl
  | cons x xs ih =>
    cases ys with
    | nil => rfl
    | cons y ys =>
      cases zs with
      | nil => cases h
      | cons z zs => rw [List.zip_cons_cons, zipInto, zipInto, ih (Nat.le_of_succ_le_succ h)]

theorem length_convSlice (under : List (List α)) (off len : Nat) : (convSlice ops k under off len).length = len := by
  rw [convSlice, List.length_map]
  have hzeros : (ops.zeros len).length = len := List.length_replicate
  generalize ops.zeros len = dst at hzeros
  generalize under.zipIdx = taps
  induction taps generalizing dst with
  | nil => exact hzeros
  | cons tap taps ih =>
    apply ih
    rw [length_zipInto, hzeros]

theorem length_l2Normalise (xs : List α) : (ops.l2Normalise xs).length = xs.length := List.length_map _

theorem length_decayRows (dv : Nat) (decay : α) (key : List α) (i : Nat) (matrix kvMem : List α) :
    (decayRows ops dv decay key i (matrix, kvMem)).1.length = matrix.length ∧
      (decayRows ops dv decay key i (matrix, kvMem)).2.length = kvMem.length := by
  induction key generalizing i matrix kvMem with
  | nil => exact ⟨rfl, rfl⟩
  | cons ki key ih =>
    obtain ⟨hmatrix, hkvMem⟩ := ih (i + 1) (overwrite matrix (zipInto (fun sv _ => ops.mul sv decay) (block dv matrix i) kvMem) (i * dv))
      (zipInto (fun m sv => ops.add m (ops.mul (ops.mul sv decay) ki)) kvMem (block dv matrix i))
    rw [length_overwrite] at hmatrix
    rw [length_zipInto] at hkvMem
    exact ⟨hmatrix, hkvMem⟩

theorem length_writeOnly (dv : Nat) (delta key : List α) (i : Nat) (matrix : List α) :
    (writeOnly ops dv delta key i matrix).length = matrix.length := by
  induction key generalizing i matrix with
  | nil => rfl
  | cons ki key ih => rw [writeOnly, ih, length_overwrite]

theorem writeRead_fst (dv : Nat) (delta : List α) {key query : List α} (hkey : key.length ≤ query.length) (i : Nat)
    (matrix : List α) {o : List α} (ho : delta.length ≤ o.length) :
    (writeRead ops dv delta (key.zip query) i (matrix, o)).1 = writeOnly ops dv delta key i matrix := by
  induction key generalizing query i matrix o with
  | nil => rfl
  | cons ki key ih =>
    cases query with
    | nil => cases hkey
    | cons qi query =>
      rw [List.zip_cons_cons, writeRead, writeOnly, ih (Nat.le_of_succ_le_succ hkey)]
      · rw [zipInto_zip_left (fun sv dj => ops.add sv (ops.mul ki dj)) _ ho]
      · rw [length_zipInto]
        exact ho

end lengths

/-! ## Gates -/

section gates
variable {k : DeltaKernel α}

def HeadRow.ungated (row : HeadRow α) : HeadRow α := { row with gate := none }

theorem headStep_fst (h : Nat) (matrix : List α) (row : HeadRow α) :
    (headStep ops k h matrix row).1 = (headStep ops k h matrix row.ungated).1 := by
  rcases hgate : row.gate with _ | gate
  · rw [headStep, headStep, hgate]
    rfl
  · rw [headStep, headStep, hgate]
    apply writeRead_fst
    · rw [length_l2Normalise, length_convSlice, List.length_map, length_l2Normalise, length_convSlice]
    · rw [length_zipInto]

theorem length_headStep (h : Nat) (matrix : List α) (row : HeadRow α) :
    (headStep ops k h matrix row).1.length = matrix.length := by
  rw [headStep_fst, headStep]
  exact (length_writeOnly ops _ _ _ _ _).trans (length_decayRows ops _ _ _ _ _ _).1

theorem length_scanHead (h : Nat) (rows : List (HeadRow α)) (matrix : List α) :
    (scanHead ops k h rows matrix).1.length = matrix.length := by
  induction rows generalizing matrix with
  | nil => rfl
  | cons row rows ih => rw [scanHead_cons, ih, length_headStep]

theorem scanHead_fst (h : Nat) {rows rows' : List (HeadRow α)} (matrix : List α)
    (hrows : rows.map HeadRow.ungated = rows'.map HeadRow.ungated) :
    (scanHead ops k h rows matrix).1 = (scanHead ops k h rows' matrix).1 := by
  induction rows generalizing rows' matrix with
  | nil =>
    rw [List.map_nil] at hrows
    rw [List.map_eq_nil_iff.mp hrows.symm]
  | cons row rows ih =>
    obtain ⟨row', rows', rfl, hrow, hrows⟩ := List.map_eq_cons_iff.mp hrows.symm
    rw [scanHead_cons, scanHead_cons, headStep_fst, ← hrow, ← headStep_fst]
    exact ih _ hrows.symm

theorem length_scanHead_snd (h : Nat) {rows : List (HeadRow α)} (hgates : ∀ row ∈ rows, row.gate.isSome) (matrix : List α) :
    (scanHead ops k h rows matrix).2.length = rows.length := by
  induction rows generalizing matrix with
  | nil => rfl
  | cons row rows ih =>
    obtain ⟨gate, hgate⟩ := Option.isSome_iff_exists.mp (hgates row List.mem_cons_self)
    have hout : (headStep ops k h matrix row).2.toList.length = 1 := by rw [headStep, hgate]; rfl
    rw [scanHead_cons, List.length_append, hout, ih fun row' hrow' => hgates row' (List.mem_cons_of_mem _ hrow'),
      List.length_cons, Nat.add_comm]

end gates

/-! ## Scans -/

section scans
variable {k : DeltaKernel α} {state : DeltaState α} {rows first second : Rows α}

def scanned (k : DeltaKernel α) (state : DeltaState α) (rows : Rows α) : DeltaState α :=
  ⟨nextHistory k.spec state rows, (List.range k.spec.nVHeads).flatMap fun h => (headOf ops k state rows none h).1⟩

theorem headOf_fst (z : Option (List α)) (h : Nat) : (headOf ops k state rows z h).1 = (headOf ops k state rows none h).1 := by
  apply scanHead_fst
  rw [headRows, headRows, List.map_map, List.map_map]
  rfl

theorem scan_eq (z : Option (List α)) :
    scan ops k state rows z = if panics k.spec then none else
      some (scanned ops k state rows,
        z.map fun _ => outputRows rows.t ((List.range k.spec.nVHeads).map fun h => (headOf ops k state rows z h).2)) := by
  rw [scan, scanned, ← List.flatMap_congr fun h _ => headOf_fst ops z h]
  simp only [List.flatMap_map, List.map_map, Function.comp_def]

theorem length_matrix (hstate : state.Fits k.spec) {h : Nat} (hh : h < k.spec.nVHeads) :
    (block (k.spec.headKDim * k.spec.headVDim) state.s h).length = k.spec.headKDim * k.spec.headVDim := by
  apply length_block
  rw [hstate.s]
  exact Nat.mul_le_mul_right _ hh

theorem length_headOf (hstate : state.Fits k.spec) (z : Option (List α)) {h : Nat} (hh : h < k.spec.nVHeads) :
    (headOf ops k state rows z h).1.length = k.spec.headKDim * k.spec.headVDim := by
  rw [headOf, length_scanHead, length_matrix hstate hh]

theorem block_scanned (hstate : state.Fits k.spec) {h : Nat} (hh : h < k.spec.nVHeads) (z : Option (List α)) :
    block (k.spec.headKDim * k.spec.headVDim) (scanned ops k state rows).s h = (headOf ops k state rows z h).1 := by
  rw [headOf_fst]
  exact block_flatMap (fun _ hh => length_headOf ops hstate none hh) hh

/-- **A head** of all rows goes on, for the others, from where it was after the first. -/
theorem headOf_append (hstate : state.Fits k.spec) (h₁ : first.Fits k.spec) (z : Option (List α × List α))
    (hz : GatesFit k.spec first (z.map Prod.fst)) {h : Nat} (hh : h < k.spec.nVHeads) :
    headOf ops k state (first ++ second) (z.map fun z => z.1 ++ z.2) h =
      ((headOf ops k (scanned ops k state first) second (z.map Prod.snd) h).1,
        (headOf ops k state first (z.map Prod.fst) h).2 ++
          (headOf ops k (scanned ops k state first) second (z.map Prod.snd) h).2) := by
  have hblock := @block_scanned _ ops k state first hstate h hh (z.map Prod.fst)
  rw [headOf, headRows_append ops hstate h₁ z hz hh, scanHead_append]
  rw [headOf, headOf, hblock]
  rfl

theorem scanned_append (hstate : state.Fits k.spec) (h₁ : first.Fits k.spec) :
    scanned ops k state (first ++ second) = scanned ops k (scanned ops k state first) second := by
  rw [scanned, scanned, DeltaState.mk.injEq]
  constructor
  · apply List.flatMap_congr
    intro i _
    rw [scanned, row_append_second hstate h₁, ← Nat.add_assoc]
    rfl
  · apply List.flatMap_congr
    intro h hh
    have hnone : GatesFit k.spec first none := fun _ hgates => absurd hgates (by simp)
    have happend : (headOf ops k state (first ++ second) none h).1 = _ :=
      congrArg Prod.fst (headOf_append ops hstate h₁ none hnone (List.mem_range.mp hh))
    exact happend

theorem outputRows_append {n t₁ t₂ : Nat} {f g : Nat → List (List α)} (hf : ∀ h < n, (f h).length = t₁) :
    outputRows (t₁ + t₂) ((List.range n).map fun h => f h ++ g h) =
      outputRows t₁ ((List.range n).map f) ++ outputRows t₂ ((List.range n).map g) := by
  rw [outputRows, outputRows, outputRows, List.range_add, List.flatMap_append, List.flatMap_map]
  congr 1
  · apply List.flatMap_congr
    intro ti hti
    rw [List.flatMap_map, List.flatMap_map]
    apply List.flatMap_congr
    intro h hh
    have hlt : ti < (f h).length := hf h (List.mem_range.mp hh) ▸ List.mem_range.mp hti
    exact List.getD_append _ _ _ _ hlt
  · apply List.flatMap_congr
    intro ti _
    rw [List.flatMap_map, List.flatMap_map]
    apply List.flatMap_congr
    intro h hh
    have hlength := hf h (List.mem_range.mp hh)
    rw [List.getD_append_right _ _ _ _ (by omega), hlength, Nat.add_sub_cancel_left]

theorem length_headOf_snd (gates : List α) (h : Nat) : (headOf ops k state rows (some gates) h).2.length = rows.t := by
  rw [headOf, length_scanHead_snd, headRows, List.length_map, List.length_range]
  intro row hrow
  obtain ⟨ti, _, rfl⟩ := List.mem_map.mp hrow
  rfl

/-- **Scans in parts** : the state and the outputs of a scan are those of scans one after the other. -/
theorem scan_append (hstate : state.Fits k.spec) (h₁ : first.Fits k.spec) (z : Option (List α × List α))
    (hz : GatesFit k.spec first (z.map Prod.fst)) :
    scan ops k state (first ++ second) (z.map fun z => z.1 ++ z.2) =
      (scan ops k state first (z.map Prod.fst)).bind fun before =>
        (scan ops k before.1 second (z.map Prod.snd)).map fun after => (after.1, Option.map₂ (· ++ ·) before.2 after.2) := by
  rw [scan_eq, scan_eq]
  by_cases hpanics : panics k.spec
  · rw [if_pos hpanics, if_pos hpanics]
    rfl
  · rw [if_neg hpanics, if_neg hpanics, Option.bind_some, scan_eq, if_neg hpanics, Option.map_some, scanned_append ops hstate h₁]
    rcases z with _ | ⟨z₁, z₂⟩
    · rfl
    · have hheads : ((List.range k.spec.nVHeads).map fun h => (headOf ops k state (first ++ second) (some (z₁ ++ z₂)) h).2) =
          (List.range k.spec.nVHeads).map fun h => (headOf ops k state first (some z₁) h).2 ++
            (headOf ops k (scanned ops k state first) second (some z₂) h).2 := by
        apply List.map_congr_left
        intro h hh
        exact congrArg Prod.snd (headOf_append ops hstate h₁ (some (z₁, z₂)) hz (List.mem_range.mp hh))
      simp only [Option.map_some, Option.map₂_some_some]
      rw [hheads, show (first ++ second).t = first.t + second.t from rfl,
        outputRows_append fun h _ => length_headOf_snd ops z₁ h]

end scans

/-! ## Rollback -/

section rollback
variable {k : DeltaKernel α} {state : DeltaState α} {rows first second : Rows α}

theorem scanned_none (hstate : state.Fits k.spec) (ht : rows.t = 0) : scanned ops k state rows = state := by
  obtain ⟨conv, s⟩ := state
  rw [scanned, DeltaState.mk.injEq]
  constructor
  · have hrow : ∀ i ∈ List.range k.spec.historyRows,
        (window k.spec ⟨conv, s⟩ rows).row (rows.t + i) = block k.spec.convDim conv i := by
      intro i hi
      rw [ht, Nat.zero_add]
      exact if_pos (List.mem_range.mp hi)
    rw [nextHistory, List.flatMap_congr hrow]
    exact flatMap_block hstate.conv
  · have hhead : ∀ h ∈ List.range k.spec.nVHeads,
        (headOf ops k ⟨conv, s⟩ rows none h).1 = block (k.spec.headKDim * k.spec.headVDim) s h := by
      intro h _
      rw [headOf, headRows, ht]
      rfl
    rw [List.flatMap_congr hhead]
    exact flatMap_block hstate.s

def Rows.rest (log : Rows α) (d : DeltaSpec) (n : Nat) : Rows α :=
  ⟨log.t - n, log.mixed.drop (n * d.convDim), log.beta.drop (n * d.nVHeads), log.decay.drop (n * d.nVHeads)⟩

theorem prefixRows_append {d : DeltaSpec} {n : Nat} (hn : n ≤ rows.t) : rows.prefixRows d n ++ rows.rest d n = rows := by
  obtain ⟨t, mixed, beta, decay⟩ := rows
  show Rows.mk (n + (t - n)) (mixed.take _ ++ mixed.drop _) (beta.take _ ++ beta.drop _) (decay.take _ ++ decay.drop _) = _
  rw [Nat.add_sub_of_le hn, List.take_append_drop, List.take_append_drop, List.take_append_drop]

theorem prefixRows_fits {d : DeltaSpec} (hrows : rows.Fits d) {n : Nat} (hn : n ≤ rows.t) : (rows.prefixRows d n).Fits d where
  mixed := List.length_take_of_le (hrows.mixed ▸ Nat.mul_le_mul_right _ hn)
  beta := List.length_take_of_le (hrows.beta ▸ Nat.mul_le_mul_right _ hn)
  decay := List.length_take_of_le (hrows.decay ▸ Nat.mul_le_mul_right _ hn)

theorem rest_fits {d : DeltaSpec} (hrows : rows.Fits d) {n : Nat} : (rows.rest d n).Fits d where
  mixed := by rw [Rows.rest, List.length_drop, hrows.mixed, Nat.sub_mul]
  beta := by rw [Rows.rest, List.length_drop, hrows.beta, Nat.sub_mul]
  decay := by rw [Rows.rest, List.length_drop, hrows.decay, Nat.sub_mul]

theorem restorePrefix_eq (c : DeltaCell α) (hlive : c.live.Fits k.spec) (rows : Rows α) (n : Nat) (z : Option (List α)) :
    ((c.beginRecord rows).scan ops k rows z).bind (fun result => result.1.restorePrefix ops k n) =
      (scan ops k c.live (rows.prefixRows k.spec n) none).map fun result => { c.beginRecord rows with live := result.1 } := by
  rw [DeltaCell.scan, scan_eq, scan_eq]
  by_cases hpanics : panics k.spec
  · rw [if_pos hpanics, if_pos hpanics]
    rfl
  · rw [if_neg hpanics, if_neg hpanics, Option.map_some, Option.bind_some, DeltaCell.restorePrefix]
    dsimp only
    split
    case isTrue =>
      rw [DeltaCell.scan, scan_eq, if_neg hpanics]
      rfl
    case isFalse hzero =>
      have hn : (rows.prefixRows k.spec n).t = 0 := Nat.eq_zero_of_not_pos hzero
      rw [Option.map_some, scanned_none ops hlive hn]
      rfl

end rollback

/-! ## The abstract recurrence -/

def DeltaState.zeros (d : DeltaSpec) : DeltaState α :=
  ⟨ops.zeros (d.historyRows * d.convDim), ops.zeros (d.nVHeads * (d.headKDim * d.headVDim))⟩

/-- The recurrence of the layers of a model, a row at a time. -/
def kernelOf (k : Nat → DeltaKernel α) : Kernel (DeltaState α) (Rows α) where
  zero il := DeltaState.zeros ops (k il).spec
  blank := ⟨[], []⟩
  step il state row := scanned ops (k il) state row

def Rows.joined (rows : List (Rows α)) : Rows α := rows.foldr (· ++ ·) ⟨0, [], [], []⟩

/-! ## Chunks -/

/-- **The recurrence, in chunks**: a scan of some rows and then of others ends in the state of the scan of all, with its
outputs; the state does not depend on the gates; and a call that is recorded and taken back to a number of its rows leaves
the state of a scan of these. -/
theorem scan_chunks {k : DeltaKernel α} {state : DeltaState α} {first second : Rows α} (hstate : state.Fits k.spec)
    (h₁ : first.Fits k.spec) (h₂ : second.Fits k.spec) :
    (∀ z : Option (List α × List α), GatesFit k.spec first (z.map Prod.fst) → GatesFit k.spec second (z.map Prod.snd) →
      scan ops k state (first ++ second) (z.map fun z => z.1 ++ z.2) =
        (scan ops k state first (z.map Prod.fst)).bind fun before =>
          (scan ops k before.1 second (z.map Prod.snd)).map fun after =>
            (after.1, Option.map₂ (· ++ ·) before.2 after.2)) ∧
      (∀ gates, (scan ops k state first (some gates)).map Prod.fst = (scan ops k state first none).map Prod.fst) ∧
      ∀ (c : DeltaCell α) (n : Nat) (z : Option (List α)), c.live = state → n ≤ (first ++ second).t →
        ∃ firstRows rest, first ++ second = firstRows ++ rest ∧ firstRows.t = n ∧ firstRows.Fits k.spec ∧ rest.Fits k.spec ∧
          ((c.beginRecord (first ++ second)).scan ops k (first ++ second) z).bind
              (fun result => result.1.restorePrefix ops k n) =
            (scan ops k state firstRows none).map fun result =>
              { c.beginRecord (first ++ second) with live := result.1 } := by
  refine ⟨fun z hz _ => scan_append ops hstate h₁ z hz, fun gates => ?_, fun c n z hlive hn => ?_⟩
  · rw [scan_eq, scan_eq]
    split <;> rfl
  · subst hlive
    have hrows := Rows.fits_append h₁ h₂
    exact ⟨(first ++ second).prefixRows k.spec n, (first ++ second).rest k.spec n, (prefixRows_append hn).symm, rfl,
      prefixRows_fits hrows hn, rest_fits hrows, restorePrefix_eq ops c hstate (first ++ second) n z⟩

def integers : Scalar Int := ⟨0, 1, 0, 1, Int.ofNat, (· + ·), (· - ·), (· * ·), fun x _ => x, (- ·), id, id⟩

def twoHeads : DeltaKernel Int := ⟨⟨2, 1, 2, 1, 1⟩, [1, 0, 1, 2, 0, 1, 1, 1], [1], 1⟩

theorem two_rows : (scan integers twoHeads ⟨[0, 0, 0, 0], [1, 2]⟩ ⟨2, [1, 1, 2, 3, 0, 2, 1, 1], [1, 2, 1, 1], [1, 1, 2, 1]⟩
    (some [1, 1, 3, 2])).map (fun result => (result.1.s, result.2)) = some ([-6, 2], some [0, 0, -18, 4]) := by
  have hstate : DeltaState.Fits twoHeads.spec (⟨[0, 0, 0, 0], [1, 2]⟩ : DeltaState Int) := ⟨rfl, rfl⟩
  have h₁ : Rows.Fits twoHeads.spec (⟨1, [1, 1, 2, 3], [1, 2], [1, 1]⟩ : Rows Int) := ⟨rfl, rfl, rfl⟩
  have h₂ : Rows.Fits twoHeads.spec (⟨1, [0, 2, 1, 1], [1, 1], [2, 1]⟩ : Rows Int) := ⟨rfl, rfl, rfl⟩
  have hz₁ : GatesFit twoHeads.spec (⟨1, [1, 1, 2, 3], [1, 2], [1, 1]⟩ : Rows Int) (some [1, 1]) := by
    intro gates hgates
    obtain rfl := Option.some.inj hgates
    rfl
  have hz₂ : GatesFit twoHeads.spec (⟨1, [0, 2, 1, 1], [1, 1], [2, 1]⟩ : Rows Int) (some [3, 2]) := by
    intro gates hgates
    obtain rfl := Option.some.inj hgates
    rfl
  have hchunks := (scan_chunks integers hstate h₁ h₂).1 (some ([1, 1], [3, 2])) hz₁ hz₂
  apply (congrArg (Option.map fun result => (result.1.s, result.2)) hchunks).trans
  decide

end Cuca.Local.DeltaNet
