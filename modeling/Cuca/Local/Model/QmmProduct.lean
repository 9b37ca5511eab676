import Cuca.Local.Model.Qmm
import Mathlib.Tactic.Linarith

/-!
# The product, row by row

However the product is tiled, padded and cut into chunks, each cell is the lane sum of its weight row and its activation row.

* `dotBlock_exact` : quants do not wrap;
* `acts_new` : what is stored of the activations;
* `tile_eq`, `dot_eq` : a tile holds lane sums;
* `put_holds`, `rowsOf_holds`, `chunk_holds` : what a chunk writes;
* `rowJobs_sound` : what the workers put out;
* `forwardRows_plain` : every schedule gives the plain product, and writes each cell once.
-/

namespace Cuca.Local.Qmm
open Scatter

variable {F : Type} (ops : Floats F) (fmt : Format F)

/-! ## Blocks -/

/-! ## Activations -/

/-- Row `j` of the activations. -/
def actRow (x : List F) (k j : Nat) : List F := (x.drop (j * k)).take k

/-- The stored activations of `m` rows of `k` floats. -/
structure ActsOf (x : List F) (m k : Nat) (act : Acts F) : Prop where
  nb : act.nb = k / qk
  rows : act.m = m
  stride : act.stride = max m minTile
  quants : act.qs.length = act.nb * act.stride
  scales : act.scales.length = act.nb * act.stride
  quant : ∀ j < m, ∀ b < act.nb, act.qs[b * act.stride + j]? = some (quantBlock ops (actBlock x k j b)).1
  scale : ∀ j < m, ∀ b < act.nb, act.scales[b * act.stride + j]? = some (quantBlock ops (actBlock x k j b)).2

theorem acts_new {x : List F} {m k : Nat} (hk : 0 < k) (hx : x.length = m * k) :
    ∃ act, Acts.new ops x m k = some act ∧ ActsOf ops x m k act := by
  obtain ⟨nb, hnb⟩ : ∃ nb, k / qk = nb := ⟨_, rfl⟩
  obtain ⟨stride, hstride⟩ : ∃ stride, max m minTile = stride := ⟨_, rfl⟩
  have hm : m ≤ stride := by omega
  have hrows : min (x.length / k) m = m := by
    rw [hx, Nat.mul_div_cancel m hk, Nat.min_self]
  have hmem (cell : Nat × Nat) : (cell ∈ (List.range m).flatMap fun j => (List.range nb).map fun b => (j, b)) ↔
      cell.1 < m ∧ cell.2 < nb := by
    rw [List.mem_flatMap]
    constructor
    · rintro ⟨j, hj, hcell⟩
      obtain ⟨b, hb, rfl⟩ := List.mem_map.mp hcell
      exact ⟨List.mem_range.mp hj, List.mem_range.mp hb⟩
    · rintro ⟨hj, hb⟩
      exact ⟨cell.1, List.mem_range.mpr hj, List.mem_map.mpr ⟨cell.2, List.mem_range.mpr hb, rfl⟩⟩
  -- what is written at each index, of quants and of scales
  have hwritten {α : Type} (init : α) (f : Halves × F → α) : ∃ buf, scatter (List.replicate (nb * stride) init)
      (((List.range m).flatMap fun j => (List.range nb).map fun b => (j, b)).map
        fun cell => (cell.2 * stride + cell.1, f (quantBlock ops (actBlock x k cell.1 cell.2)))) = some buf ∧ buf.length = nb * stride ∧
      ∀ j < m, ∀ b < nb, buf[b * stride + j]? = some (f (quantBlock ops (actBlock x k j b))) := by
    obtain ⟨buf, hbuf, hlength, hholds⟩ := scatter_holds
      (holds_empty (fun i => f (quantBlock ops (actBlock x k (i % stride) (i / stride)))) (List.replicate (nb * stride) init))
      (((List.range m).flatMap fun j => (List.range nb).map fun b => (j, b)).map fun cell =>
        (cell.2 * stride + cell.1, f (quantBlock ops (actBlock x k cell.1 cell.2))))
      (fun w hw => by
        obtain ⟨cell, hcell, rfl⟩ := List.mem_map.mp hw
        have hj := ((hmem cell).mp hcell).1
        dsimp only
        rw [grid_mod (show cell.1 < stride by omega), grid_div (show cell.1 < stride by omega)])
      (fun w hw => by
        obtain ⟨cell, hcell, rfl⟩ := List.mem_map.mp hw
        obtain ⟨hj, hb⟩ := (hmem cell).mp hcell
        rw [List.length_replicate]
        exact grid_lt hb (by omega))
    refine ⟨buf, hbuf, hlength.trans List.length_replicate, fun j hj b hb => ?_⟩
    have hcell := hholds (b * stride + j) (.inr ⟨_, List.mem_map.mpr ⟨(j, b), (hmem (j, b)).mpr ⟨hj, hb⟩, rfl⟩, rfl⟩)
    dsimp only at hcell
    rw [grid_mod (show j < stride by omega), grid_div (show j < stride by omega)] at hcell
    exact hcell
  obtain ⟨qs, hqs, hqsLength, hquant⟩ := hwritten noQuants Prod.fst
  obtain ⟨scales, hscales, hscalesLength, hscale⟩ := hwritten ops.zero Prod.snd
  refine ⟨⟨nb, m, stride, qs, scales⟩, ?_, ⟨hnb.symm, rfl, hstride.symm, hqsLength, hscalesLength, hquant, hscale⟩⟩
  unfold Acts.new
  rw [if_neg (by omega)]
  dsimp only
  rw [hrows, hnb, hstride]
  show (scatter _ _ >>= _) = _
  rw [hqs]
  show (scatter _ _ >>= _) = _
  rw [hscales]
  rfl

/-! ## Tiles -/

variable (act : Acts F)

/-- The lane sum of blocks and a stored activation row. -/
def dot (row : List Bytes) (j : Nat) : F :=
  hsum ops ((List.range act.nb).foldl (fun acc b =>
    addBlock ops acc (fmt.halves (row.getD b [])) (fmt.scale (row.getD b [])) (act.qs.getD (b * act.stride + j) noQuants)
      (act.scales.getD (b * act.stride + j) ops.zero)) fun _ => ops.zero)

variable {ops fmt act}

theorem tileSteps_eq {rows : List (List Bytes)} {tileRows j0 : Nat} (bs : List Nat)
    (hstart : ∀ b ∈ bs, b * act.stride + j0 + tileRows ≤ act.qs.length ∧ b * act.stride + j0 + tileRows ≤ act.scales.length)
    (hrows : ∀ b ∈ bs, ∀ row ∈ rows, b < row.length) (acc : Nat → Nat → Lanes F) :
    bs.foldlM (tileStep ops fmt act rows tileRows j0) acc = some fun r jj => bs.foldl (fun acc b =>
      addBlock ops acc (fmt.halves ((rows.getD r []).getD b [])) (fmt.scale ((rows.getD r []).getD b []))
        (act.qs.getD (b * act.stride + (j0 + jj)) noQuants) (act.scales.getD (b * act.stride + (j0 + jj)) ops.zero)) (acc r jj) := by
  induction bs generalizing acc with
  | nil => rfl
  | cons b bs ih =>
    obtain ⟨hquants, hscales⟩ := hstart b List.mem_cons_self
    have hall : rows.all (b < ·.length) = true := List.all_eq_true.mpr fun row hrow => decide_eq_true (hrows b List.mem_cons_self row hrow)
    rw [List.foldlM_cons, tileStep]
    dsimp only
    rw [if_pos ⟨hquants, hscales, hall⟩]
    show List.foldlM _ _ bs = _
    rw [ih (fun b' hb' => hstart b' (List.mem_cons_of_mem _ hb')) fun b' hb' => hrows b' (List.mem_cons_of_mem _ hb')]
    simp only [List.foldl_cons, Nat.add_assoc]

theorem tile_eq {rows : List (List Bytes)} (tileRows j0 : Nat) (hquants : act.qs.length = act.nb * act.stride)
    (hscales : act.scales.length = act.nb * act.stride) (hj : j0 + tileRows ≤ act.stride) (hrows : ∀ row ∈ rows, act.nb ≤ row.length) :
    tile ops fmt act rows tileRows j0 = some ((List.range rows.length).map fun r =>
      (List.range tileRows).map fun jj => dot ops fmt act (rows.getD r []) (j0 + jj)) := by
  have hstart (b : Nat) (hb : b ∈ List.range act.nb) : b * act.stride + j0 + tileRows ≤ act.nb * act.stride := by
    have hrow := Nat.mul_le_mul_right act.stride (show b + 1 ≤ act.nb from List.mem_range.mp hb)
    rw [Nat.succ_mul] at hrow
    omega
  unfold tile
  rw [tileSteps_eq _ (fun b hb => ⟨hquants ▸ hstart b hb, hscales ▸ hstart b hb⟩)
    fun b hb row hrow => Nat.lt_of_lt_of_le (List.mem_range.mp hb) (hrows row hrow)]
  rfl

theorem dot_eq {x : List F} {m k j : Nat} (hact : ActsOf ops x m k act) (hk : k % qk = 0) (hx : x.length = m * k) (hj : j < m) (row : Bytes) :
    dot ops fmt act (fmt.blocks row) j = rowDot ops fmt row (actRow x k j) := by
  have hend : j * k + k ≤ x.length := by
    have hrow := Nat.mul_le_mul_right k (show j + 1 ≤ m from hj)
    rw [Nat.succ_mul] at hrow
    omega
  have hlength : (actRow x k j).length = k := by
    unfold actRow
    rw [List.length_take, List.length_drop]
    omega
  unfold dot rowDot
  rw [hlength, ← hact.nb]
  congr 1
  refine List.foldl_ext _ _ _ fun acc b hb => ?_
  have hb' := List.mem_range.mp hb
  have hblock : ((actRow x k j).drop (b * qk)).take qk = actBlock x k j b := by
    have hall : act.nb * qk = k := by
      rw [hact.nb]
      exact Nat.div_mul_cancel (Nat.dvd_of_mod_eq_zero hk)
    have hinside := Nat.mul_le_mul_right qk (show b + 1 ≤ act.nb from hb')
    rw [Nat.succ_mul] at hinside
    unfold actRow actBlock
    rw [List.drop_take, List.take_take, List.drop_drop, Nat.min_eq_left (by omega)]
  rw [hblock, List.getD_eq_getElem?_getD, List.getD_eq_getElem?_getD, List.getD_eq_getElem?_getD, hact.quant j hj b hb', hact.scale j hj b hb']
  rfl

/-! ## What is written -/

/-- The cells of activation rows below `j` and of so many weight rows from `r` on. -/
def cells (rows j r width : Nat) : Set Nat := {i | i / rows < j ∧ r ≤ i % rows ∧ i % rows < r + width}

theorem mem_writes {v : Nat → Nat → F} {height width m rows r0 j0 : Nat} {w : Nat × F} :
    (w ∈ ((List.range height).map fun r => (List.range width).map fun jj => v r jj).zipIdx.flatMap fun tileRow =>
      tileRow.1.zipIdx.filterMap fun cell => if j0 + cell.2 < m then some ((j0 + cell.2) * rows + r0 + tileRow.2, cell.1) else none) ↔
      ∃ i < height, ∃ jj < width, j0 + jj < m ∧ w = ((j0 + jj) * rows + r0 + i, v i jj) := by
  rw [List.mem_flatMap]
  constructor
  · rintro ⟨⟨tileRow, i⟩, hrow, hw⟩
    rw [List.mk_mem_zipIdx_iff_getElem?, List.getElem?_map] at hrow
    obtain ⟨i', hi', rfl⟩ := Option.map_eq_some_iff.mp hrow
    obtain ⟨hlt, heq⟩ := List.getElem?_eq_some_iff.mp hi'
    rw [List.getElem_range] at heq
    rw [List.length_range] at hlt
    obtain ⟨⟨value, jj⟩, hcell, hsome⟩ := List.mem_filterMap.mp hw
    rw [List.mk_mem_zipIdx_iff_getElem?, List.getElem?_map] at hcell
    obtain ⟨jj', hjj', rfl⟩ := Option.map_eq_some_iff.mp hcell
    obtain ⟨hlt', heq'⟩ := List.getElem?_eq_some_iff.mp hjj'
    rw [List.getElem_range] at heq'
    rw [List.length_range] at hlt'
    subst heq heq'
    dsimp only at hsome
    split at hsome
    · rename_i hinside
      exact ⟨i, hlt, jj, hlt', hinside, (Option.some.inj hsome).symm⟩
    · exact absurd hsome (by simp)
  · rintro ⟨i, hi, jj, hjj, hinside, rfl⟩
    refine ⟨((List.range width).map fun jj => v i jj, i), ?_, ?_⟩
    · rw [List.mk_mem_zipIdx_iff_getElem?, List.getElem?_map, List.getElem?_range hi]
      rfl
    · refine List.mem_filterMap.mpr ⟨(v i jj, jj), ?_, if_pos hinside⟩
      rw [List.mk_mem_zipIdx_iff_getElem?, List.getElem?_map, List.getElem?_range hjj]
      rfl

section
variable {f : Nat → F} {s : Set Nat} {res : List F} {m rows : Nat}

theorem put_holds (h : Holds f s res) (hres : res.length = m * rows) {v : Nat → Nat → F} {height r0 : Nat} (width j0 : Nat)
    (hr : r0 + height ≤ rows) (hagree : ∀ i < height, ∀ jj < width, j0 + jj < m → v i jj = f ((j0 + jj) * rows + (r0 + i))) :
    ∃ res', put ((List.range height).map fun r => (List.range width).map fun jj => v r jj) res m rows r0 j0 = some res' ∧
      res'.length = m * rows ∧ Holds f (s ∪ {i | j0 ≤ i / rows ∧ i / rows < j0 + width ∧ i / rows < m ∧ r0 ≤ i % rows ∧
        i % rows < r0 + height}) res' := by
  obtain ⟨res', hput, hlength, hholds⟩ := scatter_holds h
    (((List.range height).map fun r => (List.range width).map fun jj => v r jj).zipIdx.flatMap fun tileRow =>
      tileRow.1.zipIdx.filterMap fun cell => if j0 + cell.2 < m then some ((j0 + cell.2) * rows + r0 + tileRow.2, cell.1) else none)
    (fun w hw => by
      obtain ⟨i, hi, jj, hjj, hinside, rfl⟩ := mem_writes.mp hw
      rw [hagree i hi jj hjj hinside, Nat.add_assoc])
    (fun w hw => by
      obtain ⟨i, hi, jj, hjj, hinside, rfl⟩ := mem_writes.mp hw
      rw [hres, Nat.add_assoc]
      exact grid_lt hinside (by omega))
  refine ⟨res', hput, hlength.trans hres, hholds.mono ?_⟩
  rintro i (hi | ⟨hj, hwidth, hm, hr0, hheight⟩)
  · exact .inl hi
  · refine .inr ⟨_, mem_writes.mpr ⟨i % rows - r0, by omega, i / rows - j0, by omega, by omega, rfl⟩, ?_⟩
    dsimp only
    rw [Nat.add_assoc, show j0 + (i / rows - j0) = i / rows by omega, show r0 + (i % rows - r0) = i % rows by omega]
    exact grid_eq i rows

variable (ops fmt act) in
/-- What a group of weight rows is, and that `f` is its lane sums. -/
structure Group (f : Nat → F) (rs : List (List Bytes)) (m rows r : Nat) : Prop where
  actRows : act.m = m
  stride : act.stride = max m minTile
  quants : act.qs.length = act.nb * act.stride
  scales : act.scales.length = act.nb * act.stride
  length : ∀ row ∈ rs, act.nb ≤ row.length
  inside : r + rs.length ≤ rows
  agree : ∀ i < rs.length, ∀ j < m, dot ops fmt act (rs.getD i []) j = f (j * rows + (r + i))

variable {rs : List (List Bytes)} {r : Nat}

theorem Group.tile_eq (hgroup : Group ops fmt act f rs m rows r) (tileRows j0 : Nat) (hj : j0 + tileRows ≤ max m minTile) :
    tile ops fmt act rs tileRows j0 = some ((List.range rs.length).map fun i =>
      (List.range tileRows).map fun jj => dot ops fmt act (rs.getD i []) (j0 + jj)) :=
  Qmm.tile_eq tileRows j0 hgroup.quants hgroup.scales (hgroup.stride ▸ hj) hgroup.length

theorem fullTiles_holds (hgroup : Group ops fmt act f rs m rows r) {j0 : Nat} (hj : j0 ≤ m)
    (h : Holds f (s ∪ cells rows j0 r rs.length) res) (hres : res.length = m * rows) :
    ∃ j1 res', fullTiles ops fmt act rs rows r j0 res = some (j1, res') ∧ (j1 ≤ m ∧ m - j1 < mr) ∧ res'.length = m * rows ∧
      Holds f (s ∪ cells rows j1 r rs.length) res' := by
  induction hleft : m - j0 using Nat.strongRecOn generalizing j0 res with
  | ind n ih =>
    have hm := hgroup.actRows
    rw [fullTiles]
    by_cases hfull : mr ≤ act.m - j0
    · unfold mr at hfull
      have htile := hgroup.tile_eq mr j0 (by unfold mr; omega)
      obtain ⟨res', hput, hlength, hholds⟩ := put_holds h hres mr j0 hgroup.inside
        (fun i hi jj hjj hinside => hgroup.agree i hi (j0 + jj) hinside)
      rw [if_pos (show mr ≤ act.m - j0 from hfull), htile]
      dsimp only
      rw [hm, hput]
      dsimp only
      refine ih (m - (j0 + mr)) (by unfold mr; omega) (by unfold mr; omega) (hholds.mono ?_) hlength rfl
      rintro i (hi | ⟨hi, hlow, hhigh⟩)
      · exact .inl (.inl hi)
      · by_cases hdone : i / rows < j0
        · exact .inl (.inr ⟨hdone, hlow, hhigh⟩)
        · exact .inr ⟨by omega, hi, by unfold mr at hi; omega, hlow, hhigh⟩
    · rw [if_neg hfull]
      exact ⟨j0, res, rfl, ⟨hj, by omega⟩, hres, h⟩

/-- **Weight rows** against all activation rows: the tile at the end lies over rows that are written already, or over padding. -/
theorem rowsOf_holds (hgroup : Group ops fmt act f rs m rows r) (h : Holds f (cells rows m 0 r) res)
    (hres : res.length = m * rows) : ∃ res', rowsOf ops fmt act rs rows r res = some res' ∧ res'.length = m * rows ∧
      Holds f (cells rows m 0 (r + rs.length)) res' := by
  have hstart : Holds f (cells rows m 0 r ∪ cells rows 0 r rs.length) res := by
    refine h.mono ?_
    rintro i (hi | ⟨hi, -⟩)
    · exact hi
    · exact absurd hi (Nat.not_lt_zero _)
  obtain ⟨j0, res₁, hfull, ⟨hj, hleft⟩, hlength, hholds⟩ := fullTiles_holds hgroup (Nat.zero_le m) hstart hres
  have hm := hgroup.actRows
  unfold rowsOf
  rw [hfull]
  show ∃ res', (if j0 < act.m then _ else _) = some res' ∧ _
  by_cases hrest : j0 < act.m
  · have htile := hgroup.tile_eq minTile (act.m - minTile) (by unfold minTile; omega)
    obtain ⟨res', hput, hlength', hholds'⟩ := put_holds hholds hlength minTile (act.m - minTile) hgroup.inside
      (fun i hi jj hjj hinside => hgroup.agree i hi (act.m - minTile + jj) hinside)
    rw [if_pos hrest, htile]
    show ∃ res', put _ res₁ act.m rows r (act.m - minTile) = some res' ∧ _
    refine ⟨res', hm.symm ▸ hput, hlength', hholds'.mono ?_⟩
    rintro i ⟨hi, -, hhigh⟩
    by_cases hbefore : i % rows < r
    · exact .inl (.inl ⟨hi, Nat.zero_le _, by omega⟩)
    · by_cases hdone : i / rows < j0
      · exact .inl (.inr ⟨hdone, by omega, by omega⟩)
      · unfold mr at hleft
        exact .inr ⟨by unfold minTile; omega, by unfold minTile; omega, hi, by omega, by omega⟩
  · rw [if_neg hrest]
    refine ⟨res₁, rfl, hlength, hholds.mono ?_⟩
    rintro i ⟨hi, -, hhigh⟩
    by_cases hbefore : i % rows < r
    · exact .inl ⟨hi, Nat.zero_le _, by omega⟩
    · exact .inr ⟨by omega, by omega, by omega⟩

/-! ## Chunks -/

def weightBytes (w : Bytes) (rowBytes r : Nat) : Bytes := (w.drop (r * rowBytes)).take rowBytes

variable (ops fmt) in
/-- Cell `i` of the plain product with `rows` weight rows. -/
def product (w : Bytes) (rowBytes : Nat) (x : List F) (k rows i : Nat) : F :=
  rowDot ops fmt (weightBytes w rowBytes (i % rows)) (actRow x k (i / rows))

theorem mapM_some {α β : Type} {g : α → Option β} {h : α → β} {l : List α} (hsome : ∀ a ∈ l, g a = some (h a)) :
    l.mapM g = some (l.map h) := by
  induction l with
  | nil => rfl
  | cons a l ih =>
    rw [List.mapM_cons, hsome a List.mem_cons_self, ih fun a' ha' => hsome a' (List.mem_cons_of_mem _ ha')]
    rfl

section
variable {x : List F} {k : Nat} {w : Bytes}

theorem weightRow_eq {rowBytes : Nat} (hw : w.length = rows * rowBytes) (hr : r < rows) :
    weightRow fmt w rowBytes r = some (fmt.blocks (weightBytes w rowBytes r)) ∧ (weightBytes w rowBytes r).length = rowBytes := by
  have hend := Nat.mul_le_mul_right rowBytes (show r + 1 ≤ rows from hr)
  have hwidth : (r + 1) * rowBytes - r * rowBytes = rowBytes := by
    rw [Nat.succ_mul]
    omega
  rw [← hw] at hend
  refine ⟨?_, ?_⟩
  · unfold weightRow
    rw [slice_eq (Nat.mul_le_mul_right _ (Nat.le_succ r)) hend, hwidth]
    rfl
  · rw [Nat.succ_mul] at hend
    unfold weightBytes
    rw [List.length_take, List.length_drop]
    omega

variable (hact : ActsOf ops x m k act) (hk : k % qk = 0) (hx : x.length = m * k) (hsize : 0 < act.nb * fmt.size)
  (hw : w.length = rows * (act.nb * fmt.size))
include hact hk hx hsize hw

theorem group_of {width : Nat} (hr : r + width ≤ rows) :
    Group ops fmt act (product ops fmt w (act.nb * fmt.size) x k rows)
      ((List.range width).map fun i => fmt.blocks (weightBytes w (act.nb * fmt.size) (r + i))) m rows r where
  actRows := hact.rows
  stride := hact.stride
  quants := hact.quants
  scales := hact.scales
  length row hrow := by
    obtain ⟨i, hi, rfl⟩ := List.mem_map.mp hrow
    have hi' := List.mem_range.mp hi
    have hlength : (weightBytes w (act.nb * fmt.size) (r + i)).length = act.nb * fmt.size :=
      (@weightRow_eq F fmt rows (r + i) w _ hw (by omega)).2
    unfold Format.blocks
    rw [List.length_map, List.length_range, hlength, Nat.mul_div_cancel _ (Nat.pos_of_mul_pos_left hsize)]
  inside := by rwa [List.length_map, List.length_range]
  agree i hi j hj := by
    rw [List.length_map, List.length_range] at hi
    rw [List.getD_eq_getElem?_getD, List.getElem?_map, List.getElem?_range hi]
    dsimp only [Option.map_some, Option.getD_some]
    unfold product
    rw [grid_mod (show r + i < rows by omega), grid_div (show r + i < rows by omega)]
    exact dot_eq hact hk hx hj _

theorem quads_holds (hr : r ≤ rows) (h : Holds (product ops fmt w (act.nb * fmt.size) x k rows)
      (cells rows m 0 r) res) (hres : res.length = m * rows) :
    ∃ r' res', quads ops fmt act w (act.nb * fmt.size) rows r res = some (r', res') ∧ r' ≤ rows ∧ res'.length = m * rows ∧
      Holds (product ops fmt w (act.nb * fmt.size) x k rows) (cells rows m 0 r') res' := by
  induction hleft : rows - r using Nat.strongRecOn generalizing r res with
  | ind n ih =>
    rw [quads]
    by_cases hfull : r + nr ≤ rows
    · have hrows : ((List.range nr).mapM fun i => weightRow fmt w (act.nb * fmt.size) (r + i)) =
          some ((List.range nr).map fun i => fmt.blocks (weightBytes w (act.nb * fmt.size) (r + i))) := by
        refine mapM_some fun i hi => ?_
        have := List.mem_range.mp hi
        exact (weightRow_eq hw (by omega)).1
      obtain ⟨res', hrun, hlength, hholds⟩ := rowsOf_holds (group_of hact hk hx hsize hw hfull) h hres
      rw [List.length_map, List.length_range] at hholds
      rw [if_pos hfull, hrows]
      dsimp only
      rw [hrun]
      dsimp only
      exact ih (rows - (r + nr)) (by unfold nr at hfull ⊢; omega) hfull hholds hlength rfl
    · rw [if_neg hfull]
      exact ⟨r, res, rfl, hr, hres, h⟩

theorem singles_holds (hr : r ≤ rows) (h : Holds (product ops fmt w (act.nb * fmt.size) x k rows)
      (cells rows m 0 r) res) (hres : res.length = m * rows) :
    ∃ res', singles ops fmt act w (act.nb * fmt.size) rows r res = some res' ∧ res'.length = m * rows ∧
      Holds (product ops fmt w (act.nb * fmt.size) x k rows) (cells rows m 0 rows) res' := by
  induction hleft : rows - r using Nat.strongRecOn generalizing r res with
  | ind n ih =>
    rw [singles]
    by_cases hrest : r < rows
    · obtain ⟨res', hrun, hlength, hholds⟩ := rowsOf_holds (group_of hact hk hx hsize hw (show r + 1 ≤ rows from hrest)) h hres
      rw [if_pos hrest, (weightRow_eq hw hrest).1]
      dsimp only
      rw [show [fmt.blocks (weightBytes w (act.nb * fmt.size) r)] =
        (List.range 1).map fun i => fmt.blocks (weightBytes w (act.nb * fmt.size) (r + i)) from rfl, hrun]
      dsimp only
      exact ih (rows - (r + 1)) (by omega) hrest hholds hlength rfl
    · obtain rfl : r = rows := by omega
      rw [if_neg hrest]
      exact ⟨res, rfl, hres, h⟩

/-- **A chunk** fills the scratch with lane sums, whatever was in it. -/
theorem chunk_holds (hres : res.length = m * rows) : ∃ res', chunk ops fmt act w res = some res' ∧ res'.length = m * rows ∧
    ∀ i < m * rows, res'[i]? = some (product ops fmt w (act.nb * fmt.size) x k rows i) := by
  have hrows : w.length / (act.nb * fmt.size) = rows := by rw [hw, Nat.mul_div_cancel _ hsize]
  have hstart : Holds (product ops fmt w (act.nb * fmt.size) x k rows)
      (cells rows m 0 0) res := by
    rintro i ⟨-, -, hi⟩
    exact absurd hi (Nat.not_lt_zero _)
  obtain ⟨r, res₁, hquads, hr, hlength, hholds⟩ := quads_holds hact hk hx hsize hw (Nat.zero_le rows) hstart hres
  obtain ⟨res₂, hsingles, hlength', hholds'⟩ := singles_holds hact hk hx hsize hw hr hholds hlength
  refine ⟨res₂, ?_, hlength', fun i hi => hholds' i ⟨?_, Nat.zero_le _, ?_⟩⟩
  · unfold chunk
    dsimp only
    rw [hrows, hquads]
    have hguard : (guard (act.nb * fmt.size ≠ 0) : Option Unit) = some () := if_pos (Nat.ne_of_gt hsize)
    rw [hguard]
    exact hsingles
  · exact Nat.div_lt_of_lt_mul (Nat.mul_comm m rows ▸ hi)
  · rw [Nat.zero_add]
    exact Nat.mod_lt _ (Nat.pos_of_mul_pos_left (Nat.zero_lt_of_lt hi))

end

end

/-! ## Chunks over threads -/

section
variable {x : List F} {m k n perChunk : Nat} {data : Bytes}

variable (ops fmt) in
/-- What the job of chunk `c` copies for the activation row `j`. -/
def copyOf (data : Bytes) (rowBytes : Nat) (x : List F) (k n perChunk c j : Nat) : Copy F :=
  ⟨j, c, (List.range (chunkRows n perChunk c)).map fun r => rowDot ops fmt (weightBytes data rowBytes (c * perChunk + r)) (actRow x k j)⟩

def Copy.cells (n perChunk : Nat) (copy : Copy F) : List Nat :=
  (List.range copy.values.length).map fun i => copy.row * n + copy.chunk * perChunk + i

variable (ops fmt) in
def Written (data : Bytes) (rowBytes : Nat) (x : List F) (m k n perChunk : Nat) (copies : List (Copy F)) (out : List F) : Prop :=
  out.length = m * n ∧ Holds (product ops fmt data rowBytes x k n) {i | i ∈ copies.flatMap (Copy.cells n perChunk)} out

theorem chunk_inside {c : Nat} (hper : 0 < perChunk) (hc : c < (n + perChunk - 1) / perChunk) : c * perChunk < n := by
  have hend := (Nat.le_div_iff_mul_le hper).mp (show c + 1 ≤ _ from hc)
  rw [Nat.succ_mul] at hend
  omega

theorem chunk_of {r : Nat} (hper : 0 < perChunk) (hr : r < n) :
    r / perChunk < (n + perChunk - 1) / perChunk ∧ r % perChunk < chunkRows n perChunk (r / perChunk) := by
  have hmod := Nat.mod_lt r hper
  have heq := Nat.div_add_mod' r perChunk
  refine ⟨?_, ?_⟩
  · refine (Nat.le_div_iff_mul_le hper).mpr ?_
    rw [Nat.succ_mul]
    omega
  · unfold chunkRows
    omega

theorem weightBytes_chunk {rowBytes c rows r : Nat} (hr : r < rows) :
    weightBytes ((data.drop (c * rowBytes)).take ((c + rows) * rowBytes - c * rowBytes)) rowBytes r = weightBytes data rowBytes (c + r) := by
  have hend := Nat.mul_le_mul_right rowBytes (show r + 1 ≤ rows from hr)
  unfold weightBytes
  rw [List.drop_take, List.take_take, List.drop_drop, ← Nat.add_mul, Nat.add_mul c rows, Nat.add_sub_cancel_left]
  rw [Nat.succ_mul] at hend
  rw [Nat.min_eq_left (by omega)]

variable (hact : ActsOf ops x m k act) (hk : k % qk = 0) (hx : x.length = m * k) (hsize : 0 < act.nb * fmt.size)
  (hdata : data.length = n * (act.nb * fmt.size)) (hper : 0 < perChunk)
include hact hk hx hsize hdata hper

theorem prepare_eq {c : Nat} (hc : c < (n + perChunk - 1) / perChunk) {scratch : List F} (hscratch : scratch.length = m * perChunk) :
    ∃ scratch', (jobs ops fmt act data n perChunk).prepare c scratch =
      some (scratch', (List.range m).map (copyOf ops fmt data (act.nb * fmt.size) x k n perChunk c)) ∧ scratch'.length = m * perChunk := by
  have hinside := chunk_inside hper hc
  obtain ⟨rowBytes, hrowBytes⟩ : ∃ rowBytes, act.nb * fmt.size = rowBytes := ⟨_, rfl⟩
  obtain ⟨rows, hrows⟩ : ∃ rows, chunkRows n perChunk c = rows := ⟨_, rfl⟩
  have hwidth : rows ≤ perChunk ∧ c * perChunk + rows ≤ n := by
    unfold chunkRows at hrows
    omega
  rw [hrowBytes] at hsize hdata
  have hend : (c * perChunk + rows) * rowBytes ≤ data.length := hdata ▸ Nat.mul_le_mul_right rowBytes hwidth.2
  have hweights := slice_eq (Nat.mul_le_mul_right rowBytes (Nat.le_add_right (c * perChunk) rows)) hend
  have hbytes : ((data.drop (c * perChunk * rowBytes)).take ((c * perChunk + rows) * rowBytes - c * perChunk * rowBytes)).length =
      rows * rowBytes := by
    rw [List.length_take, List.length_drop, Nat.add_mul]
    rw [Nat.add_mul] at hend
    omega
  have hroom : m * rows ≤ scratch.length := hscratch ▸ Nat.mul_le_mul_left m hwidth.1
  have hpart := slice_eq (Nat.zero_le (m * rows)) hroom
  rw [List.drop_zero, Nat.sub_zero] at hpart
  obtain ⟨res, hchunk, hlength, hcells⟩ := chunk_holds hact hk hx (hrowBytes ▸ hsize) (hrowBytes ▸ hbytes)
    (show (scratch.take (m * rows)).length = m * rows by rw [List.length_take]; omega)
  rw [hrowBytes] at hchunk hcells
  have hcopies : ((List.range m).mapM fun j => (slice res (j * rows) ((j + 1) * rows)).map (Copy.mk j c)) =
      some ((List.range m).map (copyOf ops fmt data rowBytes x k n perChunk c)) := by
    refine mapM_some fun j hj => ?_
    have hrow := Nat.mul_le_mul_right rows (show j + 1 ≤ m from List.mem_range.mp hj)
    rw [slice_eq (Nat.mul_le_mul_right rows (Nat.le_succ j)) (hlength ▸ hrow), Option.map_some]
    unfold copyOf
    rw [hrows]
    congr 2
    rw [Nat.succ_mul, Nat.add_sub_cancel_left]
    rw [Nat.succ_mul] at hrow
    apply List.ext_getElem?
    intro i
    by_cases hi : i < rows
    · rw [List.getElem?_take_of_lt hi, List.getElem?_drop, hcells _ (by omega), List.getElem?_map, List.getElem?_range hi]
      unfold product
      rw [grid_mod hi, grid_div hi, weightBytes_chunk hi]
      rfl
    · rw [List.getElem?_eq_none (by rw [List.length_take]; omega), List.getElem?_eq_none (by rw [List.length_map, List.length_range]; omega)]
  refine ⟨res ++ scratch.drop (m * rows), ?_, ?_⟩
  · unfold jobs
    simp only [hrowBytes, hrows, hact.rows, hweights, hpart, hchunk, hcopies, Option.bind_eq_bind, Option.bind_some, Option.pure_def]
  · rw [List.length_append, hlength, List.length_drop, hscratch]
    have := Nat.mul_le_mul_left m hwidth.1
    omega

/-- **What the workers put out** are lane sums, wherever they are and whatever is put out already. -/
theorem rowJobs_sound : Claims.Sound (jobs ops fmt act data n perChunk) (fun scratch => scratch.length = m * perChunk)
    (Written ops fmt data (act.nb * fmt.size) x m k n perChunk)
    fun c => (List.range m).map (copyOf ops fmt data (act.nb * fmt.size) x k n perChunk c) where
  prepare c hc scratch hscratch := prepare_eq hact hk hx hsize hdata hper hc hscratch
  apply c hc copy hcopy log out hgood := by
    have hinside := chunk_inside hper hc
    obtain ⟨j, hj, rfl⟩ := List.mem_map.mp hcopy
    obtain ⟨hlength, hholds⟩ := hgood
    have hrows (i : Nat) (hi : i < chunkRows n perChunk c) : c * perChunk + i < n := by
      unfold chunkRows at hi
      omega
    have hmem {w : Nat × F} (hw : w ∈ ((copyOf ops fmt data (act.nb * fmt.size) x k n perChunk c j).values.zipIdx.map fun cell =>
        (j * n + c * perChunk + cell.2, cell.1))) : ∃ i < chunkRows n perChunk c, w = (j * n + c * perChunk + i,
          rowDot ops fmt (weightBytes data (act.nb * fmt.size) (c * perChunk + i)) (actRow x k j)) := by
      obtain ⟨⟨v, i⟩, hcell, rfl⟩ := List.mem_map.mp hw
      rw [List.mk_mem_zipIdx_iff_getElem?] at hcell
      unfold copyOf at hcell
      rw [List.getElem?_map] at hcell
      obtain ⟨i', hi', rfl⟩ := Option.map_eq_some_iff.mp hcell
      obtain ⟨hlt, heq⟩ := List.getElem?_eq_some_iff.mp hi'
      rw [List.getElem_range] at heq
      rw [List.length_range] at hlt
      subst heq
      exact ⟨i, hlt, rfl⟩
    obtain ⟨out', hout, hlength', hholds'⟩ := scatter_holds hholds
      ((copyOf ops fmt data (act.nb * fmt.size) x k n perChunk c j).values.zipIdx.map fun cell => (j * n + c * perChunk + cell.2, cell.1))
      (fun w hw => by
        obtain ⟨i, hi, rfl⟩ := hmem hw
        dsimp only
        unfold product
        rw [Nat.add_assoc, grid_mod (hrows i hi), grid_div (hrows i hi)])
      (fun w hw => by
        obtain ⟨i, hi, rfl⟩ := hmem hw
        rw [hlength, Nat.add_assoc]
        exact grid_lt (List.mem_range.mp hj) (hrows i hi))
    refine ⟨out', ?_, hlength'.trans hlength, hholds'.mono ?_⟩
    · unfold jobs
      dsimp only
      rw [if_pos (by unfold copyOf; rw [List.length_map, List.length_range])]
      exact hout
    · intro i hi
      rw [Set.mem_ofPred_eq, List.flatMap_append, List.mem_append, List.flatMap_singleton] at hi
      rcases hi with hi | hi
      · exact .inl hi
      · obtain ⟨r, hr, rfl⟩ := List.mem_map.mp hi
        obtain ⟨v, hv⟩ : ∃ v, (copyOf ops fmt data (act.nb * fmt.size) x k n perChunk c j).values[r]? = some v :=
          ⟨_, List.getElem?_eq_getElem (List.mem_range.mp hr)⟩
        exact .inr ⟨_, List.mem_map.mpr ⟨(v, r), List.mk_mem_zipIdx_iff_getElem?.mpr hv, rfl⟩, rfl⟩

end

theorem cells_all {F : Type} {m n perChunk : Nat} (hper : 0 < perChunk) {copy : Nat → Nat → Copy F}
    (hcopy : ∀ c j, (copy c j).row = j ∧ (copy c j).chunk = c ∧ (copy c j).values.length = chunkRows n perChunk c) :
    (((List.range ((n + perChunk - 1) / perChunk)).flatMap fun c => (List.range m).map (copy c)).flatMap (Copy.cells n perChunk)).Perm
      (List.range (m * n)) := by
  have hcells (c j i : Nat) : i ∈ (copy c j).cells n perChunk ↔ ∃ r < chunkRows n perChunk c, j * n + c * perChunk + r = i := by
    obtain ⟨hrow, hchunk, hlength⟩ := hcopy c j
    unfold Copy.cells
    rw [hrow, hchunk, hlength, List.mem_map]
    constructor
    · rintro ⟨r, hr, rfl⟩
      exact ⟨r, List.mem_range.mp hr, rfl⟩
    · rintro ⟨r, hr, rfl⟩
      exact ⟨r, List.mem_range.mpr hr, rfl⟩
  have hindex {c j i : Nat} (hc : c < (n + perChunk - 1) / perChunk) (hi : i ∈ (copy c j).cells n perChunk) :
      i / n = j ∧ i % n / perChunk = c ∧ i % n < n := by
    obtain ⟨r, hr, rfl⟩ := (hcells c j i).mp hi
    have hinside := chunk_inside hper hc
    unfold chunkRows at hr
    have hlt : c * perChunk + r < n := by omega
    rw [Nat.add_assoc, grid_div hlt, grid_mod hlt]
    exact ⟨rfl, grid_div (by omega), hlt⟩
  rw [List.flatMap_assoc]
  refine (List.perm_ext_iff_of_nodup ?_ List.nodup_range).mpr fun i => ?_
  · refine nodup_parts (fun i => i % n / perChunk) List.nodup_range (fun c hc => ?_) fun c hc i hi => ?_
    · rw [List.flatMap_map]
      refine nodup_parts (fun i => i / n) List.nodup_range (fun j _ => ?_) fun j _ i hi => (hindex (List.mem_range.mp hc) hi).1
      exact List.Nodup.map (fun a b hab => Nat.add_left_cancel hab) List.nodup_range
    · rw [List.flatMap_map] at hi
      obtain ⟨j, -, hi⟩ := List.mem_flatMap.mp hi
      exact (hindex (List.mem_range.mp hc) hi).2.1
  · rw [List.mem_flatMap, List.mem_range]
    constructor
    · rintro ⟨c, hc, hi⟩
      rw [List.flatMap_map] at hi
      obtain ⟨j, hj, hi⟩ := List.mem_flatMap.mp hi
      obtain ⟨hrow, -, hlt⟩ := hindex (List.mem_range.mp hc) hi
      rw [← grid_eq i n]
      exact grid_lt (hrow ▸ List.mem_range.mp hj) hlt
    · intro hi
      have hn : 0 < n := Nat.pos_of_mul_pos_left (Nat.zero_lt_of_lt hi)
      obtain ⟨hc, hr⟩ := chunk_of hper (Nat.mod_lt i hn)
      refine ⟨i % n / perChunk, List.mem_range.mpr hc, ?_⟩
      rw [List.flatMap_map]
      refine List.mem_flatMap.mpr ⟨i / n, List.mem_range.mpr (Nat.div_lt_of_lt_mul (Nat.mul_comm m n ▸ hi)), ?_⟩
      refine (hcells _ _ i).mpr ⟨i % n % perChunk, hr, ?_⟩
      rw [Nat.add_assoc, grid_eq, grid_eq]

/-! ## The product -/

/-- Weight rows of a chunk, where `rows` of them are asked for. -/
def QmmWeight.perChunk (w : QmmWeight) (rows threads : Nat) : Nat :=
  rowsPerChunk rows threads (decide (rows * (w.k / qk) * qk < serialBelow) || threads == 1)

/-- Weight row `r`. -/
def QmmWeight.row (w : QmmWeight) (r : Nat) : Bytes := weightBytes w.data (w.k / qk * w.kind.size) r

theorem Kind.format_size (kind : Kind) : (kind.format ops).size = kind.size := by
  cases kind <;> rfl

section
variable {w : QmmWeight} {x : List F} {m rows threads : Nat} (hk : 0 < w.k) (hm : 0 < m) (hrows : 0 < rows) (hn : rows ≤ w.n)
  (hthreads : 0 < threads) (hx : x.length = m * w.k)

theorem perChunk_pos (w : QmmWeight) (threads : Nat) (hrows : 0 < rows) : 0 < w.perChunk rows threads := by
  unfold QmmWeight.perChunk rowsPerChunk nr
  split
  · exact hrows
  · omega

variable (ops)
include hk hm hrows hn hthreads hx

/-- **A schedule** of the product, its state with it: no fault, no cell twice, and at the end the lane sums. -/
theorem forwardRows_run (schedule : List Nat) : ∃ s, forwardRows ops w x m rows threads schedule = .ok (some s) ∧
    (s.log.flatMap (Copy.cells rows (w.perChunk rows threads))).Nodup ∧
    (∃ more s', forwardRows ops w x m rows threads (schedule ++ more) = .ok (some s') ∧ s'.Finished) ∧
    (s.Finished → (s.log.flatMap (Copy.cells rows (w.perChunk rows threads))).Perm (List.range (m * rows)) ∧ s.out.length = m * rows ∧
      ∀ j < m, ∀ r < rows, s.out[j * rows + r]? = some (rowDot ops (w.kind.format ops) (w.row r) (actRow x w.k j))) := by
  obtain ⟨act, hnew, hact⟩ := acts_new ops hk hx
  have hsize : act.nb * (w.kind.format ops).size = w.k / qk * w.kind.size := by rw [hact.nb, Kind.format_size]
  have hpos : 0 < w.k / qk * w.kind.size := by
    have hwhole := Nat.div_add_mod w.k qk
    rw [w.blocks] at hwhole
    refine Nat.mul_pos (Nat.pos_of_ne_zero fun hzero => ?_) (by cases w.kind <;> decide)
    rw [hzero] at hwhole
    omega
  have hinside : rows * (w.k / qk * w.kind.size) ≤ w.data.length := w.whole ▸ Nat.mul_le_mul_right _ hn
  obtain ⟨data, hdata⟩ : ∃ data, w.data.take (rows * (w.k / qk * w.kind.size)) = data := ⟨_, rfl⟩
  have hlength : data.length = rows * (act.nb * (w.kind.format ops).size) := by
    rw [← hdata, List.length_take, hsize]
    omega
  obtain ⟨start, hstart⟩ : ∃ start, (Claims.State.start (List.replicate (m * rows) ops.zero)
      (List.replicate (m * w.perChunk rows threads) ops.zero)
      (if (decide (rows * (w.k / qk) * qk < serialBelow) || threads == 1) then 1 else threads) : State F) = start := ⟨_, rfl⟩
  have hrun (schedule : List Nat) : forwardRows ops w x m rows threads schedule =
      .ok (Claims.run (jobs ops (w.kind.format ops) act data rows (w.perChunk rows threads)) start schedule) := by
    unfold forwardRows
    rw [if_neg (by omega), if_neg (by omega), if_neg (by omega), hnew]
    dsimp only
    rw [show w.data.length / w.n = w.k / qk * w.kind.size by rw [w.whole, Nat.mul_div_cancel_left _ w.rows], if_pos hinside, hdata]
    unfold run
    dsimp only
    rw [if_neg (not_not.mpr hlength), ← hstart, hact.rows, hact.nb]
    rfl
  have hsound := rowJobs_sound hact w.blocks hx (hsize ▸ hpos) hlength (perChunk_pos w threads hrows)
  obtain ⟨actions, hactions⟩ : ∃ actions, (fun c => (List.range m).map (copyOf ops (w.kind.format ops) data
    (act.nb * (w.kind.format ops).size) x w.k rows (w.perChunk rows threads) c)) = actions := ⟨_, rfl⟩
  have hinv : Claims.Inv (jobs ops (w.kind.format ops) act data rows (w.perChunk rows threads))
      (fun scratch => scratch.length = m * w.perChunk rows threads)
      (Written ops (w.kind.format ops) data (act.nb * (w.kind.format ops).size) x m w.k rows (w.perChunk rows threads)) actions start := by
    rw [← hstart]
    exact Claims.inv_start _ List.length_replicate ⟨List.length_replicate, fun i hi => absurd hi List.not_mem_nil⟩
  have hcells : ((Claims.allActions (jobs ops (w.kind.format ops) act data rows (w.perChunk rows threads)) actions).flatMap
      (Copy.cells rows (w.perChunk rows threads))).Perm (List.range (m * rows)) := by
    rw [← hactions]
    refine cells_all (perChunk_pos w threads hrows) fun c j => ⟨rfl, rfl, ?_⟩
    unfold copyOf
    rw [List.length_map, List.length_range]
  have hworkers : start.workers ≠ [] := by
    rw [← hstart]
    unfold Claims.State.start
    dsimp only
    rw [Ne, List.replicate_eq_nil_iff]
    split <;> omega
  rw [hactions] at hsound
  obtain ⟨s, hs, hinv', hsame⟩ := Claims.run_inv hsound hinv schedule
  obtain ⟨more, s', hmore, hfinished⟩ := Claims.exists_finish hsound hinv'
  refine ⟨s, by rw [hrun, hs], ?_, ⟨more, s', ?_, hfinished⟩, fun hfinished => ?_⟩
  · have hall := (hinv'.all.flatMap_right (Copy.cells rows (w.perChunk rows threads))).trans hcells
    rw [List.flatMap_append] at hall
    exact (hall.nodup_iff.mpr List.nodup_range).of_append_left
  · rw [hrun]
    unfold Claims.run at hs hmore ⊢
    rw [List.foldlM_append, hs]
    exact congrArg Except.ok hmore
  · have hlog := Claims.finished_log hinv' hfinished fun hnil => hworkers (List.length_eq_zero_iff.mp (by rw [← hsame, hnil]; rfl))
    have hperm := (hlog.flatMap_right (Copy.cells rows (w.perChunk rows threads))).trans hcells
    refine ⟨hperm, hinv'.good.1, fun j hj r hr => ?_⟩
    rw [hinv'.good.2 (j * rows + r) (hperm.mem_iff.mpr (List.mem_range.mpr (grid_lt hj hr)))]
    unfold product
    rw [grid_mod hr, grid_div hr, hsize, ← hdata]
    unfold QmmWeight.row weightBytes
    have hend := Nat.mul_le_mul_right (w.k / qk * w.kind.size) (show r + 1 ≤ rows from hr)
    rw [Nat.succ_mul] at hend
    rw [List.drop_take, List.take_take, Nat.min_eq_left (by omega)]

end

section
variable {w : QmmWeight}

theorem actRow_alone {x : List F} {k : Nat} (hx : x.length = 1 * k) : actRow x k 0 = x := by
  unfold actRow
  rw [Nat.zero_mul, List.drop_zero, List.take_of_length_le (by omega)]

/-- **The row-batched product** is the plain product, whatever the schedule of its threads; each cell is written once, and a row gives what it
gives alone. -/
theorem forwardRows_plain (ops : Floats F) (w : QmmWeight) (hk : 0 < w.k) {x : List F} {m rows threads : Nat} (hm : 0 < m) (hrows : 0 < rows)
    (hn : rows ≤ w.n) (hthreads : 0 < threads) (hx : x.length = m * w.k) (schedule : List Nat) :
    ∃ s, forwardRows ops w x m rows threads schedule = .ok (some s) ∧
      (s.log.flatMap (Copy.cells rows (w.perChunk rows threads))).Nodup ∧
      (∃ more s', forwardRows ops w x m rows threads (schedule ++ more) = .ok (some s') ∧ s'.Finished) ∧
      (s.Finished → (s.log.flatMap (Copy.cells rows (w.perChunk rows threads))).Perm (List.range (m * rows)) ∧ s.out.length = m * rows ∧
        ∀ j < m, ∀ r < rows, s.out[j * rows + r]? = some (rowDot ops (w.kind.format ops) (w.row r) (actRow x w.k j)) ∧
          ∀ rows' threads' schedule' s', r < rows' → rows' ≤ w.n → 0 < threads' →
            forwardRows ops w (actRow x w.k j) 1 rows' threads' schedule' = .ok (some s') → s'.Finished →
            s.out[j * rows + r]? = s'.out[r]?) := by
  obtain ⟨s, hs, hnodup, hmore, hfinal⟩ := forwardRows_run ops hk hm hrows hn hthreads hx schedule
  refine ⟨s, hs, hnodup, hmore, fun hfinished => ?_⟩
  obtain ⟨hperm, hlength, hout⟩ := hfinal hfinished
  refine ⟨hperm, hlength, fun j hj r hr => ⟨hout j hj r hr, ?_⟩⟩
  intro rows' threads' schedule' s' hr' hn' hthreads' hs' hfinished'
  have hend := Nat.mul_le_mul_right w.k (show j + 1 ≤ m from hj)
  rw [Nat.succ_mul] at hend
  have hrow : (actRow x w.k j).length = 1 * w.k := by
    unfold actRow
    rw [List.length_take, List.length_drop]
    omega
  obtain ⟨s₁, hs₁, -, -, hfinal'⟩ := forwardRows_run ops hk Nat.one_pos (Nat.zero_lt_of_lt hr') hn' hthreads' hrow schedule'
  rw [hs'] at hs₁
  obtain rfl : s' = s₁ := by simpa using hs₁
  have halone := (hfinal' hfinished').2.2 0 Nat.one_pos r hr'
  rw [Nat.zero_mul, Nat.zero_add, actRow_alone hrow] at halone
  rw [hout j hj r hr, halone]

/-- Integers, as a small instance of the operations. -/
def integers : Floats Int where
  zero := 0
  one := 1
  half := 1
  quantMax := 127
  add := (· + ·)
  sub := (· - ·)
  mul := (· * ·)
  div := (· / ·)
  max := (Max.max · ·)
  copysign a b := if b < 0 then -a.natAbs else a.natAbs
  abs a := a.natAbs
  trunc a := a
  ge a b := decide (b ≤ a)
  ne a b := decide (a ≠ b)
  toI8 := Int8.ofInt
  ofI32 a := a
  roundF16 a := a
  ofF16 a b := a.toNat + 256 * b.toNat

def onesWeight : QmmWeight := ⟨.q8_0, 2, 32, List.replicate 68 1, by decide, by decide, by decide⟩

theorem forwardRows_plain_ones : ∃ s, forwardRows integers onesWeight (List.replicate 64 127) 2 2 3 [0] = .ok (some s) ∧
    (s.log.flatMap (Copy.cells 2 (onesWeight.perChunk 2 3))).Nodup ∧
    (∃ more s', forwardRows integers onesWeight (List.replicate 64 127) 2 2 3 ([0] ++ more) = .ok (some s') ∧ s'.Finished) ∧
    (s.Finished → (s.log.flatMap (Copy.cells 2 (onesWeight.perChunk 2 3))).Perm (List.range (2 * 2)) ∧ s.out.length = 2 * 2 ∧
      ∀ j < 2, ∀ r < 2, s.out[j * 2 + r]? =
          some (rowDot integers (onesWeight.kind.format integers) (onesWeight.row r) (actRow (List.replicate 64 127) onesWeight.k j)) ∧
        ∀ rows' threads' schedule' s', r < rows' → rows' ≤ onesWeight.n → 0 < threads' →
          forwardRows integers onesWeight (actRow (List.replicate 64 127) onesWeight.k j) 1 rows' threads' schedule' = .ok (some s') →
          s'.Finished → s.out[j * 2 + r]? = s'.out[r]?) :=
  forwardRows_plain integers onesWeight (by decide) (by decide) (by decide) (by decide) (by decide) (by decide) [0]

def noColumns : QmmWeight := ⟨.q4_0, 1, 0, [], by decide, by decide, by decide⟩

theorem not_forwardRows_plain : ¬ ∀ (w : QmmWeight) (x : List Int) (m rows threads : Nat) (schedule : List Nat), 0 < m → 0 < rows → rows ≤ w.n →
    0 < threads → x.length = m * w.k → ∃ s, forwardRows integers w x m rows threads schedule = .ok (some s) := by
  intro h
  obtain ⟨s, hs⟩ := h noColumns [] 1 1 1 [] (by decide) (by decide) (by decide) (by decide) (by decide)
  have hnone : forwardRows integers noColumns [] 1 1 1 [] = .ok none := rfl
  rw [hnone] at hs
  simp at hs

end

end Cuca.Local.Qmm
