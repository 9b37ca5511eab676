import Mathlib.Algebra.BigOperators.Group.Finset.Basic
import Mathlib.Algebra.GroupWithZero.Nat
import Mathlib.Data.List.GetD

/-!
# Lists in chunks

A list is cut into chunks of one length, without what is left behind the last; each chunk may be decoded to as many elements.

* `chunks` : the cut;
* `chunks_slice` : whole chunks of a list, cut;
* `flatMap_slice`, `getElem?_flatMap` : whole chunks, decoded, and an element of one;
* `foldl_add`, `sum_grid` : sums over chunks, element by element;
* `scatter` : the writes; an index behind the end is a fault;
* `Holds f s` : the buffer holds `f` at the indices of `s`;
* `scatter_holds` : writes that agree with `f` add their indices;
* `grid_div`, `grid_mod`, `grid_lt` : rows of `n` cells one behind the other;
* `nodup_parts` : lists that are apart, one behind the other;
* `block` : the elements of one block; `overwrite` : what a list becomes when others are written over it;
* `block_overwrite_self`, `block_overwrite_ne` : a block that is written over, and the others;
* `block_flatMap`, `flatMap_block` : the blocks of a list that is laid out of them, and the list of its blocks.
-/

namespace Chunks

variable {α β : Type}

/-- `as_chunks::<n>().0` and `chunks_exact(n)` -/
def chunks (n : Nat) (l : List α) : List (List α) := (List.range (l.length / n)).map fun i => (l.drop (i * n)).take n

theorem length_chunks (n : Nat) (l : List α) : (chunks n l).length = l.length / n := by
  unfold chunks
  rw [List.length_map, List.length_range]

theorem getElem?_chunks {n i : Nat} {l : List α} (h : i < l.length / n) : (chunks n l)[i]? = some ((l.drop (i * n)).take n) := by
  unfold chunks
  rw [List.getElem?_map, List.getElem?_range h]
  rfl

theorem length_of_mem {n : Nat} {l chunk : List α} (h : chunk ∈ chunks n l) : chunk.length = n := by
  obtain ⟨i, hi, rfl⟩ := List.mem_map.mp h
  rw [List.mem_range] at hi
  have hn : 0 < n := Nat.pos_of_ne_zero fun hzero => by rw [hzero, Nat.div_zero] at hi; omega
  have hend := (Nat.le_div_iff_mul_le hn).mp hi
  rw [Nat.succ_mul] at hend
  rw [List.length_take, List.length_drop]
  omega

theorem chunks_slice {n a count : Nat} {l : List α} (hn : 0 < n) (h : a + count ≤ l.length / n) :
    chunks n ((l.drop (a * n)).take (count * n)) = ((chunks n l).drop a).take count := by
  have hend := (Nat.le_div_iff_mul_le hn).mp h
  rw [Nat.add_mul] at hend
  have hlength : ((l.drop (a * n)).take (count * n)).length = count * n := by
    rw [List.length_take, List.length_drop]
    omega
  apply List.ext_getElem?
  intro i
  by_cases hi : i < count
  · have hrow := Nat.mul_le_mul_right n (show i + 1 ≤ count from hi)
    rw [Nat.succ_mul] at hrow
    rw [getElem?_chunks (by rw [hlength, Nat.mul_div_cancel _ hn]; exact hi), List.getElem?_take_of_lt hi, List.getElem?_drop,
      getElem?_chunks (by omega), List.drop_take, List.take_take, List.drop_drop, Nat.add_mul, Nat.min_eq_left (by omega)]
  · rw [List.getElem?_eq_none (by rw [length_chunks, hlength, Nat.mul_div_cancel _ hn]; omega),
      List.getElem?_eq_none (by rw [List.length_take]; omega)]

section
variable {f : α → List β} {k : Nat} {l : List α} (hf : ∀ x ∈ l, (f x).length = k)
include hf

theorem length_flatMap_chunks : (l.flatMap f).length = l.length * k := by
  induction l with
  | nil => rw [List.flatMap_nil, List.length_nil, List.length_nil, Nat.zero_mul]
  | cons x l ih =>
    rw [List.flatMap_cons, List.length_append, hf x List.mem_cons_self, ih fun y hy => hf y (List.mem_cons_of_mem x hy), List.length_cons,
      Nat.succ_mul, Nat.add_comm]

theorem drop_flatMap (a : Nat) : (l.flatMap f).drop (a * k) = (l.drop a).flatMap f := by
  induction l generalizing a with
  | nil => rw [List.drop_nil, List.flatMap_nil, List.drop_nil]
  | cons x l ih =>
    rcases a with _ | a
    · rw [Nat.zero_mul, List.drop_zero, List.drop_zero]
    · have hx := hf x List.mem_cons_self
      rw [List.flatMap_cons, Nat.succ_mul, Nat.add_comm, ← List.drop_drop, List.drop_left' hx, List.drop_succ_cons,
        ih fun y hy => hf y (List.mem_cons_of_mem x hy)]

theorem take_flatMap (a : Nat) : (l.flatMap f).take (a * k) = (l.take a).flatMap f := by
  induction l generalizing a with
  | nil => rw [List.take_nil, List.flatMap_nil, List.take_nil]
  | cons x l ih =>
    rcases a with _ | a
    · rw [Nat.zero_mul, List.take_zero, List.take_zero, List.flatMap_nil]
    · have hx := hf x List.mem_cons_self
      rw [List.flatMap_cons, Nat.succ_mul, Nat.add_comm, List.take_add, List.take_left' hx, List.drop_left' hx, List.take_succ_cons,
        List.flatMap_cons, ih fun y hy => hf y (List.mem_cons_of_mem x hy)]

theorem getElem?_flatMap {i e : Nat} (he : e < k) : (l.flatMap f)[i * k + e]? = l[i]?.bind fun x => (f x)[e]? := by
  induction l generalizing i with
  | nil => rw [List.flatMap_nil, List.getElem?_nil, List.getElem?_nil]; rfl
  | cons x l ih =>
    have hx := hf x List.mem_cons_self
    rcases i with _ | i
    · rw [Nat.zero_mul, Nat.zero_add, List.flatMap_cons, List.getElem?_append_left (hx ▸ he), List.getElem?_cons_zero]
      rfl
    · rw [List.flatMap_cons, Nat.succ_mul, List.getElem?_append_right (by omega), hx, List.getElem?_cons_succ,
        show i * k + k + e - k = i * k + e by omega, ih fun y hy => hf y (List.mem_cons_of_mem x hy)]

end

theorem flatMap_slice {f : List α → List β} {n k a count : Nat} {l : List α} (hf : ∀ x ∈ chunks n l, (f x).length = k) (hn : 0 < n)
    (h : a + count ≤ l.length / n) :
    (chunks n ((l.drop (a * n)).take (count * n))).flatMap f = (((chunks n l).flatMap f).drop (a * k)).take (count * k) := by
  rw [chunks_slice hn h, drop_flatMap hf, take_flatMap fun x hx => hf x (List.mem_of_mem_drop hx)]

/-! ## Sums -/

theorem foldl_add {M : Type} [AddCommMonoid M] (f : Nat → M) (s : M) (n : Nat) :
    (List.range n).foldl (fun s i => s + f i) s = s + ∑ i ∈ Finset.range n, f i := by
  induction n with
  | zero => rw [List.range_zero, List.foldl_nil, Finset.range_zero, Finset.sum_empty, add_zero]
  | succ n ih => rw [List.range_succ, List.foldl_append, List.foldl_cons, List.foldl_nil, ih, Finset.sum_range_succ, add_assoc]

theorem sum_grid {M : Type} [AddCommMonoid M] (f : Nat → M) (m n : Nat) :
    ∑ i ∈ Finset.range m, ∑ j ∈ Finset.range n, f (i * n + j) = ∑ e ∈ Finset.range (m * n), f e := by
  induction m with
  | zero => rw [Finset.range_zero, Finset.sum_empty, Nat.zero_mul, Finset.range_zero, Finset.sum_empty]
  | succ m ih => rw [Finset.sum_range_succ, ih, Nat.succ_mul, Finset.sum_range_add]

end Chunks

/-! ## Buffers written index by index

Values are written into a buffer at indices, one after the other; an index may be written more than once. Where every value is that of a
function at its index, the order does not matter, and the buffer holds the function where it was written.
-/

namespace Scatter

variable {α : Type*}

def scatter (buf : List α) (writes : List (Nat × α)) : Option (List α) :=
  if writes.all fun w => w.1 < buf.length then some (writes.foldl (fun buf w => buf.set w.1 w.2) buf) else none

def slice (buf : List α) (start stop : Nat) : Option (List α) :=
  if start ≤ stop ∧ stop ≤ buf.length then some ((buf.drop start).take (stop - start)) else none

def Holds (f : Nat → α) (s : Set Nat) (buf : List α) : Prop := ∀ i ∈ s, buf[i]? = some (f i)

def indices (writes : List (Nat × α)) : Set Nat := {i | ∃ w ∈ writes, w.1 = i}

variable {f : Nat → α} {s : Set Nat} {buf : List α} {writes : List (Nat × α)}

theorem holds_empty (f : Nat → α) (buf : List α) : Holds f ∅ buf := fun _ h => absurd h (Set.notMem_empty _)

theorem Holds.mono {t : Set Nat} (h : Holds f s buf) (ht : ∀ i ∈ t, i ∈ s) : Holds f t buf := fun i hi => h i (ht i hi)

theorem length_foldl_set (writes : List (Nat × α)) (buf : List α) :
    (writes.foldl (fun buf w => buf.set w.1 w.2) buf).length = buf.length := by
  induction writes generalizing buf with
  | nil => rfl
  | cons w writes ih => rw [List.foldl_cons, ih, List.length_set]

/-- **Writes that agree** with a function add their indices to those where the buffer holds it. -/
theorem scatter_holds (h : Holds f s buf) (writes : List (Nat × α)) (hagree : ∀ w ∈ writes, w.2 = f w.1) (hbound : ∀ w ∈ writes, w.1 < buf.length) :
    ∃ buf', scatter buf writes = some buf' ∧ buf'.length = buf.length ∧ Holds f (s ∪ indices writes) buf' := by
  refine ⟨_, if_pos (List.all_eq_true.mpr fun w hw => decide_eq_true (hbound w hw)), length_foldl_set writes buf, ?_⟩
  induction writes generalizing buf s with
  | nil =>
    rintro i (hi | ⟨w, hw, -⟩)
    · exact h i hi
    · exact absurd hw List.not_mem_nil
  | cons w writes ih =>
    have hw : w.1 < buf.length := hbound w List.mem_cons_self
    have hset : Holds f (s ∪ {w.1}) (buf.set w.1 w.2) := by
      intro i hi
      rw [List.getElem?_set]
      split
      · rename_i heq
        rw [hagree w List.mem_cons_self, heq]
      · rename_i hne
        rcases hi with hi | hi
        · exact h i hi
        · exact absurd hi.symm hne
    refine Holds.mono (ih hset (fun w' hw' => hagree w' (List.mem_cons_of_mem _ hw')) fun w' hw' => ?_) ?_
    · rw [List.length_set]
      exact hbound w' (List.mem_cons_of_mem _ hw')
    · rintro i (hi | ⟨w', hw', rfl⟩)
      · exact .inl (.inl hi)
      · rcases List.mem_cons.mp hw' with rfl | hw'
        · exact .inl (.inr rfl)
        · exact .inr ⟨w', hw', rfl⟩

/-! ## Parts -/

theorem slice_eq {start stop : Nat} (h : start ≤ stop) (hstop : stop ≤ buf.length) :
    slice buf start stop = some ((buf.drop start).take (stop - start)) := if_pos ⟨h, hstop⟩

/-! ## Indices of a grid -/

theorem grid_div {n i j : Nat} (h : j < n) : (i * n + j) / n = i := by
  rw [Nat.mul_comm, Nat.mul_add_div (Nat.zero_lt_of_lt h), Nat.div_eq_of_lt h, Nat.add_zero]

theorem grid_mod {n i j : Nat} (h : j < n) : (i * n + j) % n = j := by
  rw [Nat.mul_comm, Nat.mul_add_mod, Nat.mod_eq_of_lt h]

theorem grid_lt {m n i j : Nat} (hi : i < m) (hj : j < n) : i * n + j < m * n := by
  have hrow := Nat.mul_le_mul_right n (show i + 1 ≤ m from hi)
  rw [Nat.succ_mul] at hrow
  omega

theorem grid_eq (i n : Nat) : i / n * n + i % n = i := Nat.div_add_mod' i n

theorem nodup_parts {β γ : Type*} {l : List β} {part : β → List γ} (index : γ → β) (hl : l.Nodup) (hpart : ∀ b ∈ l, (part b).Nodup)
    (hindex : ∀ b ∈ l, ∀ c ∈ part b, index c = b) : (l.flatMap part).Nodup := by
  refine List.nodup_flatMap.mpr ⟨hpart, ?_⟩
  refine List.Pairwise.imp_of_mem ?_ hl
  intro b b' hb hb' hne c hc hc'
  exact hne ((hindex b hb c hc).symm.trans (hindex b' hb' c hc'))

end Scatter

/-! ## Blocks of one width in a flat list -/

namespace Blocks
variable {α : Type*} {width : Nat}

def block (width : Nat) (xs : List α) (k : Nat) : List α := (xs.drop (k * width)).take width

/-- `xs[offset + i] = data[i]` for each `i`. -/
def overwrite (xs data : List α) (offset : Nat) : List α :=
  xs.mapIdx fun i x => if offset ≤ i then data.getD (i - offset) x else x

@[simp] theorem length_overwrite (xs data : List α) (offset : Nat) : (overwrite xs data offset).length = xs.length :=
  List.length_mapIdx

theorem getElem?_block (xs : List α) (k i : Nat) :
    (block width xs k)[i]? = if i < width then xs[k * width + i]? else none := by
  rw [block, List.getElem?_take, List.getElem?_drop]

theorem block_overwrite_self {xs data : List α} {k : Nat} (hdata : data.length = width) (hfits : (k + 1) * width ≤ xs.length) :
    block width (overwrite xs data (k * width)) k = data := by
  rw [Nat.add_mul, Nat.one_mul] at hfits
  apply List.ext_getElem?
  intro i
  rw [getElem?_block]
  split
  case isTrue hi =>
    have hx : k * width + i < xs.length := by omega
    have hsub : k * width + i - k * width = i := by omega
    rw [overwrite, List.getElem?_mapIdx, List.getElem?_eq_getElem hx, Option.map_some, if_pos (Nat.le_add_right _ _), hsub,
      List.getD_eq_getElem _ _ (by omega), List.getElem?_eq_getElem]
  case isFalse hi => rw [List.getElem?_eq_none (by omega)]

theorem block_overwrite_ne {xs data : List α} {k k' : Nat} (hdata : data.length = width) (hne : k ≠ k') :
    block width (overwrite xs data (k * width)) k' = block width xs k' := by
  apply List.ext_getElem?
  intro i
  rw [getElem?_block, getElem?_block]
  split
  case isFalse => rfl
  case isTrue hi =>
    rw [overwrite, List.getElem?_mapIdx]
    rcases xs[k' * width + i]? with _ | x
    · rfl
    refine congrArg some ?_
    dsimp only
    -- the block lies before or after the one that is written
    rcases Nat.lt_or_gt_of_ne hne with hlt | hlt
    · have hblocks : (k + 1) * width ≤ k' * width := Nat.mul_le_mul_right width hlt
      rw [Nat.add_mul, Nat.one_mul] at hblocks
      rw [if_pos (by omega), List.getD_eq_default _ _ (by omega)]
    · have hblocks : (k' + 1) * width ≤ k * width := Nat.mul_le_mul_right width hlt
      rw [Nat.add_mul, Nat.one_mul] at hblocks
      rw [if_neg (by omega)]

theorem block_append_right {xs : List α} {n : Nat} (hxs : xs.length = n * width) (ys : List α) (k : Nat) :
    block width (xs ++ ys) (n + k) = block width ys k := by
  have hbefore : xs.length ≤ xs.length + k * width := Nat.le_add_right _ _
  rw [block, block, Nat.add_mul, ← hxs, List.drop_append, List.drop_eq_nil_of_le hbefore, List.nil_append,
    Nat.add_sub_cancel_left]

theorem block_append_left {xs : List α} {k : Nat} (hfits : (k + 1) * width ≤ xs.length) (ys : List α) :
    block width (xs ++ ys) k = block width xs k := by
  rw [Nat.add_mul, Nat.one_mul] at hfits
  rw [block, block, List.drop_append_of_le_length (by omega), List.take_append_of_le_length]
  rw [List.length_drop]
  omega

theorem length_block {xs : List α} {k : Nat} (hfits : (k + 1) * width ≤ xs.length) : (block width xs k).length = width := by
  rw [Nat.add_mul, Nat.one_mul] at hfits
  rw [block, List.length_take, List.length_drop]
  omega

theorem length_flatMap_range {f : Nat → List α} {n : Nat} (hf : ∀ k < n, (f k).length = width) :
    ((List.range n).flatMap f).length = n * width := by
  have hconst : (List.range n).map (fun k => (f k).length) = (List.range n).map fun _ => width :=
    List.map_congr_left fun k hk => hf k (List.mem_range.mp hk)
  rw [List.length_flatMap, hconst, List.map_const', List.sum_replicate_nat, List.length_range]

theorem block_flatMap {f : Nat → List α} {n k : Nat} (hf : ∀ k < n, (f k).length = width) (hk : k < n) :
    block width ((List.range n).flatMap f) k = f k := by
  induction n with
  | zero => exact absurd hk (Nat.not_lt_zero k)
  | succ n ih =>
    have hf' : ∀ k < n, (f k).length = width := fun k hk => hf k (Nat.lt_succ_of_lt hk)
    have hlength := length_flatMap_range hf'
    rw [List.range_succ, List.flatMap_append, List.flatMap_singleton]
    rcases Nat.lt_succ_iff_lt_or_eq.mp hk with hlt | rfl
    · rw [← ih hf' hlt, block_append_left (hlength ▸ Nat.mul_le_mul_right width hlt)]
    · have hself := block_append_right hlength (f k) 0
      rw [Nat.add_zero] at hself
      rw [hself, block, Nat.zero_mul, List.drop_zero, List.take_of_length_le (Nat.le_of_eq (hf _ hk))]

theorem flatMap_block {xs : List α} {n : Nat} (hxs : xs.length = n * width) :
    ((List.range n).flatMap fun k => block width xs k) = xs := by
  induction n generalizing xs with
  | zero =>
    rw [Nat.zero_mul] at hxs
    rw [List.eq_nil_of_length_eq_zero hxs]
    rfl
  | succ n ih =>
    rw [Nat.add_mul, Nat.one_mul] at hxs
    have htake : (xs.take (n * width)).length = n * width := List.length_take_of_le (by omega)
    have hlast : block width xs n = xs.drop (n * width) := by
      rw [block, List.take_of_length_le]
      rw [List.length_drop]
      omega
    have hbefore : ∀ k ∈ List.range n, block width xs k = block width (xs.take (n * width)) k := by
      intro k hk
      have hle : (k + 1) * width ≤ (xs.take (n * width)).length := by
        rw [htake]
        exact Nat.mul_le_mul_right width (List.mem_range.mp hk)
      have happend := block_append_left hle (xs.drop (n * width))
      rwa [List.take_append_drop] at happend
    rw [List.range_succ, List.flatMap_append, List.flatMap_singleton, hlast, List.flatMap_congr hbefore, ih htake,
      List.take_append_drop]

end Blocks
