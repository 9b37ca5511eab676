import Cuca.Local.Model.Transformer

/-!
# What the slabs hold

At every point of every run the slab of a layer holds the rows of the retained sequence from its base on, and serves a call at its end:
the window before it is resident and a call's rows fit, once room is made. A call therefore reads for each of its queries the rows of the
positions that its layer sees, and fails for the reasons of its pass only.

* `Slab.Serves`, `Slab.Holds` : what a slab is good for, and what is in it;
* `Slab.makeRoom_serves`, `Slab.attend_eq` : making room, reading;
* `Kept` : the invariant; `due`, `CallSound` : what a call reads;
* `kv_sound` : it holds throughout every run, and every call reads what is due.
-/

namespace Cuca.Local.Model
open Transition

/-! ## Numbers -/

theorem addUsize_eq {a b : Nat} (h : a + b < 2 ^ 64) : addUsize a b = a + b := Nat.mod_eq_of_lt h

theorem subUsize_eq {a b : Nat} (hle : b ≤ a) (hlt : a < 2 ^ 64) : subUsize a b = a - b := by
  unfold subUsize
  omega

def Fits (window : Option Nat) (contextLength : Nat) : Prop :=
  ∀ w ∈ window, kvSlots (some w) contextLength = min contextLength (w - 1 + ringRollback + ringRows)

/-! ## Slabs -/

namespace Slab
variable {Row : Type} {slab : Slab Row} {window : Option Nat} {contextLength start hi t w : Nat} {row : Nat → Option Row}

/-- The slab serves calls from `start` up to `hi`: what a query at `start` or later sees is not evicted. -/
structure Serves (slab : Slab Row) (window : Option Nat) (contextLength start hi : Nat) : Prop where
  slots : slab.slots = kvSlots window contextLength
  base_le : slab.base ≤ start
  behind : slab.base = 0 ∨ ∃ w ∈ window, slab.base + (w - 1) ≤ start ∧ slab.base + w < 2 ^ 64
  hi_le : hi ≤ slab.base + slab.slots

/-- The rows from the base up to `hi` are in the slab. -/
def Holds (slab : Slab Row) (row : Nat → Option Row) (hi : Nat) : Prop :=
  ∀ p, slab.base ≤ p → p < hi → row p = some (slab.kv (p - slab.base))

theorem Serves.at_hi (h : slab.Serves window contextLength start hi) (hle : start ≤ hi) : slab.Serves window contextLength hi hi := by
  refine ⟨h.slots, h.base_le.trans hle, ?_, h.hi_le⟩
  obtain hzero | ⟨w, hw, hbehind, hlt⟩ := h.behind
  · exact .inl hzero
  · exact .inr ⟨w, hw, hbehind.trans hle, hlt⟩

theorem Holds.mono {hi' : Nat} (h : slab.Holds row hi) (hle : hi' ≤ hi) : slab.Holds row hi' :=
  fun p hbase hp => h p hbase (hp.trans_le hle)

theorem Holds.of_row {row' : Nat → Option Row} (h : slab.Holds row hi) (hrow : ∀ p < hi, row' p = row p) : slab.Holds row' hi :=
  fun p hbase hp => (hrow p hp).trans (h p hbase hp)

theorem slot_eq {index base : Nat} (h : base ≤ index) : slot index base = .ok (index - base) := if_neg (Nat.not_lt.mpr h)

/-! ### Making room -/

theorem compact_holds {keep : Nat} (hkeep : keep ≤ start - slab.base) (hbase : slab.base ≤ start) (hlt : start < 2 ^ 64)
    (h : slab.Holds row start) : (slab.compact keep start).Holds row start := by
  intro p hp hlo
  have hfirst : subUsize start keep = start - keep := subUsize_eq (by omega) hlt
  have hoffset : subUsize (start - keep) slab.base = start - keep - slab.base := subUsize_eq (by omega) (by omega)
  simp only [compact, hfirst, hoffset] at hp ⊢
  rw [if_pos (by omega), h p (by omega) hlo]
  have hslot : start - keep - slab.base + (p - (start - keep)) = p - slab.base := by omega
  rw [hslot]

/-- **A call's rows fit**, once the slab is compacted: the window and the rows to go back to stay. -/
theorem makeRoom_serves (hserves : slab.Serves (some w) contextLength start start) (hfits : Fits (some w) contextLength)
    (hcontext : start + t ≤ contextLength) (hlt : contextLength < 2 ^ 64) (hrows : t ≤ ringRows) :
    ∃ slab', slab.makeRoom w start t = (slab', none) ∧ slab'.Serves (some w) contextLength start (start + t) ∧
      ∀ row, slab.Holds row start → slab'.Holds row start := by
  have hbase := hserves.base_le
  have hslots := hserves.hi_le
  unfold makeRoom
  by_cases hfit : start + t ≤ slab.base + slab.slots
  · rw [if_pos hfit]
    exact ⟨slab, rfl, ⟨hserves.slots, hbase, hserves.behind, hfit⟩, fun row h => h⟩
  · rw [if_neg hfit]
    have hsize : slab.slots = w - 1 + ringRollback + ringRows := by
      have hmin := hserves.slots.trans (hfits w rfl)
      omega
    unfold ringRollback ringRows at *
    have hkeep : min (addUsize (w - 1) 1024) (subUsize start slab.base) = w - 1 + 1024 := by
      rw [addUsize_eq (by omega), subUsize_eq hbase (by omega)]
      omega
    have hmoved : subUsize start (w - 1 + 1024) = start - (w - 1 + 1024) := subUsize_eq (by omega) (by omega)
    have hoffset : subUsize (subUsize start (w - 1 + 1024)) slab.base = start - (w - 1 + 1024) - slab.base := by
      rw [hmoved, subUsize_eq (by omega) (by omega)]
    have hbase' : (slab.compact (w - 1 + 1024) start).base = start - (w - 1 + 1024) := hmoved
    have hslots' : (slab.compact (w - 1 + 1024) start).slots = slab.slots := rfl
    have hserves' : (slab.compact (w - 1 + 1024) start).Serves (some w) contextLength start (start + t) :=
      ⟨hserves.slots, by omega, .inr ⟨w, rfl, by omega, by omega⟩, by omega⟩
    have hhi := hserves'.hi_le
    have hmoves : start - (w - 1 + 1024) - slab.base > 0 := by omega
    dsimp only
    rw [hkeep, hoffset, if_neg (by omega)]
    simp only [if_pos hmoves]
    rw [if_neg (by omega)]
    exact ⟨_, rfl, hserves', fun row h => compact_holds (by omega) hbase (by omega) h⟩

/-! ### Storing -/

theorem storeKv_eq (hserves : slab.Serves window contextLength start hi) {n : Nat} (hn : start + n ≤ hi) (rows : Nat → Row) :
    slab.storeKv start n rows = .ok (slab.write start n rows) := by
  have hbase := hserves.base_le
  have hhi := hserves.hi_le
  unfold storeKv
  rw [slot_eq hbase]
  exact if_neg (by omega)

theorem write_serves (h : slab.Serves window contextLength start hi) (n : Nat) (rows : Nat → Row) :
    (slab.write start n rows).Serves window contextLength start hi := ⟨h.slots, h.base_le, h.behind, h.hi_le⟩

theorem write_holds_before (hbase : slab.base ≤ start) (n : Nat) (rows : Nat → Row) (h : slab.Holds row start) :
    (slab.write start n rows).Holds row start := by
  intro p hp hlt
  rw [h p hp hlt]
  simp only [write] at hp ⊢
  rw [if_neg (by omega)]

theorem write_holds (hbase : slab.base ≤ start) {rows : Nat → Row} (h : slab.Holds row start)
    (hrows : ∀ i < t, row (start + i) = some (rows i)) : (slab.write start t rows).Holds row (start + t) := by
  intro p hp hlt
  by_cases hbefore : p < start
  · exact write_holds_before hbase t rows h p hp hbefore
  · simp only [write] at hp ⊢
    rw [if_pos (by omega)]
    have hrow := hrows (p - start) (by omega)
    rw [Nat.add_sub_cancel' (by omega)] at hrow
    have hslot : p - slab.base - (start - slab.base) = p - start := by omega
    rw [hrow, hslot]

/-! ### Reading -/

/-- The first position that a query sees: that of its window, or 0. -/
def firstSeen (window : Option Nat) (query : Nat) : Nat :=
  match window with
  | some w => query + 1 - w
  | none => 0

def seen (window : Option Nat) (query : Nat) : List Nat :=
  List.range' (firstSeen window query) (query + 1 - firstSeen window query)

theorem mem_seen {query p : Nat} : p ∈ seen window query ↔ firstSeen window query ≤ p ∧ p ≤ query := by
  have hle : firstSeen window query ≤ query + 1 := by
    unfold firstSeen
    split <;> omega
  unfold seen
  rw [List.mem_range'_1]
  omega

theorem windowLo_eq (hpos : ∀ w ∈ window, 0 < w) (query : Nat) : windowLo window query (query + 1) = firstSeen window query := by
  unfold windowLo firstSeen
  cases window with
  | none => rfl
  | some w =>
    have hw := hpos w rfl
    dsimp only
    omega

theorem readsOf_eq (hpos : ∀ w ∈ window, 0 < w) (il query : Nat) :
    slab.readsOf il window query = (seen window query).map fun p => ⟨il, query, p, slab.kv (p - slab.base)⟩ := by
  unfold readsOf seen
  rw [windowLo_eq hpos]

theorem Serves.le_of_seen (h : slab.Serves window contextLength start hi) {query p : Nat} (hquery : start ≤ query)
    (hp : p ∈ seen window query) : slab.base ≤ p := by
  have hfirst := (mem_seen.mp hp).1
  obtain hzero | ⟨w, hw, hbehind, -⟩ := h.behind
  · omega
  · obtain rfl := hw
    unfold firstSeen at hfirst
    dsimp only at hfirst
    omega

theorem span_eq {lo : Nat} (hbase : slab.base ≤ lo) (hle : lo ≤ hi) (hhi : hi ≤ slab.base + slab.slots) : slab.span lo hi = .ok () := by
  unfold span
  rw [slot_eq hbase]
  exact if_neg (by omega)

theorem Serves.span (h : slab.Serves window contextLength start hi) {query stop : Nat} (hquery : start ≤ query) (hlt : query < stop)
    (hstop : stop ≤ hi) : slab.span (windowLo window query stop) stop = .ok () := by
  have hlo : slab.base ≤ windowLo window query stop := by
    have hbase := h.base_le
    obtain hzero | ⟨w, hw, hbehind, -⟩ := h.behind
    · omega
    · obtain rfl := hw
      unfold windowLo
      dsimp only
      omega
  have hle : windowLo window query stop ≤ stop := by
    unfold windowLo
    split <;> omega
  exact span_eq hlo hle (hstop.trans h.hi_le)

theorem forM_ok {xs : List Nat} {f : Nat → Except CucaError Unit} (h : ∀ x ∈ xs, f x = .ok ()) : xs.forM f = .ok () := by
  induction xs with
  | nil => rfl
  | cons x xs ih =>
    have hrest : (x :: xs).forM f = (f x >>= fun _ => xs.forM f) := rfl
    rw [hrest, h x List.mem_cons_self]
    exact ih fun y hy => h y (List.mem_cons_of_mem x hy)

theorem attend_eq (h : slab.Serves window contextLength start (start + t)) (ht : 0 < t) (il : Nat) (exact : Bool) :
    slab.attend il window start t exact = .ok ((List.range t).flatMap fun i => slab.readsOf il window (start + i)) := by
  unfold attend
  split
  · rw [forM_ok fun i hi => h.span (by omega) (by omega) (by have := List.mem_range.mp hi; omega)]
    rfl
  · rw [h.span (Nat.le_refl start) (by omega) (Nat.le_refl _)]
    rfl

end Slab

/-! ## All layers -/

variable {Row St DRow : Type} {c : Config} {k : Kernel St DRow} {start hi t il : Nat} {row : Nat → Nat → Option Row}
  {slabs : Nat → Option (Slab Row)} {room filled room' filled' : Nat → Nat}

/-- The slabs of a transformer: layer `il` serves calls from `start` up to `room il`, and holds the rows up to `filled il`. -/
structure Resident (c : Config) (row : Nat → Nat → Option Row) (start : Nat) (room filled : Nat → Nat) (slabs : Nat → Option (Slab Row)) :
    Prop where
  owners : ∀ il spec, c.layers[il]? = some spec → (slabs il).isSome = spec.ownsKv il
  serves : ∀ il spec slab, c.layers[il]? = some spec → slabs il = some slab → slab.Serves spec.window c.contextLength start (room il)
  holds : ∀ il spec slab, c.layers[il]? = some spec → slabs il = some slab → slab.Holds (row il) (filled il)

/-- Up to layer `il` one bound, from there on another. -/
def upTo (il done todo j : Nat) : Nat := if j < il then done else todo

theorem upTo_self : upTo il hi start il = start := if_neg (Nat.lt_irrefl il)

theorem upTo_succ_self : upTo (il + 1) hi start il = hi := if_pos (Nat.lt_succ_self il)

theorem upTo_succ {j : Nat} (h : j ≠ il) : upTo (il + 1) hi start j = upTo il hi start j := by
  unfold upTo
  split <;> split <;> omega

namespace Resident

theorem mono (h : Resident c row start room filled slabs) (hroom : ∀ il < c.layers.length, room' il = room il)
    (hfilled : ∀ il < c.layers.length, filled' il ≤ filled il) : Resident c row start room' filled' slabs := by
  refine ⟨h.owners, fun il spec slab hspec hslab => ?_, fun il spec slab hspec hslab => ?_⟩
  · rw [hroom il (List.getElem?_eq_some_iff.mp hspec).1]
    exact h.serves il spec slab hspec hslab
  · exact (h.holds il spec slab hspec hslab).mono (hfilled il (List.getElem?_eq_some_iff.mp hspec).1)

theorem update {x : Option (Slab Row)} (h : Resident c row start room filled slabs) (hx : x.isSome = (slabs il).isSome)
    (hroom : ∀ j, j ≠ il → room' j = room j) (hfilled : ∀ j, j ≠ il → filled' j = filled j)
    (hat : ∀ spec slab, c.layers[il]? = some spec → x = some slab →
      slab.Serves spec.window c.contextLength start (room' il) ∧ slab.Holds (row il) (filled' il)) :
    Resident c row start room' filled' (Function.update slabs il x) := by
  refine ⟨fun j spec hspec => ?_, fun j spec slab hspec hslab => ?_, fun j spec slab hspec hslab => ?_⟩ <;> by_cases hj : j = il
  · subst hj
    rw [Function.update_self, hx]
    exact h.owners j spec hspec
  · rw [Function.update_of_ne hj]
    exact h.owners j spec hspec
  · subst hj
    rw [Function.update_self] at hslab
    exact (hat spec slab hspec hslab).1
  · rw [Function.update_of_ne hj] at hslab
    rw [hroom j hj]
    exact h.serves j spec slab hspec hslab
  · subst hj
    rw [Function.update_self] at hslab
    exact (hat spec slab hspec hslab).2
  · rw [Function.update_of_ne hj] at hslab
    rw [hfilled j hj]
    exact h.holds j spec slab hspec hslab

theorem exists_slab {src : Nat} {owner : LayerSpec} (h : Resident c row start room filled slabs) (howner : c.layers[src]? = some owner)
    (hself : owner.kvSource = some src) : ∃ slab, slabs src = some slab := by
  refine Option.isSome_iff_exists.mp ?_
  rw [h.owners src owner howner]
  unfold LayerSpec.ownsKv
  rw [hself]
  exact beq_self_eq_true _

theorem advance (h : Resident c row start room filled slabs) (hroom : ∀ j, j ≠ il → room' j = room j)
    (hfilled : ∀ j, j ≠ il → filled' j = filled j)
    (hat : ∀ spec slab, c.layers[il]? = some spec → slabs il = some slab →
      slab.Serves spec.window c.contextLength start (room' il) ∧ slab.Holds (row il) (filled' il)) :
    Resident c row start room' filled' slabs := by
  have hsame := h.update (x := slabs il) rfl hroom hfilled hat
  rwa [Function.update_eq_self] at hsame

end Resident

variable {specs : List LayerSpec}

theorem drop_cons {spec : LayerSpec} (h : c.layers.drop il = spec :: specs) :
    c.layers[il]? = some spec ∧ c.layers.drop (il + 1) = specs := by
  constructor
  · rw [← Nat.add_zero il, ← List.getElem?_drop, h]
    rfl
  · rw [← List.drop_drop, h]
    rfl

theorem lt_of_drop_nil {j : Nat} (h : c.layers.drop il = []) (hj : j < c.layers.length) : j < il := by
  have hle := List.drop_eq_nil_iff.mp h
  omega

/-! ### Room -/

def Config.Fits (c : Config) : Prop :=
  ∀ (il : Nat) (spec : LayerSpec), c.layers[il]? = some spec → spec.ownsKv il = true → Model.Fits spec.window c.contextLength

/-- **There is room for every call** of at most `ringRows` rows. -/
theorem makeRoom_resident (hfits : c.Fits) (hcontext : start + t ≤ c.contextLength) (hrows : t ≤ ringRows)
    (hdrop : c.layers.drop il = specs) (h : Resident c row start (upTo il (start + t) start) (fun _ => start) slabs) :
    ∃ slabs', Cpu.makeRoom start t specs il slabs = (slabs', none) ∧
      Resident c row start (fun _ => start + t) (fun _ => start) slabs' := by
  induction specs generalizing il slabs with
  | nil =>
    refine ⟨slabs, rfl, h.mono (fun j hj => ?_) fun j _ => Nat.le_refl start⟩
    exact (if_pos (lt_of_drop_nil hdrop hj)).symm
  | cons spec specs ih =>
    obtain ⟨hspec, hrest⟩ := drop_cons hdrop
    unfold Cpu.makeRoom
    split
    · rename_i slab w hslab hw
      have hserves := h.serves il spec slab hspec hslab
      have howns : spec.ownsKv il = true := by
        rw [← h.owners il spec hspec, hslab]
        rfl
      rw [upTo_self, hw] at hserves
      obtain ⟨slab', hmake, hserves', hholds⟩ :=
        Slab.makeRoom_serves hserves (hw ▸ hfits il spec hspec howns) hcontext c.contextLength_lt hrows
      rw [hmake]
      refine ih hrest (h.update (by rw [hslab]; rfl) (fun j hj => upTo_succ hj) (fun j _ => rfl) fun spec' slab'' hspec' hslab'' => ?_)
      obtain rfl : spec = spec' := Option.some.inj (hspec.symm.trans hspec')
      obtain rfl : slab' = slab'' := Option.some.inj hslab''
      rw [upTo_succ_self, hw]
      exact ⟨hserves', hholds _ (h.holds il spec slab hspec hslab)⟩
    · rename_i hskip
      refine ih hrest (h.advance (fun j hj => upTo_succ hj) (fun j _ => rfl) fun spec' slab hspec' hslab => ?_)
      obtain rfl : spec = spec' := Option.some.inj (hspec.symm.trans hspec')
      refine ⟨?_, h.holds il spec slab hspec hslab⟩
      have hserves := h.serves il spec slab hspec hslab
      cases hw : spec.window with
      | some w => exact absurd hw (hskip slab w hslab)
      | none =>
        -- a full layer never moves, and the context bounds the call
        rw [hw] at hserves
        obtain hzero | ⟨w, hnone, -⟩ := hserves.behind
        · refine ⟨hserves.slots, hserves.base_le, .inl hzero, ?_⟩
          rw [upTo_succ_self, hserves.slots]
          exact hcontext.trans (Nat.le_add_left _ _)
        · exact nomatch hnone

/-! ### A pass -/

def Read.key (r : Read Row) : Nat × Nat × Nat := (r.layer, r.query, r.position)

/-- What an attention layer must read. -/
def dueAt (spec : LayerSpec) (il start t : Nat) : List (Nat × Nat × Nat) :=
  if spec.isDelta then []
  else (List.range t).flatMap fun i => (Slab.seen spec.window (start + i)).map fun p => (il, start + i, p)

/-- What the layers from `il` on must read. -/
def due (start t : Nat) : List LayerSpec → Nat → List (Nat × Nat × Nat)
  | [], _ => []
  | spec :: specs, il => dueAt spec il start t ++ due start t specs (il + 1)

theorem mem_due {key : Nat × Nat × Nat} (hdrop : c.layers.drop il = specs) (h : key ∈ due start t specs il) :
    ∃ spec, c.layers[key.1]? = some spec ∧ start ≤ key.2.1 ∧ key.2.1 < start + t ∧ key.2.2 ∈ Slab.seen spec.window key.2.1 := by
  induction specs generalizing il with
  | nil => exact nomatch h
  | cons spec specs ih =>
    obtain ⟨hspec, hrest⟩ := drop_cons hdrop
    obtain hhere | hlater := List.mem_append.mp h
    · unfold dueAt at hhere
      split at hhere
      · exact nomatch hhere
      · obtain ⟨i, hi, hkey⟩ := List.mem_flatMap.mp hhere
        obtain ⟨p, hseen, rfl⟩ := List.mem_map.mp hkey
        rw [List.mem_range] at hi
        exact ⟨spec, hspec, Nat.le_add_right start i, Nat.add_lt_add_left hi start, hseen⟩
    · exact ih hrest hlater

def Right (c : Config) (row : Nat → Nat → Option Row) (r : Read Row) : Prop :=
  ∃ spec src, c.layers[r.layer]? = some spec ∧ spec.kvSource = some src ∧ row src r.position = some r.row

/-- What a pass leaves and returns, from layer `il` on. -/
def PassSound (c : Config) (row : Nat → Nat → Option Row) (call : Cpu.Call Row DRow) (wanted : List (Nat × Nat × Nat)) (filled : Nat → Nat)
    (s : Cpu Row St DRow) (r : Cpu Row St DRow × Except CucaError (List (Read Row))) : Prop :=
  r.1.len = s.len ∧
    match r.2 with
    | .ok reads => Resident c row call.start (fun _ => call.start + call.t) filled r.1.slabs ∧ reads.map Read.key = wanted ∧
        ∀ x ∈ reads, Right c row x
    | .error e => Resident c row call.start (fun _ => call.start + call.t) (fun _ => call.start) r.1.slabs ∧
        ∃ failure, call.pass.fails = some failure ∧ failure.error = e

def Written (row : Nat → Nat → Option Row) (call : Cpu.Call Row DRow) : Prop :=
  ∀ il i, i < call.t → row il (call.start + i) = some (call.pass.kv il i)

def Readers (layers : List LayerSpec) : Prop := ∀ spec ∈ layers, spec.isDelta = false → spec.kvSource ≠ none

theorem upTo_le (hle : start ≤ hi) (il j : Nat) : start ≤ upTo il hi start j := by
  unfold upTo
  split
  · exact hle
  · exact Nat.le_refl start

variable {call : Cpu.Call Row DRow} {spec : LayerSpec} {s : Cpu Row St DRow}

theorem stored_resident (hwritten : Written row call) (hspec : c.layers[il]? = some spec)
    (h : Resident c row call.start (fun _ => call.start + call.t) (upTo il (call.start + call.t) call.start) slabs) :
    ∃ slabs', Cpu.stored spec il slabs call.start call.t (call.pass.kv il) = .ok slabs' ∧
      Resident c row call.start (fun _ => call.start + call.t) (upTo (il + 1) (call.start + call.t) call.start) slabs' := by
  unfold Cpu.stored
  have howner := h.owners il spec hspec
  cases hslab : slabs il with
  | none =>
    rw [hslab] at howner
    rw [← howner]
    refine ⟨slabs, rfl, h.advance (fun j _ => rfl) (fun j hj => upTo_succ hj) fun spec' slab _ hnone => ?_⟩
    exact nomatch hslab.symm.trans hnone
  | some slab =>
    rw [hslab] at howner
    rw [← howner]
    have hserves := h.serves il spec slab hspec hslab
    have hholds := h.holds il spec slab hspec hslab
    rw [upTo_self] at hholds
    refine ⟨Function.update slabs il (some (slab.write call.start call.t (call.pass.kv il))), ?_, ?_⟩
    · rw [Option.isSome_some, if_pos rfl]
      dsimp only
      rw [Slab.storeKv_eq hserves (Nat.le_refl _)]
      rfl
    · refine h.update (by rw [hslab]; rfl) (fun j _ => rfl) (fun j hj => upTo_succ hj) fun spec' slab' hspec' hslab' => ?_
      obtain rfl : spec = spec' := Option.some.inj (hspec.symm.trans hspec')
      obtain rfl := Option.some.inj hslab'
      rw [upTo_succ_self]
      exact ⟨Slab.write_serves hserves _ _, Slab.write_holds hserves.base_le hholds (hwritten il)⟩

theorem readFrom_eq (hsound : LayersSound c.layers) (hreaders : Readers c.layers) (ht : 0 < call.t) (hspec : c.layers[il]? = some spec)
    (hattends : spec.isDelta = false)
    (h : Resident c row call.start (fun _ => call.start + call.t) (upTo (il + 1) (call.start + call.t) call.start) slabs) :
    ∃ reads, Cpu.readFrom spec il slabs call.start call.t call.exact = .ok reads ∧ reads.map Read.key = dueAt spec il call.start call.t ∧
      ∀ x ∈ reads, Right c row x := by
  have hmem : spec ∈ c.layers := List.mem_of_getElem? hspec
  have hpos := hsound.window_pos spec hmem
  obtain ⟨src, hsrc⟩ := Option.ne_none_iff_exists'.mp (hreaders spec hmem hattends)
  obtain ⟨hle, owner, howner, hself, hwindow⟩ := hsound.source il spec src hspec hsrc
  obtain ⟨slab, hslab⟩ := h.exists_slab howner hself
  have hserves := h.serves src owner slab howner hslab
  have hholds := h.holds src owner slab howner hslab
  rw [hwindow] at hserves
  have hfilled : upTo (il + 1) (call.start + call.t) call.start src = call.start + call.t := if_pos (Nat.lt_succ_of_le hle)
  rw [hfilled] at hholds
  let reads : List (Read Row) := (List.range call.t).flatMap fun i => slab.readsOf il spec.window (call.start + i)
  refine ⟨reads, ?_, ?_, fun x hx => ?_⟩
  · unfold Cpu.readFrom
    rw [hsrc]
    dsimp only
    rw [hslab]
    exact Slab.attend_eq hserves ht il call.exact
  · unfold dueAt
    rw [if_neg (by rw [hattends]; decide), List.map_flatMap]
    refine List.flatMap_congr fun i _ => ?_
    rw [Slab.readsOf_eq hpos, List.map_map]
    rfl
  · obtain ⟨i, hi, hx⟩ := List.mem_flatMap.mp hx
    rw [Slab.readsOf_eq hpos] at hx
    obtain ⟨p, hp, rfl⟩ := List.mem_map.mp hx
    have hbase := hserves.le_of_seen (Nat.le_add_right call.start i) hp
    have hlast := (Slab.mem_seen.mp hp).2
    rw [List.mem_range] at hi
    exact ⟨spec, src, hspec, hsrc, hholds p hbase (by omega)⟩

theorem cutShort_resident {n : Nat} (hn : n ≤ call.t)
    (h : Resident c row call.start (fun _ => call.start + call.t) (upTo il (call.start + call.t) call.start) s.slabs) :
    Resident c row call.start (fun _ => call.start + call.t) (fun _ => call.start) (Cpu.cutShort call il n s).slabs := by
  have hbefore := h.mono (fun j _ => rfl) fun j _ => upTo_le (Nat.le_add_right call.start call.t) il j
  refine hbefore.update (by rw [Option.isSome_map]) (fun j _ => rfl) (fun j _ => rfl) fun spec slab hspec hslab => ?_
  obtain ⟨old, hold, hstore⟩ := Option.map_eq_some_iff.mp hslab
  have hserves := hbefore.serves il spec old hspec hold
  rw [Slab.storeKv_eq hserves (Nat.add_le_add_left hn call.start)] at hstore
  obtain rfl : old.write call.start n (call.pass.kv il) = slab := hstore
  exact ⟨Slab.write_serves hserves _ _, Slab.write_holds_before hserves.base_le _ _ (hbefore.holds il spec old hspec hold)⟩

theorem layer_sound (hsound : LayersSound c.layers) (hreaders : Readers c.layers) (ht : 0 < call.t) (hwritten : Written row call)
    (hspec : c.layers[il]? = some spec)
    (h : Resident c row call.start (fun _ => call.start + call.t) (upTo il (call.start + call.t) call.start) s.slabs) :
    PassSound c row call (dueAt spec il call.start call.t) (upTo (il + 1) (call.start + call.t) call.start) s
      (Cpu.layer k call spec il s) := by
  have hbefore := h.mono (fun j _ => rfl) fun j _ => upTo_le (Nat.le_add_right call.start call.t) il j
  unfold Cpu.layer
  split
  · rename_i failure hfails
    have hfailure : ∃ f, call.pass.fails = some f ∧ f.error = failure.error := ⟨failure, (Option.filter_eq_some_iff.mp hfails).1, rfl⟩
    split
    · exact ⟨rfl, hbefore, hfailure⟩
    · exact ⟨rfl, cutShort_resident (Nat.min_le_right _ _) h, hfailure⟩
  · split
    · rename_i hdelta
      have howns : spec.ownsKv il = false := by
        unfold LayerSpec.ownsKv
        rw [hsound.delta spec (List.mem_of_getElem? hspec) hdelta]
        rfl
      refine ⟨rfl, h.advance (fun j _ => rfl) (fun j hj => upTo_succ hj) fun spec' slab hspec' hslab => ?_, ?_, fun x hx => nomatch hx⟩
      · have howner := h.owners il spec hspec
        rw [howns] at howner
        exact absurd (howner.symm.trans (Option.isSome_iff_exists.mpr ⟨slab, hslab⟩)) (by decide)
      · unfold dueAt
        rw [if_pos hdelta]
        rfl
    · rename_i hattends
      have hattends : spec.isDelta = false := by simpa using hattends
      obtain ⟨slabs', hstored, hresident⟩ := stored_resident hwritten hspec h
      obtain ⟨reads, hreads, hdue, hright⟩ := readFrom_eq hsound hreaders ht hspec hattends hresident
      unfold Cpu.attention
      rw [hstored]
      dsimp only
      rw [hreads]
      exact ⟨rfl, hresident, hdue, hright⟩

/-- **All layers**: a pass fails only where it is told to, and reads what is due. -/
theorem forwardLayers_sound (hsound : LayersSound c.layers) (hreaders : Readers c.layers) (ht : 0 < call.t)
    (hwritten : Written row call) (hdrop : c.layers.drop il = specs)
    (h : Resident c row call.start (fun _ => call.start + call.t) (upTo il (call.start + call.t) call.start) s.slabs) :
    PassSound c row call (due call.start call.t specs il) (fun _ => call.start + call.t) s (Cpu.forwardLayers k call specs il s) := by
  induction specs generalizing il s with
  | nil =>
    unfold Cpu.forwardLayers
    split
    · rename_i failure hfails
      refine ⟨rfl, h.mono (fun j _ => rfl) fun j _ => upTo_le (Nat.le_add_right call.start call.t) il j, failure, ?_, rfl⟩
      exact (Option.filter_eq_some_iff.mp hfails).1
    · refine ⟨rfl, h.mono (fun j _ => rfl) fun j hj => Nat.le_of_eq ?_, rfl, fun x hx => nomatch hx⟩
      exact (if_pos (lt_of_drop_nil hdrop hj)).symm
  | cons spec specs ih =>
    obtain ⟨hspec, hrest⟩ := drop_cons hdrop
    have hlayer := layer_sound (k := k) hsound hreaders ht hwritten hspec h
    unfold Cpu.forwardLayers
    split
    · rename_i s' e heq
      rw [heq] at hlayer
      exact hlayer
    · rename_i s' reads heq
      rw [heq] at hlayer
      obtain ⟨hlen, hresident, hdue, hright⟩ := hlayer
      have hmore := ih hrest hresident
      split
      · rename_i s'' e heq'
        rw [heq'] at hmore
        exact ⟨hmore.1.trans hlen, hmore.2⟩
      · rename_i s'' more heq'
        rw [heq'] at hmore
        obtain ⟨hlen', hresident', hdue', hright'⟩ := hmore
        refine ⟨hlen'.trans hlen, hresident', ?_, fun x hx => ?_⟩
        · rw [List.map_append, hdue, hdue']
          rfl
        · exact (List.mem_append.mp hx).elim (hright x) (hright' x)

/-! ## Truncation -/

@[simp] theorem discardState_slabs (s : Cpu Row St DRow) : (Cpu.discardState c k s).slabs = s.slabs := by
  unfold Cpu.discardState
  split <;> rfl

theorem truncatePositions_len (s : Cpu Row St DRow) (len : Nat) :
    (Cpu.truncatePositions c k s len).1.slabs = s.slabs ∧
      (Cpu.truncatePositions c k s len).1.len = (Cpu.truncatePositions c k s len).2 ∧
      (Cpu.truncatePositions c k s len).2 ≤ min len s.len ∧
      (c.hybrid = false → (Cpu.truncatePositions c k s len).2 = min len s.len) := by
  unfold Cpu.truncatePositions
  split
  · rename_i hdiscard
    refine ⟨discardState_slabs s, ?_, Nat.zero_le _, fun hplain => absurd (hplain.symm.trans hdiscard.1) (by decide)⟩
    unfold Cpu.discardState
    rw [if_pos hdiscard.1]
  · split
    · exact ⟨rfl, rfl, by dsimp only; omega, fun _ => by dsimp only; omega⟩
    · split
      · exact ⟨rfl, rfl, by dsimp only; omega, fun _ => by dsimp only; omega⟩
      · rename_i hlt hhybrid
        have hkept : Cpu.keptAt s len ≤ len := by
          unfold Cpu.keptAt
          split
          · exact Nat.le_refl len
          · cases hat : s.checkpoint.filter (· ≤ len) with
            | none => exact Nat.zero_le len
            | some at' => simpa using (Option.filter_eq_some_iff.mp hat).2
        have hplain : c.hybrid ≠ false := by simpa using hhybrid
        dsimp only
        refine ⟨?_, rfl, by omega, fun h => absurd h hplain⟩
        split
        · rfl
        · split <;> rfl

theorem ringFloor_le {il : Nat} (hdrop : c.layers.drop il = specs) {j : Nat} {spec : LayerSpec} {slab : Slab Row}
    {w : Nat} (hj : il ≤ j) (hspec : c.layers[j]? = some spec) (hslab : slabs j = some slab) (hw : spec.window = some w) (hpos : 0 < w)
    (hbase : 0 < slab.base) (hlt : slab.base + w < 2 ^ 64) : slab.base + (w - 1) ≤ Cpu.ringFloor slabs specs il := by
  induction specs generalizing il with
  | nil =>
    have hlength := List.drop_eq_nil_iff.mp hdrop
    have hjlt := (List.getElem?_eq_some_iff.mp hspec).1
    omega
  | cons spec' specs ih =>
    obtain ⟨hspec', hrest⟩ := drop_cons hdrop
    unfold Cpu.ringFloor
    by_cases hhere : j = il
    · subst hhere
      obtain rfl : spec = spec' := Option.some.inj (hspec.symm.trans hspec')
      rw [hslab, hw]
      dsimp only
      rw [if_pos hbase, addUsize_eq hlt, subUsize_eq (by omega) hlt]
      omega
    · have hmore := ih hrest (by omega)
      split
      · split
        · exact hmore.trans (Nat.le_max_right _ _)
        · exact hmore
      · exact hmore

def rebased (slabs : Nat → Option (Slab Row)) : Nat → Option (Slab Row) := fun il => (slabs il).map fun slab => { slab with base := 0 }

theorem truncateCache_slabs (s : Cpu Row St DRow) (len : Nat) :
    (Cpu.truncateCache c k s len).1.len = (Cpu.truncateCache c k s len).2 ∧ (Cpu.truncateCache c k s len).2 ≤ s.len ∧
      (((Cpu.truncateCache c k s len).2 = 0 ∧ (Cpu.truncateCache c k s len).1.slabs = rebased s.slabs) ∨
        ((Cpu.truncateCache c k s len).1.slabs = s.slabs ∧
          (c.hybrid = false → min (Cpu.ringFloor s.slabs c.layers 0) s.len ≤ (Cpu.truncateCache c k s len).2))) := by
  unfold Cpu.truncateCache
  dsimp only
  generalize hasked : (if len < Cpu.ringFloor s.slabs c.layers 0 then 0 else len) = asked
  obtain ⟨hslabs, hlen, hle, hplain⟩ := truncatePositions_len (c := c) (k := k) s asked
  by_cases hzero : (Cpu.truncatePositions c k s asked).2 = 0
  · rw [if_pos hzero]
    refine ⟨hlen.trans hzero, Nat.zero_le _, .inl ⟨rfl, ?_⟩⟩
    dsimp only
    rw [hslabs]
    rfl
  · rw [if_neg hzero]
    refine ⟨hlen, hle.trans (Nat.min_le_right _ _), .inr ⟨hslabs, fun h => ?_⟩⟩
    have hkept := hplain h
    split at hasked <;> omega

/-! ## Runs -/

def rowAt (history : List (Entry Row DRow)) (il p : Nat) : Option Row := (history[p]?).map (·.kv il)

/-- **The slabs hold the retained sequence** and serve a call at its end. -/
structure Kept (c : Config) (s : Traced Row St DRow) : Prop where
  length : s.history.length = s.cpu.len
  len_le : s.cpu.len ≤ c.contextLength
  resident : Resident c (rowAt s.history) s.cpu.len (fun _ => s.cpu.len) (fun _ => s.cpu.len) s.cpu.slabs

/-- What a call has read is what is due; each row lies in its slab, and is that of its position. -/
structure CallSound (c : Config) (s : Traced Row St DRow) (start t : Nat) (reads : List (Read Row)) : Prop where
  due : reads.map Read.key = due start t c.layers 0
  rows : ∀ r ∈ reads, ∃ spec src slab, c.layers[r.layer]? = some spec ∧ spec.kvSource = some src ∧ s.cpu.slabs src = some slab ∧
    slab.base ≤ r.position ∧ r.position < slab.base + slab.slots ∧ slab.kv (r.position - slab.base) = r.row ∧
    rowAt s.history src r.position = some r.row

/-- A call reads what is due, or fails for a reason of its own. -/
def StepSound (c : Config) (k : Kernel St DRow) (s : Traced Row St DRow) (e : Event Row DRow) : Prop :=
  match e with
  | .forward tokens start want exact pass =>
    match (Cpu.forwardExt c k s.cpu tokens.length start want exact pass).2 with
    | .ok reads => CallSound c (Traced.step c k s e) start tokens.length reads
    | .error error => Cpu.rejection c s.cpu.len tokens.length start = some error ∨ Cpu.unembedded c pass = some error ∨
        ∃ failure, pass.fails = some failure ∧ failure.error = error
  | _ => True

/-- The rows of a call. -/
def Event.rows : Event Row DRow → Nat
  | .forward tokens .. => tokens.length
  | _ => 0

theorem entries_length (tokens : List Token) (pass : Pass Row DRow) : (entries tokens pass).length = tokens.length := List.length_mapIdx

theorem rowAt_append {history more : List (Entry Row DRow)} {il p : Nat} (hp : p < history.length) :
    rowAt (history ++ more) il p = rowAt history il p := by
  unfold rowAt
  rw [List.getElem?_append_left hp]

theorem rowAt_take {history : List (Entry Row DRow)} {n il p : Nat} (hp : p < n) : rowAt (history.take n) il p = rowAt history il p := by
  unfold rowAt
  rw [List.getElem?_take, if_pos hp]

theorem rowAt_entries {history : List (Entry Row DRow)} {tokens : List Token} {pass : Pass Row DRow} {il i : Nat} (hi : i < tokens.length) :
    rowAt (history ++ entries tokens pass) il (history.length + i) = some (pass.kv il i) := by
  unfold rowAt entries
  rw [List.getElem?_append_right (Nat.le_add_right _ _), Nat.add_sub_cancel_left, List.getElem?_mapIdx, List.getElem?_eq_getElem hi]
  rfl

namespace Resident

theorem of_rows {row' : Nat → Nat → Option Row} {n : Nat} (h : Resident c row start room (fun _ => n) slabs)
    (hrow : ∀ il, ∀ p < n, row' il p = row il p) : Resident c row' start room (fun _ => n) slabs :=
  ⟨h.owners, h.serves, fun il spec slab hspec hslab => (h.holds il spec slab hspec hslab).of_row (hrow il)⟩

theorem at_end {filled : Nat → Nat} (h : Resident c row start (fun _ => hi) filled slabs) (hle : start ≤ hi) :
    Resident c row hi (fun _ => hi) filled slabs :=
  ⟨h.owners, fun il spec slab hspec hslab => (h.serves il spec slab hspec hslab).at_hi hle, h.holds⟩

theorem at_start {filled : Nat → Nat} (h : Resident c row start (fun _ => hi) filled slabs) (hle : start ≤ hi) :
    Resident c row start (fun _ => start) filled slabs :=
  ⟨h.owners, fun il spec slab hspec hslab => by
    obtain ⟨hslots, hbase, hbehind, hhi⟩ := h.serves il spec slab hspec hslab
    exact ⟨hslots, hbase, hbehind, hle.trans hhi⟩, h.holds⟩

theorem truncate {n : Nat} (h : Resident c row start (fun _ => start) (fun _ => start) slabs) (hle : n ≤ start)
    (hfloor : ∀ il spec slab w, c.layers[il]? = some spec → slabs il = some slab → spec.window = some w → 0 < slab.base →
      slab.base + w < 2 ^ 64 → slab.base + (w - 1) ≤ n) : Resident c row n (fun _ => n) (fun _ => n) slabs := by
  refine ⟨h.owners, fun il spec slab hspec hslab => ?_, fun il spec slab hspec hslab => (h.holds il spec slab hspec hslab).mono hle⟩
  obtain ⟨hslots, hbase, hbehind, hhi⟩ := h.serves il spec slab hspec hslab
  by_cases hzero : slab.base = 0
  · exact ⟨hslots, by omega, .inl hzero, by omega⟩
  · obtain hzero' | ⟨w, hw, -, hlt⟩ := hbehind
    · exact absurd hzero' hzero
    · have hreach := hfloor il spec slab w hspec hslab hw (Nat.pos_of_ne_zero hzero) hlt
      exact ⟨hslots, by omega, .inr ⟨w, hw, hreach, hlt⟩, by omega⟩

theorem rebase (h : Resident c row start room filled slabs) (row' : Nat → Nat → Option Row) :
    Resident c row' 0 (fun _ => 0) (fun _ => 0) (rebased slabs) := by
  refine ⟨fun il spec hspec => ?_, fun il spec slab hspec hslab => ?_, fun il spec slab hspec hslab p _ hp => nomatch hp⟩
  · rw [← h.owners il spec hspec]
    exact Option.isSome_map
  · obtain ⟨old, hold, rfl⟩ := Option.map_eq_some_iff.mp hslab
    exact ⟨(h.serves il spec old hspec hold).slots, Nat.le_refl 0, .inl rfl, Nat.zero_le _⟩

end Resident

/-- What the caches rely on: sound layers, slots enough for their windows, and sources to read, unless it is a drafter. -/
structure Config.Sound (c : Config) : Prop where
  layers : LayersSound c.layers
  fits : c.Fits
  readers : c.drafter = false → Readers c.layers

theorem kept_init (c : Config) (k : Kernel St DRow) (blank : Row) : Kept c (Traced.init c k blank) := by
  refine ⟨rfl, Nat.zero_le _, fun il spec hspec => ?_, fun il spec slab hspec hslab => ?_, fun il spec slab _ _ p _ hp => nomatch hp⟩
  · simp only [Traced.init, Cpu.empty, hspec, Option.filter_some, Option.isSome_map]
    cases spec.ownsKv il <;> rfl
  · simp only [Traced.init, Cpu.empty, hspec, Option.filter_some] at hslab
    split at hslab
    · obtain rfl := Option.some.inj hslab
      exact ⟨rfl, Nat.le_refl 0, .inl rfl, Nat.zero_le _⟩
    · exact nomatch hslab

namespace Kept
variable {s : Traced Row St DRow}

theorem failed (h : Kept c s) {cpu : Cpu Row St DRow} (hlen : cpu.len = s.cpu.len)
    (hresident : Resident c (rowAt s.history) s.cpu.len (fun _ => s.cpu.len) (fun _ => s.cpu.len) cpu.slabs) (record : Option (Nat × Nat)) :
    Kept c ⟨cpu, s.history.take cpu.len, record⟩ := by
  have htake : s.history.take cpu.len = s.history := by
    rw [hlen, ← h.length]
    exact List.take_length
  rw [htake]
  exact ⟨h.length.trans hlen.symm, hlen.trans_le h.len_le, hlen.symm ▸ hresident⟩

theorem discarded (hsound : c.Sound) (hhybrid : c.hybrid = true) {cpu : Cpu Row St DRow} (hlen : cpu.len = 0) {start hi : Nat}
    {row : Nat → Nat → Option Row} {filled : Nat → Nat} (hresident : Resident c row start (fun _ => hi) filled cpu.slabs)
    (history : List (Entry Row DRow)) (record : Option (Nat × Nat)) : Kept c ⟨cpu, history.take cpu.len, record⟩ := by
  rw [hlen]
  refine ⟨hlen.symm, hlen.trans_le (Nat.zero_le _), hresident.owners, fun il spec slab hspec hslab => ?_, ?_⟩
  · obtain ⟨hslots, -, hbehind, -⟩ := hresident.serves il spec slab hspec hslab
    obtain hzero | ⟨w, hw, -⟩ := hbehind
    · rw [hlen]
      exact ⟨hslots, Nat.le_of_eq hzero, .inl hzero, Nat.zero_le _⟩
    · exact nomatch (hsound.layers.hybrid hhybrid spec (List.mem_of_getElem? hspec)).symm.trans hw
  · intro il spec slab _ _ p _ hp
    dsimp only at hp
    omega

/-- **A call**: the slabs hold the sequence that is retained then, and what was read was right. -/
theorem forward (hsound : c.Sound) (h : Kept c s) (tokens : List Token) (start : Nat) (want : Want) (exact : Bool) (pass : Pass Row DRow)
    (hrows : tokens.length ≤ ringRows) :
    Kept c (Traced.step c k s (.forward tokens start want exact pass)) ∧ StepSound c k s (.forward tokens start want exact pass) := by
  have hcalled := Cpu.forwardExt_called c k s.cpu tokens.length start want exact pass
  unfold StepSound Traced.step
  dsimp only
  generalize Cpu.forwardExt c k s.cpu tokens.length start want exact pass = r at hcalled ⊢
  have hroom {slabs' : Nat → Option (Slab Row)} {e : Option CucaError} (hok : Cpu.rejection c s.cpu.len tokens.length start = none)
      (hmake : Cpu.makeRoom start tokens.length c.layers 0 s.cpu.slabs = (slabs', e)) :
      start = s.cpu.len ∧ e = none ∧
        Resident c (rowAt s.history) s.cpu.len (fun _ => s.cpu.len + tokens.length) (fun _ => s.cpu.len) slabs' := by
    obtain ⟨-, rfl, hcontext⟩ := Cpu.of_rejection c hok
    have hbefore : Resident c (rowAt s.history) s.cpu.len (upTo 0 (s.cpu.len + tokens.length) s.cpu.len) (fun _ => s.cpu.len) s.cpu.slabs :=
      h.resident.mono (fun il _ => if_neg (Nat.not_lt_zero il)) fun _ _ => Nat.le_refl _
    obtain ⟨slabs'', hmade, hready⟩ := makeRoom_resident hsound.fits hcontext hrows List.drop_zero hbefore
    obtain ⟨rfl, rfl⟩ := Prod.mk.inj (hmake.symm.trans hmade)
    exact ⟨rfl, rfl, hready⟩
  have hpassed {slabs' : Nat → Option (Slab Row)} {r' : Cpu Row St DRow × Except CucaError (List (Read Row))}
      (hok : Cpu.rejection c s.cpu.len tokens.length start = none) (hembed : Cpu.unembedded c pass = none)
      (hmake : Cpu.makeRoom start tokens.length c.layers 0 s.cpu.slabs = (slabs', none))
      (hpass : Cpu.forwardLayers k (Cpu.callOf c tokens.length start want exact pass) c.layers 0
        { s.cpu with slabs := slabs', verify := none } = r') :
      PassSound c (rowAt (s.history ++ entries tokens pass)) (Cpu.callOf c tokens.length start want exact pass)
        (due start tokens.length c.layers 0) (fun _ => start + tokens.length) s.cpu r' := by
    have ht := (Cpu.of_rejection c hok).1
    obtain ⟨rfl, -, hready⟩ := hroom hok hmake
    have hdrafter : c.drafter = false := by
      by_contra hd
      unfold Cpu.unembedded at hembed
      rw [if_pos (by simpa using hd)] at hembed
      exact nomatch hembed
    have hrow : Resident c (rowAt (s.history ++ entries tokens pass)) s.cpu.len (fun _ => s.cpu.len + tokens.length)
        (upTo 0 (s.cpu.len + tokens.length) s.cpu.len) slabs' := by
      refine (hready.of_rows fun il p hp => rowAt_append (h.length.symm ▸ hp)).mono (fun _ _ => rfl) fun il _ => ?_
      exact Nat.le_of_eq (if_neg (Nat.not_lt_zero il))
    have hwritten : Written (rowAt (s.history ++ entries tokens pass)) (Cpu.callOf c tokens.length s.cpu.len want exact pass) := by
      intro il i hi
      have hentry : rowAt (s.history ++ entries tokens pass) il (s.history.length + i) = some (pass.kv il i) := rowAt_entries hi
      rwa [h.length] at hentry
    have hall := forwardLayers_sound (k := k) (s := { s.cpu with slabs := slabs', verify := none }) hsound.layers (hsound.readers hdrafter) ht
      hwritten List.drop_zero hrow
    rw [hpass] at hall
    exact hall
  cases hcalled with
  | rejected hrejected => exact ⟨h.failed rfl h.resident s.record, .inl hrejected⟩
  | noRoom hok hmake => exact nomatch (hroom hok hmake).2.1
  | unread hok hmake hembed =>
    obtain ⟨-, -, hready⟩ := hroom hok hmake
    refine ⟨?_, .inr (.inl hembed)⟩
    apply h.failed
    · rfl
    · exact hready.at_start (Nat.le_add_right _ _)
  | failed hok hmake hembed hpass =>
    obtain ⟨hlen, hresident, hfailure⟩ := hpassed hok hembed hmake hpass
    obtain ⟨rfl, -, -⟩ := hroom hok hmake
    refine ⟨?_, .inr (.inr hfailure)⟩
    unfold Cpu.discardState
    dsimp only
    by_cases hhybrid : c.hybrid = true
    · rw [if_pos hhybrid]
      apply discarded hsound hhybrid
      · rfl
      · exact hresident
    · rw [if_neg hhybrid]
      refine h.failed hlen ?_ s.record
      exact (hresident.at_start (Nat.le_add_right _ _)).of_rows fun il p hp => (rowAt_append (h.length.symm ▸ hp)).symm
  | passed hok hmake hembed hpass =>
    obtain ⟨hlen, hresident, hdue, hright⟩ := hpassed hok hembed hmake hpass
    obtain ⟨rfl, -, -⟩ := hroom hok hmake
    have hcontext := (Cpu.of_rejection c hok).2.2
    refine ⟨⟨?_, hcontext, hresident.at_end (Nat.le_add_right _ _)⟩, hdue, fun r hr => ?_⟩
    · rw [List.length_append, entries_length, h.length]
    · obtain ⟨spec, src, hspec, hsrc, hrow⟩ := hright r hr
      have hkey : r.key ∈ due s.cpu.len tokens.length c.layers 0 := hdue ▸ List.mem_map_of_mem hr
      obtain ⟨spec', hspec', hstart, hlt, hseen⟩ := mem_due List.drop_zero hkey
      obtain rfl : spec = spec' := Option.some.inj (hspec.symm.trans hspec')
      obtain ⟨-, owner, howner, hself, hwindow⟩ := hsound.layers.source r.layer spec src hspec hsrc
      obtain ⟨slab, hslab⟩ := hresident.exists_slab howner hself
      have hserves := hresident.serves src owner slab howner hslab
      have hbase : slab.base ≤ r.position := (hwindow ▸ hserves).le_of_seen hstart hseen
      have hposition : r.position < s.cpu.len + tokens.length := (Slab.mem_seen.mp hseen).2.trans_lt hlt
      have hheld := hresident.holds src owner slab howner hslab r.position hbase hposition
      exact ⟨spec, src, slab, hspec, hsrc, hslab, hbase, hposition.trans_le hserves.hi_le, Option.some.inj (hheld.symm.trans hrow), hrow⟩

theorem truncate (hsound : c.Sound) (h : Kept c s) (len : Nat) : Kept c (Traced.step c k s (.truncate len)) := by
  obtain ⟨hlen, hle, hslabs⟩ := truncateCache_slabs (c := c) (k := k) s.cpu len
  unfold Traced.step
  dsimp only
  refine ⟨?_, hlen.trans_le (hle.trans h.len_le), ?_⟩
  · rw [List.length_take, h.length, hlen]
    exact Nat.min_eq_left hle
  · rw [hlen]
    obtain ⟨hzero, hrebased⟩ | ⟨hsame, hfloor⟩ := hslabs
    · rw [hrebased, hzero]
      exact h.resident.rebase _
    · rw [hsame]
      refine (h.resident.truncate hle fun il spec slab w hspec hslab hw hbase hlt => ?_).of_rows fun il p hp => rowAt_take hp
      have hpos := hsound.layers.window_pos spec (List.mem_of_getElem? hspec) w hw
      have hreach := ringFloor_le List.drop_zero (Nat.zero_le il) hspec hslab hw hpos hbase hlt
      have hplain : c.hybrid = false := by
        by_contra hhybrid
        have hnone := hsound.layers.hybrid (eq_true_of_ne_false hhybrid) spec (List.mem_of_getElem? hspec)
        exact nomatch hnone.symm.trans hw
      have hserves := h.resident.serves il spec slab hspec hslab
      have hbehind : slab.base + (w - 1) ≤ s.cpu.len := by
        obtain hzero | ⟨w', hw', hbehind, -⟩ := hserves.behind
        · omega
        · obtain rfl : w = w' := Option.some.inj (hw.symm.trans hw')
          exact hbehind
      have hkept := hfloor hplain
      omega

theorem checkpoint (h : Kept c s) : Kept c (Traced.step c k s .checkpoint) := by
  unfold Traced.step Cpu.takeCheckpoint
  dsimp only
  split
  · exact ⟨h.length, h.len_le, h.resident⟩
  · exact ⟨h.length, h.len_le, h.resident⟩

theorem step (hsound : c.Sound) (h : Kept c s) (e : Event Row DRow) (hrows : e.rows ≤ ringRows) :
    Kept c (Traced.step c k s e) ∧ StepSound c k s e := by
  cases e with
  | forward tokens start want exact pass => exact h.forward hsound tokens start want exact pass hrows
  | truncate len => exact ⟨h.truncate hsound len, trivial⟩
  | checkpoint => exact ⟨h.checkpoint, trivial⟩

end Kept

theorem Config.sound {arch : Arch} {value : String → Option Value} {block : Nat → Bool → Except CucaError Unit}
    (hlayers : layerList arch value block = .ok c.layers) (hdrafter : c.drafter = arch.isDrafter) (hfits : c.Fits) : c.Sound :=
  ⟨layerList_sound hlayers, hfits, fun hplain => layerList_readers hlayers (hdrafter.symm.trans hplain)⟩

/-- **The cache is sound**: where the slots of no window wrap, the slabs hold the retained sequence throughout every run, and every call
reads what is due or fails for a reason of its own. -/
theorem kv_sound (c : Config) (k : Kernel St DRow) (blank : Row) {arch : Arch} {value : String → Option Value}
    {block : Nat → Bool → Except CucaError Unit} (hlayers : layerList arch value block = .ok c.layers)
    (hdrafter : c.drafter = arch.isDrafter) (hfits : c.Fits) (events : List (Event Row DRow)) (hrows : ∀ e ∈ events, e.rows ≤ ringRows) :
    Throughout (Traced.step c k) (Kept c) (Traced.init c k blank) events ∧
      Along (Traced.step c k) (StepSound c k) (Traced.init c k blank) events := by
  have hsound : c.Sound := c.sound hlayers hdrafter hfits
  have hinit := kept_init c k blank
  generalize Traced.init c k blank = s at hinit ⊢
  induction events generalizing s with
  | nil => exact ⟨hinit, trivial⟩
  | cons e events ih =>
    obtain ⟨hkept, hstep⟩ := hinit.step (k := k) hsound e (hrows e List.mem_cons_self)
    obtain ⟨hthroughout, halong⟩ := ih (fun e' he' => hrows e' (List.mem_cons_of_mem e he')) _ hkept
    exact ⟨⟨hinit, hthroughout⟩, hstep, halong⟩

def alternating (window : UInt64) : String → Option Value := fun key =>
  if key = "block_count" then some (.integer 2) else if key = "attention.sliding_window" then some (.integer window) else none

def alternatingModel (window contextLength : Nat) (h : contextLength < 2 ^ 64) : Config :=
  ⟨[⟨.attention, some window, some 0⟩, ⟨.attention, none, some 1⟩], contextLength, h, false⟩

def unitKernel : Kernel Unit Unit := ⟨fun _ => (), (), fun _ _ _ => ()⟩

def plainPass : Pass Nat Unit := ⟨fun il i => 100 * il + i, fun _ _ => (), none, none⟩

theorem kv_sound_small :
    Throughout (Traced.step (alternatingModel 4 16 (by decide)) unitKernel) (Kept (alternatingModel 4 16 (by decide)))
        (Traced.init (alternatingModel 4 16 (by decide)) unitKernel 0)
        [.forward [7, 8, 9] 0 .last false plainPass, .truncate 2, .forward [5] 2 .last false plainPass] ∧
      Along (Traced.step (alternatingModel 4 16 (by decide)) unitKernel) (StepSound (alternatingModel 4 16 (by decide)) unitKernel)
        (Traced.init (alternatingModel 4 16 (by decide)) unitKernel 0)
        [.forward [7, 8, 9] 0 .last false plainPass, .truncate 2, .forward [5] 2 .last false plainPass] := by
  have hlayers : layerList .gemma2 (alternating 4) (fun _ _ => .ok ()) = .ok (alternatingModel 4 16 (by decide)).layers := by
    rfl
  have hfits : (alternatingModel 4 16 (by decide)).Fits := by
    intro il spec hspec _ w hw
    match il, hspec with
    | 0, hspec =>
      obtain rfl := Option.some.inj hspec
      obtain rfl := Option.some.inj hw
      rfl
    | 1, hspec =>
      obtain rfl := Option.some.inj hspec
      exact nomatch hw
  exact kv_sound (alternatingModel 4 16 (by decide)) unitKernel 0 hlayers rfl hfits _ (by decide)

/-- With a window of `2 ^ 64 - 1279` the slots wrap to none, and no call finds room. -/
theorem kv_without_slots :
    layerList .gemma2 (alternating 18446744073709550337) (fun _ _ => .ok ()) =
        .ok (alternatingModel 18446744073709550337 16 (by decide)).layers ∧
      (Cpu.forwardExt (alternatingModel 18446744073709550337 16 (by decide)) unitKernel
        (Traced.init (alternatingModel 18446744073709550337 16 (by decide)) unitKernel 0).cpu 1 0 .last false plainPass).2 =
          .error (err "a bounded sliding-window cache takes at most 256 rows per call, got 1") ∧
      ¬∀ events : List (Event Nat Unit), (∀ e ∈ events, e.rows ≤ ringRows) →
        Along (Traced.step (alternatingModel 18446744073709550337 16 (by decide)) unitKernel)
          (StepSound (alternatingModel 18446744073709550337 16 (by decide)) unitKernel)
          (Traced.init (alternatingModel 18446744073709550337 16 (by decide)) unitKernel 0) events := by
  refine ⟨rfl, rfl, fun hall => ?_⟩
  obtain ⟨hstep, -⟩ := hall [.forward [7] 0 .last false plainPass] (by decide)
  obtain hrejected | hembed | ⟨failure, hfails, -⟩ := hstep
  · exact nomatch hrejected
  · exact nomatch hembed
  · exact nomatch hfails

end Cuca.Local.Model
