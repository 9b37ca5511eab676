import Cuca.Local.Model.Quant

/-!
# The weights to hold as f32

A kernel that is tuned for a weight may be replayed on a weight of the other scheme that has about its shape, so the loader holds some weights as
f32. A weight is cut into chunks of rows, and it is a chunk that a kernel is tuned for.

* `planDense` : the weights to hold as f32, by name;
* `PackPlan.new`, `PackPlan.chunks` : the chunks of a weight;
* `mem_planDense`, `not_share` : the plan, and what it keeps apart;
* `length_chunks` : the rows of chunks;
* `hazard_iff`, `separates_iff` : where chunks are about the same, and exactly when the plan leaves no such chunks.
-/

namespace Cuca.Local.Gpu
open Quant

/-- `MAX_PART_BYTES` -/
def maxPartBytes : Nat := 1073741824

/-- The layout on the device; f32 is none. -/
def storedLayout : GgmlDType → Option GgmlDType
  | .q4_0 => some .q4_0
  | .q8_0 => some .q8_0
  | .f32 | .f16 | .bf16 => none
  | _ => some .q8_0

/-- Bytes of a row on the device. -/
def storedRowBytes (stored : Option GgmlDType) (cols : Nat) : Nat :=
  max 1 <| match stored with
    | some .q4_0 => cols / 2 + cols / 16
    | some _ => cols + cols / 16
    | none => cols * 4

inductive SchemeClass where
  | q4
  | q8
  deriving DecidableEq, Repr

def schemeClass (dtype : GgmlDType) : Option SchemeClass :=
  (storedLayout dtype).map fun stored => if stored = .q4_0 then .q4 else .q8

/-- `clamp(lo, hi)` -/
def clamp (n lo hi : Nat) : Nat := max lo (min n hi)

theorem clamp_bounds {lo hi : Nat} (h : lo ≤ hi) (n : Nat) : lo ≤ clamp n lo hi ∧ clamp n lo hi ≤ hi := by
  unfold clamp
  omega

def close (x y : Nat) : Bool := max x y * 2 < min x y * 5

structure QuantShape where
  rows : Nat
  cols : Nat
  scheme : SchemeClass
  copies : Nat
  deriving DecidableEq, Repr

namespace QuantShape

def stored (w : QuantShape) : GgmlDType :=
  match w.scheme with
  | .q4 => .q4_0
  | .q8 => .q8_0

def partRows (w : QuantShape) : Nat := clamp (maxPartBytes / storedRowBytes (some w.stored) w.cols) 1 (max w.rows 1)

def bytes (w : QuantShape) : Nat := w.rows * storedRowBytes (some w.stored) w.cols

def totalBytes (w : QuantShape) : Nat := w.bytes * w.copies

def mayShareKey (w other : QuantShape) : Bool := close w.partRows other.partRows && close w.cols other.cols

end QuantShape

/-! ## The plan -/

section
variable (own : List (String × QuantShape)) (peers : List QuantShape)

def total (scheme : SchemeClass) : Nat := (((own.map Prod.snd ++ peers).filter fun w => w.scheme = scheme).map QuantShape.totalBytes).sum

def minority : SchemeClass := if total own peers .q4 < total own peers .q8 then .q4 else .q8

def collides (weight other : QuantShape) (fixed : Bool) : Bool :=
  other.scheme ≠ weight.scheme && weight.mayShareKey other && (fixed || weight.scheme = minority own peers)

def planDense : Finset String :=
  own.foldl (fun dense w =>
    if peers.any (collides own peers w.2 · true) || own.any (collides own peers w.2 ·.2 false) then insert w.1 dense else dense) ∅

end

/-! ## Chunks of rows -/

def deviceLayout (dtype : GgmlDType) (dense : Bool) : Option GgmlDType := if dense then none else storedLayout dtype

structure PackPlan where
  tensorName : String
  dtype : GgmlDType
  rows : Nat
  cols : Nat
  stored : Option GgmlDType
  rowBytes : Nat
  /-- Rows of every chunk but the last. -/
  chunk : Nat

namespace PackPlan

def new (tensorName : String) (dtype : GgmlDType) (rawLen rows cols limit : Nat) (dense : Bool) : Except String PackPlan :=
  let block := dtype.blockSize
  let rowBytes := cols / block * dtype.typeSize
  let stored := deviceLayout dtype dense
  let chunk := clamp (limit / storedRowBytes stored cols) 1 (max rows 1)
  if cols % block ≠ 0 then
    .error s!"tensor `{tensorName}`: row length {cols} is not a multiple of the {dtype.name} block size {block}"
  else if rawLen ≠ rows * rowBytes then
    .error s!"tensor `{tensorName}`: {rawLen} bytes do not hold a [{rows}, {cols}] {dtype.name} tensor"
  else if stored = some .q8_0 ∧ cols % 32 ≠ 0 then
    .error s!"tensor `{tensorName}`: row length {cols} is not a multiple of the 32-element Q8_0 block"
  else
    -- widths are multiples of the plane width
    .ok ⟨tensorName, dtype, rows, cols, stored, rowBytes, if chunk < rows ∧ 64 ≤ chunk then chunk - chunk % 64 else chunk⟩

def chunks (plan : PackPlan) : List (Nat × Nat) :=
  (List.range' 0 ((plan.rows + plan.chunk - 1) / plan.chunk) plan.chunk).map fun start => (start, min (start + plan.chunk) plan.rows)

/-- **The rows of chunks**: all have the width of the plan, except for the last one where something is left. -/
theorem length_chunks {plan : PackPlan} (hpos : 0 < plan.chunk) (hle : plan.chunk ≤ plan.rows) (n : Nat) :
    (∃ r ∈ plan.chunks, r.2 - r.1 = n) ↔ n = plan.chunk ∨ n = plan.rows % plan.chunk ∧ n ≠ 0 := by
  have hcount (i : Nat) : i < (plan.rows + plan.chunk - 1) / plan.chunk ↔ i * plan.chunk < plan.rows := by
    rw [Nat.lt_iff_add_one_le, Nat.le_div_iff_mul_le hpos, Nat.succ_mul]
    omega
  have hmem : (∃ r ∈ plan.chunks, r.2 - r.1 = n) ↔ ∃ i, i * plan.chunk < plan.rows ∧ min plan.chunk (plan.rows - i * plan.chunk) = n := by
    unfold chunks
    simp only [List.mem_map, List.mem_range', hcount, Nat.zero_add]
    constructor
    · rintro ⟨_, ⟨_, ⟨i, hi, rfl⟩, rfl⟩, hn⟩
      rw [Nat.mul_comm] at hn
      exact ⟨i, hi, by omega⟩
    · rintro ⟨i, hi, hn⟩
      refine ⟨_, ⟨_, ⟨i, hi, rfl⟩, rfl⟩, ?_⟩
      rw [Nat.mul_comm]
      omega
  have hsplit := Nat.div_add_mod plan.rows plan.chunk
  rw [hmem]
  constructor
  · rintro ⟨i, hi, hn⟩
    by_cases hwhole : (i + 1) * plan.chunk ≤ plan.rows
    · rw [Nat.succ_mul] at hwhole
      exact .inl (by omega)
    · -- the last chunk
      have hdiv : plan.rows / plan.chunk = i := Nat.div_eq_of_lt_le (Nat.le_of_lt hi) (Nat.lt_of_not_le hwhole)
      rw [hdiv, Nat.mul_comm] at hsplit
      rw [Nat.succ_mul] at hwhole
      exact .inr (by omega)
  · rintro (rfl | ⟨rfl, hne⟩)
    · exact ⟨0, by omega, by omega⟩
    · have hlt := Nat.mod_lt plan.rows hpos
      refine ⟨plan.rows / plan.chunk, ?_, ?_⟩ <;> rw [Nat.mul_comm] <;> omega

end PackPlan

/-! ## What the plan keeps apart -/

section
variable (own : List (String × QuantShape)) (peers : List QuantShape)

/-- No weight that is fixed may share a key with it, nor may one of the other scheme where its own scheme has fewer bytes. -/
def Quiet (w : QuantShape) : Prop :=
  (∀ p ∈ peers, p.scheme ≠ w.scheme → w.mayShareKey p = false) ∧
    ((w.scheme = .q4 ↔ total own peers .q4 < total own peers .q8) →
      ∀ o ∈ own, o.2.scheme ≠ w.scheme → w.mayShareKey o.2 = false)

variable {own peers}

theorem minority_iff (scheme : SchemeClass) : scheme = minority own peers ↔ (scheme = .q4 ↔ total own peers .q4 < total own peers .q8) := by
  unfold minority
  cases scheme <;> split <;> simp_all

theorem quiet_iff (w : QuantShape) :
    Quiet own peers w ↔ ¬(peers.any (collides own peers w · true) || own.any (collides own peers w ·.2 false)) = true := by
  unfold Quiet
  rw [← minority_iff]
  simp only [Bool.or_eq_true, List.any_eq_true, collides, Bool.and_eq_true, decide_eq_true_eq, Bool.true_or, Bool.false_or, and_true, not_or,
    not_exists, not_and, Bool.not_eq_true]
  refine and_congr Iff.rfl ⟨fun h o ho hboth hyield => ?_, fun h hyield o ho hne => ?_⟩
  · rw [h hyield o ho hboth.1] at hboth
    exact Bool.false_ne_true hboth.2
  · exact Bool.eq_false_iff.mpr fun hshare => h o ho ⟨hne, hshare⟩ hyield

theorem mem_planDense (tensor : String) : tensor ∈ planDense own peers ↔ ∃ w, (tensor, w) ∈ own ∧ ¬Quiet own peers w := by
  have hfold (l : List (String × QuantShape)) (dense : Finset String) :
      tensor ∈ l.foldl (fun dense w =>
        if peers.any (collides own peers w.2 · true) || own.any (collides own peers w.2 ·.2 false) then insert w.1 dense else dense) dense ↔
      tensor ∈ dense ∨ ∃ w, (tensor, w) ∈ l ∧ ¬Quiet own peers w := by
    induction l generalizing dense with
    | nil => simp
    | cons m l ih =>
      rw [List.foldl_cons, ih]
      have hquiet : Quiet own peers m.2 ↔ _ := quiet_iff m.2
      split
      case isTrue h =>
        have hm : ¬Quiet own peers m.2 := fun hq => hquiet.mp hq h
        rw [Finset.mem_insert]
        constructor
        · rintro ((rfl | hdense) | ⟨w, hw, hq⟩)
          · exact .inr ⟨m.2, List.mem_cons_self, hm⟩
          · exact .inl hdense
          · exact .inr ⟨w, List.mem_cons_of_mem _ hw, hq⟩
        · rintro (hdense | ⟨w, hw, hq⟩)
          · exact .inl (.inr hdense)
          · rcases List.mem_cons.mp hw with rfl | hw
            · exact .inl (.inl rfl)
            · exact .inr ⟨w, hw, hq⟩
      case isFalse h =>
        have hm : Quiet own peers m.2 := hquiet.mpr h
        refine or_congr Iff.rfl ⟨fun hex => ?_, fun hex => ?_⟩
        · obtain ⟨w, hw, hq⟩ := hex
          exact ⟨w, List.mem_cons_of_mem _ hw, hq⟩
        · obtain ⟨w, hw, hq⟩ := hex
          rcases List.mem_cons.mp hw with rfl | hw
          · exact absurd hm hq
          · exact ⟨w, hw, hq⟩
  unfold planDense
  rw [hfold]
  simp

def Stays (own : List (String × QuantShape)) (peers : List QuantShape) (w : QuantShape) : Prop :=
  ∃ tensor, (tensor, w) ∈ own ∧ tensor ∉ planDense own peers

theorem stays_iff (w : QuantShape) : Stays own peers w ↔ ∃ tensor, (tensor, w) ∈ own ∧ ∀ w', (tensor, w') ∈ own → Quiet own peers w' := by
  unfold Stays
  simp only [mem_planDense, not_exists, not_and, not_not]

theorem close_comm (x y : Nat) : close x y = close y x := by
  unfold close
  rw [max_comm, min_comm]

theorem mayShareKey_comm (a b : QuantShape) : a.mayShareKey b = b.mayShareKey a := by
  unfold QuantShape.mayShareKey
  rw [close_comm a.partRows, close_comm a.cols]

variable (own peers) in
theorem yields {a b : QuantShape} (hne : a.scheme ≠ b.scheme) : a.scheme = minority own peers ∨ b.scheme = minority own peers := by
  rcases ha : a.scheme <;> rcases hb : b.scheme <;> rcases hm : minority own peers <;> simp_all

/-- **What the plan keeps apart**: weights of different schemes that stay quantized share no key. -/
theorem not_share {a b : QuantShape} (ha : Stays own peers a) (hb : Stays own peers b ∨ b ∈ peers) (hne : a.scheme ≠ b.scheme) :
    a.mayShareKey b = false := by
  obtain ⟨tensor, hmem, hquiet⟩ := (stays_iff a).mp ha
  have hqa := hquiet a hmem
  rcases hb with hb | hb
  · obtain ⟨tensor', hmem', hquiet'⟩ := (stays_iff b).mp hb
    rcases yields own peers hne with hyield | hyield
    · exact hqa.2 ((minority_iff _).mp hyield) (tensor', b) hmem' hne.symm
    · rw [mayShareKey_comm]
      exact (hquiet' b hmem').2 ((minority_iff _).mp hyield) (tensor, a) hmem hne
  · exact hqa.1 b hb hne.symm

end

/-! ## Chunks about the same -/

namespace QuantShape

def width (w : QuantShape) : Nat := if w.partRows < w.rows ∧ 64 ≤ w.partRows then w.partRows - w.partRows % 64 else w.partRows

def rest (w : QuantShape) : Nat := w.rows % w.width

/-- A weight as the loader has them. -/
structure Valid (w : QuantShape) : Prop where
  rows : 1 ≤ w.rows
  cols : 0 < w.cols
  whole : w.cols % 32 = 0

theorem partRows_bounds {w : QuantShape} (h : w.Valid) : 1 ≤ w.partRows ∧ w.partRows ≤ w.rows := by
  have hmax : max w.rows 1 = w.rows := max_eq_left h.rows
  unfold partRows
  rw [hmax]
  exact clamp_bounds h.rows _

theorem width_bounds {w : QuantShape} (h : w.Valid) : 1 ≤ w.width ∧ w.width ≤ w.rows := by
  have hpart := partRows_bounds h
  unfold width
  split <;> omega

theorem unsplit {w : QuantShape} (h : w.Valid) (hone : ¬w.partRows < w.rows) : w.width = w.partRows ∧ w.rest = 0 := by
  have hpart := partRows_bounds h
  have hwidth : w.width = w.partRows := if_neg fun hsplit => hone hsplit.1
  refine ⟨hwidth, ?_⟩
  rw [rest, hwidth, show w.partRows = w.rows by omega, Nat.mod_self]

end QuantShape

def Loads (w : QuantShape) (plan : PackPlan) : Prop :=
  ∃ tensorName dtype rawLen, schemeClass dtype = some w.scheme ∧ PackPlan.new tensorName dtype rawLen w.rows w.cols maxPartBytes false = .ok plan

theorem storedLayout_eq {dtype : GgmlDType} {w : QuantShape} (h : schemeClass dtype = some w.scheme) : storedLayout dtype = some w.stored := by
  obtain ⟨rows, cols, scheme, copies⟩ := w
  cases dtype <;> cases scheme <;> simp_all [schemeClass, storedLayout, QuantShape.stored]

theorem loads_spec {w : QuantShape} {plan : PackPlan} (h : Loads w plan) : plan.rows = w.rows ∧ plan.chunk = w.width := by
  obtain ⟨tensorName, dtype, rawLen, hscheme, hplan⟩ := h
  have hlayout : deviceLayout dtype false = some w.stored := storedLayout_eq hscheme
  unfold PackPlan.new at hplan
  rw [hlayout] at hplan
  dsimp only at hplan
  split at hplan
  · exact absurd hplan (by simp)
  split at hplan
  · exact absurd hplan (by simp)
  split at hplan
  · exact absurd hplan (by simp)
  rw [← Except.ok.inj hplan]
  exact ⟨rfl, rfl⟩

theorem loads_valid {w : QuantShape} (h : w.Valid) : ∃ plan, Loads w plan := by
  have hscheme : schemeClass w.stored = some w.scheme := by
    unfold QuantShape.stored
    cases w.scheme <;> rfl
  have hblock : w.stored.blockSize = 32 := by
    unfold QuantShape.stored
    cases w.scheme <;> rfl
  have hplan : ∃ plan, PackPlan.new "" w.stored (w.rows * (w.cols / w.stored.blockSize * w.stored.typeSize)) w.rows w.cols maxPartBytes false =
      .ok plan := by
    unfold PackPlan.new
    dsimp only
    rw [hblock, if_neg (not_not.mpr h.whole), if_neg (not_not.mpr rfl), if_neg fun hother => hother.2 h.whole]
    exact ⟨_, rfl⟩
  obtain ⟨plan, hplan⟩ := hplan
  exact ⟨plan, "", w.stored, _, hscheme, hplan⟩

def Hazard (a b : QuantShape) : Prop :=
  ∃ p q, Loads a p ∧ Loads b q ∧ ∃ r ∈ p.chunks, ∃ s ∈ q.chunks, close (r.2 - r.1) (s.2 - s.1) = true ∧ close a.cols b.cols = true

theorem close_pos {x y : Nat} (h : close x y = true) : x ≠ 0 ∧ y ≠ 0 := by
  have hlt : max x y * 2 < min x y * 5 := of_decide_eq_true h
  omega

/-- **A hazard**: the columns are near, and so are two of the widths and of what is left. -/
theorem hazard_iff {a b : QuantShape} (ha : a.Valid) (hb : b.Valid) :
    Hazard a b ↔ close a.cols b.cols = true ∧ ∃ m ∈ [a.width, a.rest], ∃ n ∈ [b.width, b.rest], close m n = true := by
  have hsizes {w : QuantShape} (hw : w.Valid) {plan : PackPlan} (hplan : Loads w plan) (n : Nat) :
      (∃ r ∈ plan.chunks, r.2 - r.1 = n) ↔ n ∈ [w.width, w.rest] ∧ n ≠ 0 := by
    obtain ⟨hrows, hchunk⟩ := loads_spec hplan
    have hwidth := w.width_bounds hw
    rw [PackPlan.length_chunks (by omega) (by omega), hrows, hchunk, List.mem_cons, List.mem_singleton, QuantShape.rest]
    constructor
    · rintro (rfl | ⟨rfl, hne⟩)
      · exact ⟨.inl rfl, by omega⟩
      · exact ⟨.inr rfl, hne⟩
    · rintro ⟨rfl | rfl, hne⟩
      · exact .inl rfl
      · exact .inr ⟨rfl, hne⟩
  constructor
  · rintro ⟨p, q, hp, hq, r, hr, s, hs, hrows, hcols⟩
    exact ⟨hcols, _, ((hsizes ha hp _).mp ⟨r, hr, rfl⟩).1, _, ((hsizes hb hq _).mp ⟨s, hs, rfl⟩).1, hrows⟩
  · rintro ⟨hcols, m, hm, n, hn, hrows⟩
    obtain ⟨p, hp⟩ := loads_valid ha
    obtain ⟨q, hq⟩ := loads_valid hb
    obtain ⟨r, hr, rfl⟩ := (hsizes ha hp m).mpr ⟨hm, (close_pos hrows).1⟩
    obtain ⟨s, hs, rfl⟩ := (hsizes hb hq n).mpr ⟨hn, (close_pos hrows).2⟩
    exact ⟨p, q, hp, hq, r, hr, s, hs, hrows, hcols⟩

theorem unsplit_apart {a b : QuantShape} (ha : a.Valid) (hb : b.Valid) (hshare : a.mayShareKey b = false) (hsa : ¬a.partRows < a.rows)
    (hsb : ¬b.partRows < b.rows) : ¬Hazard a b := by
  obtain ⟨hwa, hra⟩ := QuantShape.unsplit ha hsa
  obtain ⟨hwb, hrb⟩ := QuantShape.unsplit hb hsb
  rw [hazard_iff ha hb, hwa, hra, hwb, hrb]
  rintro ⟨hcols, m, hm, n, hn, hrows⟩
  obtain ⟨hm0, hn0⟩ := close_pos hrows
  simp only [List.mem_cons, List.not_mem_nil, or_false, hm0, hn0] at hm hn
  rw [QuantShape.mayShareKey, hcols, Bool.and_true, ← hm, ← hn, hrows] at hshare
  exact Bool.false_ne_true hshare.symm

section
variable (own : List (String × QuantShape)) (peers : List QuantShape)

def Separates : Prop := ∀ a b, Stays own peers a → Stays own peers b ∨ b ∈ peers → a.scheme ≠ b.scheme → ¬Hazard a b

def Left (w : QuantShape) : Prop := ∃ tensor, (tensor, w) ∈ own ∧ ∀ w', (tensor, w') ∈ own → Quiet own peers w'

/-- Where a weight is split, its width and what is left of it are far from those of the weights of the other scheme, if they are as wide. -/
def SplitsApart : Prop :=
  ∀ a b, Left own peers a → Left own peers b ∨ b ∈ peers → a.scheme ≠ b.scheme → a.partRows < a.rows ∨ b.partRows < b.rows →
    close a.cols b.cols = true → ∀ m ∈ [a.width, a.rest], ∀ n ∈ [b.width, b.rest], close m n = false

end

/-- **The plan leaves no hazard** exactly if no weight that is split is cut into chunks near to those of another one. -/
theorem separates_iff {own : List (String × QuantShape)} {peers : List QuantShape} (hown : ∀ w ∈ own, w.2.Valid) (hpeers : ∀ w ∈ peers, w.Valid) :
    Separates own peers ↔ SplitsApart own peers := by
  have hstays (w : QuantShape) : Stays own peers w ↔ Left own peers w := stays_iff w
  have hvalid {w : QuantShape} (hw : Left own peers w ∨ w ∈ peers) : w.Valid := by
    rcases hw with ⟨tensor, hmem, _⟩ | hmem
    · exact hown _ hmem
    · exact hpeers w hmem
  unfold Separates SplitsApart
  constructor
  · intro h a b ha hb hne _ hcols m hm n hn
    have hapart := h a b ((hstays a).mpr ha) (hb.imp_left (hstays b).mpr) hne
    rw [hazard_iff (hvalid (.inl ha)) (hvalid hb)] at hapart
    exact Bool.eq_false_iff.mpr fun hrows => hapart ⟨hcols, m, hm, n, hn, hrows⟩
  · intro h a b ha hb hne hhazard
    have hla := (hstays a).mp ha
    have hlb := hb.imp_left (hstays b).mp
    by_cases hsplit : a.partRows < a.rows ∨ b.partRows < b.rows
    · obtain ⟨hcols, m, hm, n, hn, hrows⟩ := (hazard_iff (hvalid (.inl hla)) (hvalid hlb)).mp hhazard
      rw [h a b hla hlb hne hsplit hcols m hm n hn] at hrows
      exact Bool.false_ne_true hrows
    · obtain ⟨hsa, hsb⟩ := not_or.mp hsplit
      exact unsplit_apart (hvalid (.inl hla)) (hvalid hlb) (not_share ha hb hne) hsa hsb hhazard

def head : QuantShape := ⟨248320, 4096, .q8, 1⟩

def projection : QuantShape := ⟨1024, 4096, .q4, 1⟩

theorem separates_narrow :
    Separates [("q4.up", ⟨16384, 3072, .q4, 1⟩), ("q8.far", ⟨1024, 3072, .q8, 1⟩)] [] ↔
      SplitsApart [("q4.up", ⟨16384, 3072, .q4, 1⟩), ("q8.far", ⟨1024, 3072, .q8, 1⟩)] [] := by
  refine separates_iff (fun w hw => ?_) (List.forall_mem_nil _)
  simp only [List.mem_cons, List.not_mem_nil, or_false] at hw
  rcases hw with rfl | rfl <;> exact ⟨by decide, by decide, by decide⟩

/-- The last chunk of the head has about the rows of the projection, and the plan holds neither as f32. -/
theorem head_hazard : ¬Separates [("output.weight", head), ("blk.0.attn_k.weight", projection)] [] := by
  intro h
  have hnone : planDense [("output.weight", head), ("blk.0.attn_k.weight", projection)] [] = ∅ := by decide
  have hhead : head.Valid := ⟨by decide, by decide, by decide⟩
  have hprojection : projection.Valid := ⟨by decide, by decide, by decide⟩
  refine h head projection ⟨"output.weight", by simp, by simp [hnone]⟩ (.inl ⟨"blk.0.attn_k.weight", by simp, by simp [hnone]⟩) (by decide) ?_
  exact (hazard_iff hhead hprojection).mpr ⟨by decide, head.rest, by simp, projection.width, by simp, by decide⟩

end Cuca.Local.Gpu
