import Cuca.Local.Model.ExpertBlocks

/-!
# The kernel reads what the host packed

* `Dots` : what is read of the words of a matrix, wherever they are; `packMatrix_spec` : so are those that are packed;
* `packMatrix_ok` : bytes that match the shape are packed;
* `dotRow_packExpert` : the kernel's dot product is that of the decoded row;
* `floats_exact` : floats as they are.
-/

namespace Cuca.Local.MoeKernel
open BitFields Chunks Quant Scatter

variable {ops : Floats}

/-! ## A matrix -/

/-- The halves of a block are numbers. -/
def finiteScale (dtype : GgmlDType) (b : Bytes) : Prop :=
  match dtype with
  | .q4_0 | .q8_0 => FiniteHalf (le16 b 0)
  | .q4_1 => FiniteHalf (le16 b 0) ∧ FiniteHalf (le16 b 2)
  | _ => True

def FiniteScales (dtype : GgmlDType) (source : Bytes) : Prop := ∀ b ∈ chunks dtype.typeSize source, finiteScale dtype b

/-- Wherever the words are, what the kernel reads of a block is inside them, and is the dot product with the elements of the block. -/
def Dots (ops : Floats) (m : MatrixLayout) (dtype : GgmlDType) (source : Bytes) (words : List Word) : Prop :=
  ∀ pool base, Placed pool base words → ∀ block < m.blocks, ∀ (x : List ℚ) xo, xo + 32 ≤ x.length →
    blockInside pool base (base + m.blocks * m.format.valueWords) (base + m.blocks * m.format.valueWords + m.halfWords) m.format.code block x xo =
        true ∧
      dotBlock ops pool base (base + m.blocks * m.format.valueWords) (base + m.blocks * m.format.valueWords + m.halfWords) m.format.code block x xo =
        ∑ e ∈ Finset.range 32, (decode ops dtype source).getD (block * 32 + e) 0 * x.getD (xo + e) 0

section
variable {m : MatrixLayout} {dtype : GgmlDType} {source : Bytes} {block : Nat}

theorem decode_getD (hheld : Held dtype) (hblock : dtype.blockSize = 32) (hb : block < source.length / dtype.typeSize) {e : Nat} (he : e < 32) :
    (decode ops dtype source).getD (block * 32 + e) 0 =
      (decodeUnit ops dtype ((chunks dtype.typeSize source).getD block [])).getD e 0 := by
  have hlength : ∀ b ∈ chunks dtype.typeSize source, (decodeUnit ops dtype b).length = dtype.blockSize := fun b hb =>
    length_decodeUnit hheld (length_of_mem hb)
  have helement := @getElem?_flatMap _ _ _ _ _ hlength block e (hblock.symm ▸ he)
  rw [hblock] at helement
  unfold decode
  rw [List.getD_eq_getElem?_getD, List.getD_eq_getElem?_getD, List.getD_eq_getElem?_getD, helement, getElem?_chunks hb]
  rfl

theorem blocks_le_halfWords : m.blocks ≤ m.halfWords * 2 := by
  unfold MatrixLayout.halfWords
  omega

theorem half_inside (hb : block < m.blocks) : block / 2 < m.halfWords := by
  unfold MatrixLayout.halfWords
  omega

theorem value_inside {vw : Nat} (hb : block < m.blocks) : block * vw + vw ≤ m.blocks * vw := by
  rw [← Nat.succ_mul]
  exact Nat.mul_le_mul_right vw hb

theorem block_mem {n : Nat} (hb : block < (chunks n source).length) : (chunks n source).getD block [] ∈ chunks n source := by
  rw [List.getD_eq_getElem?_getD, List.getElem?_eq_getElem hb]
  exact List.getElem_mem hb

theorem packMatrix_q4_0 (hops : ops.Exact) (hm : m.format = .q4_0) (hsource : source.length = m.blocks * 18) (out : List Word) :
    ∃ words, packMatrix ops m .q4_0 source out = .ok (some (out ++ words)) ∧ words.length = m.words ∧
      (FiniteScales .q4_0 source → Dots ops m .q4_0 source words) := by
  have hcount : (chunks 18 source).length = m.blocks := by rw [length_chunks, hsource, Nat.mul_div_cancel _ (by decide)]
  obtain ⟨scales, hscales, hscalesLength, hscale⟩ := halves_spec 0 (show (chunks 18 source).length ≤ m.halfWords * 2 from hcount ▸ blocks_le_halfWords)
  obtain ⟨values, hvalues, hvaluesLength, hvalue⟩ := putValues_spec (fun block => nibbleWord (block.drop 2))
    (show m.blocks * 4 = (chunks 18 source).length * 4 by rw [hcount])
  refine ⟨values ++ scales, ?_, ?_, fun hfinite pool base hplaced block hb x xo hx => ?_⟩
  · unfold packMatrix
    rw [hm]
    dsimp only
    rw [if_neg (show ¬((GgmlDType.q4_0 ≠ .q4_0 ∧ GgmlDType.q4_0 ≠ .q4_1) ∨ source.length ≠ m.blocks * GgmlDType.q4_0.typeSize) by
      simp [hsource, GgmlDType.typeSize])]
    simp [GgmlDType.typeSize, ExpertFormat.hasMin, ExpertFormat.valueWords, hscales, hvalues]
  · unfold MatrixLayout.words
    rw [hm, List.length_append, hvaluesLength, hscalesLength]
    rfl
  · have hb' : block < (chunks 18 source).length := hcount.symm ▸ hb
    have hmem := block_mem hb'
    have hvaluesPlaced := hplaced.left
    have hscalesPlaced := hplaced.right
    rw [hvaluesLength] at hscalesPlaced
    have hinside : block * 4 + 4 ≤ m.blocks * 4 := value_inside hb
    have hhalf := half_inside hb
    have hend := hscalesPlaced.length_le
    rw [hm]
    dsimp only [ExpertFormat.valueWords, ExpertFormat.code]
    refine ⟨?_, ?_⟩
    · unfold blockInside
      simp
      omega
    · rw [dotBlock_q4_0 (length_of_mem hmem) (fun w hw => ?_) (halfAt_eq hops hscalesPlaced (by omega) (hscale block hb') (hfinite _ hmem))]
      · refine Finset.sum_congr rfl fun e he => ?_
        rw [decode_getD (show Held .q4_0 from trivial) rfl (by rw [← length_chunks]; exact hb') (Finset.mem_range.mp he)]
        rfl
      · rw [Nat.add_assoc, hvaluesPlaced.getD_eq (by omega), hvalue block hb' w hw]

theorem packMatrix_q4_1 (hops : ops.Exact) (hm : m.format = .q4_1) (hsource : source.length = m.blocks * 20) (out : List Word) :
    ∃ words, packMatrix ops m .q4_1 source out = .ok (some (out ++ words)) ∧ words.length = m.words ∧
      (FiniteScales .q4_1 source → Dots ops m .q4_1 source words) := by
  have hcount : (chunks 20 source).length = m.blocks := by rw [length_chunks, hsource, Nat.mul_div_cancel _ (by decide)]
  have hhalves : (chunks 20 source).length ≤ m.halfWords * 2 := hcount ▸ blocks_le_halfWords
  obtain ⟨scales, hscales, hscalesLength, hscale⟩ := halves_spec 0 hhalves
  obtain ⟨mins, hmins, hminsLength, hmin⟩ := halves_spec 2 hhalves
  obtain ⟨values, hvalues, hvaluesLength, hvalue⟩ := putValues_spec (fun block => nibbleWord (block.drop 4))
    (show m.blocks * 4 = (chunks 20 source).length * 4 by rw [hcount])
  refine ⟨values ++ (scales ++ mins), ?_, ?_, fun hfinite pool base hplaced block hb x xo hx => ?_⟩
  · unfold packMatrix
    rw [hm]
    dsimp only
    rw [if_neg (show ¬((GgmlDType.q4_1 ≠ .q4_0 ∧ GgmlDType.q4_1 ≠ .q4_1) ∨ source.length ≠ m.blocks * GgmlDType.q4_1.typeSize) by
      simp [hsource, GgmlDType.typeSize])]
    simp [GgmlDType.typeSize, ExpertFormat.hasMin, ExpertFormat.valueWords, hscales, hmins, hvalues]
  · unfold MatrixLayout.words
    rw [hm, List.length_append, List.length_append, hvaluesLength, hscalesLength, hminsLength, ← Nat.add_assoc]
    rfl
  · have hb' : block < (chunks 20 source).length := hcount.symm ▸ hb
    have hmem := block_mem hb'
    have hvaluesPlaced := hplaced.left
    have hscalesPlaced := hplaced.right.left
    have hminsPlaced := hplaced.right.right
    rw [hvaluesLength] at hscalesPlaced hminsPlaced
    rw [hscalesLength] at hminsPlaced
    have hinside : block * 4 + 4 ≤ m.blocks * 4 := value_inside hb
    have hhalf := half_inside hb
    have hend := hminsPlaced.length_le
    rw [hm]
    dsimp only [ExpertFormat.valueWords, ExpertFormat.code]
    refine ⟨?_, ?_⟩
    · unfold blockInside
      simp
      omega
    · rw [dotBlock_q4_1 (length_of_mem hmem) (fun w hw => ?_)
        (halfAt_eq hops hscalesPlaced (by omega) (hscale block hb') (hfinite _ hmem).1)
        (halfAt_eq hops hminsPlaced (by omega) (hmin block hb') (hfinite _ hmem).2)]
      · refine Finset.sum_congr rfl fun e he => ?_
        rw [decode_getD (show Held .q4_1 from trivial) rfl (by rw [← length_chunks]; exact hb') (Finset.mem_range.mp he)]
        rfl
      · rw [Nat.add_assoc, hvaluesPlaced.getD_eq (by omega), hvalue block hb' w hw]

theorem packMatrix_q8_0 (hops : ops.Exact) (hm : m.format = .q8_0) {raw : Bytes} (hq8 : q8Bytes ops m dtype raw = .ok (some source))
    (hsource : source.length = m.blocks * 34) (out : List Word) :
    ∃ words, packMatrix ops m dtype raw out = .ok (some (out ++ words)) ∧ words.length = m.words ∧
      (FiniteScales .q8_0 source → Dots ops m .q8_0 source words) := by
  have hcount : (chunks 34 source).length = m.blocks := by rw [length_chunks, hsource, Nat.mul_div_cancel _ (by decide)]
  obtain ⟨scales, hscales, hscalesLength, hscale⟩ := halves_spec 0 (show (chunks 34 source).length ≤ m.halfWords * 2 from hcount ▸ blocks_le_halfWords)
  obtain ⟨values, hvalues, hvaluesLength, hvalue⟩ := putValues_spec (fun block w => le32 block (2 + 4 * w))
    (show m.blocks * 8 = (chunks 34 source).length * 8 by rw [hcount])
  refine ⟨values ++ scales, ?_, ?_, fun hfinite pool base hplaced block hb x xo hx => ?_⟩
  · unfold packMatrix
    rw [hm]
    dsimp only
    rw [hq8]
    dsimp only
    rw [if_neg (not_not.mpr hsource)]
    simp [ExpertFormat.valueWords, hscales, hvalues]
  · unfold MatrixLayout.words
    rw [hm, List.length_append, hvaluesLength, hscalesLength]
    rfl
  · have hb' : block < (chunks 34 source).length := hcount.symm ▸ hb
    have hmem := block_mem hb'
    have hvaluesPlaced := hplaced.left
    have hscalesPlaced := hplaced.right
    rw [hvaluesLength] at hscalesPlaced
    have hinside : block * 8 + 8 ≤ m.blocks * 8 := value_inside hb
    have hhalf := half_inside hb
    have hend := hscalesPlaced.length_le
    rw [hm]
    dsimp only [ExpertFormat.valueWords, ExpertFormat.code]
    refine ⟨?_, ?_⟩
    · unfold blockInside
      simp
      omega
    · rw [dotBlock_q8_0 (length_of_mem hmem) (fun w hw => ?_) (halfAt_eq hops hscalesPlaced (by omega) (hscale block hb') (hfinite _ hmem))]
      · refine Finset.sum_congr rfl fun e he => ?_
        rw [decode_getD (show Held .q8_0 from trivial) rfl (by rw [← length_chunks]; exact hb') (Finset.mem_range.mp he)]
        rfl
      · rw [Nat.add_assoc, hvaluesPlaced.getD_eq (by omega), hvalue block hb' w hw]

def IsFloat (dtype : GgmlDType) : Prop := dtype = .f32 ∨ dtype = .f16 ∨ dtype = .bf16

theorem IsFloat.held (h : IsFloat dtype) : Held dtype ∧ dtype.blockSize = 1 := by
  rcases h with rfl | rfl | rfl <;> exact ⟨trivial, rfl⟩

theorem toBits_decode (hops : ops.Exact) (h : IsFloat dtype) {v : ℚ} (hv : v ∈ decode ops dtype source) : ops.fromBits (ops.toBits v) = v := by
  obtain ⟨b, -, hv⟩ := List.mem_flatMap.mp hv
  rcases h with rfl | rfl | rfl
  · rw [List.mem_singleton.mp hv]
    exact hops.fromBits_toBits _
  · rw [List.mem_singleton.mp hv]
    exact hops.half_toBits _
  · rw [List.mem_singleton.mp hv]
    exact hops.bfloat_toBits _

theorem length_decode (hheld : Held dtype) : (decode ops dtype source).length = source.length / dtype.typeSize * dtype.blockSize := by
  unfold decode
  rw [length_flatMap_chunks fun b hb => length_decodeUnit hheld (length_of_mem hb), length_chunks]

section
variable (hfloat : IsFloat dtype) (hcols : 0 < m.cols) (hsource : source.length = m.rows * (m.cols / dtype.blockSize * dtype.typeSize))
include hfloat hcols hsource

theorem floatRows_holds {rows : List (Bytes × Nat)} (hrows : ∀ row ∈ rows, row.2 < m.rows ∧
      row.1 = (source.drop (row.2 * (m.cols / dtype.blockSize * dtype.typeSize))).take (m.cols / dtype.blockSize * dtype.typeSize))
    {buf : List ℚ} (hbuf : buf.length = m.cols) {values : List Word} {s : Set Nat} (hlength : values.length = m.rows * m.cols)
    (h : Holds (fun i => ops.toBits ((decode ops dtype source).getD i 0)) s values) :
    ∃ buf' values', rows.foldlM (floatRow ops m dtype) (buf, some values) = .ok (buf', some values') ∧ values'.length = m.rows * m.cols ∧
      Holds (fun i => ops.toBits ((decode ops dtype source).getD i 0)) (s ∪ {i | ∃ row ∈ rows, i / m.cols = row.2}) values' := by
  obtain ⟨hheld, hblock⟩ := hfloat.held
  induction rows generalizing buf values s with
  | nil =>
    refine ⟨buf, values, rfl, hlength, h.mono ?_⟩
    rintro i (hi | ⟨row, hrow, -⟩)
    · exact hi
    · exact absurd hrow List.not_mem_nil
  | cons row rows ih =>
    obtain ⟨hr, hbytes⟩ := hrows row List.mem_cons_self
    have hdecode := dequantRow_eq ops hheld (by rw [hblock, Nat.mod_one]) hsource hr hbuf
    have hall : (decode ops dtype source).length = m.rows * m.cols := by
      rw [length_decode hheld, hsource, hblock, Nat.div_one, Nat.mul_one, ← Nat.mul_assoc, Nat.mul_div_cancel _ (typeSize_pos dtype)]
    have hend := Nat.mul_le_mul_right m.cols (show row.2 + 1 ≤ m.rows from hr)
    rw [Nat.succ_mul] at hend
    obtain ⟨buf', hbuf'⟩ : ∃ buf', ((decode ops dtype source).drop (row.2 * m.cols)).take m.cols = buf' := ⟨_, rfl⟩
    have hbufLength : buf'.length = m.cols := by
      rw [← hbuf', List.length_take, List.length_drop]
      omega
    have hcell {write : Nat × Word} (hwrite : write ∈ buf'.zipIdx.map fun v => (row.2 * m.cols + v.2, ops.toBits v.1)) :
        ∃ c < m.cols, write = (row.2 * m.cols + c, ops.toBits ((decode ops dtype source).getD (row.2 * m.cols + c) 0)) := by
      obtain ⟨⟨v, c⟩, hv, rfl⟩ := List.mem_map.mp hwrite
      rw [List.mk_mem_zipIdx_iff_getElem?, ← hbuf'] at hv
      have hc : c < m.cols := by
        have hlt := (List.getElem?_eq_some_iff.mp hv).1
        rw [List.length_take] at hlt
        omega
      rw [List.getElem?_take_of_lt hc, List.getElem?_drop] at hv
      refine ⟨c, hc, ?_⟩
      rw [List.getD_eq_getElem?_getD, hv]
      rfl
    obtain ⟨values', hput, hputLength, hputHolds⟩ := scatter_holds h (buf'.zipIdx.map fun v => (row.2 * m.cols + v.2, ops.toBits v.1))
      (fun write hwrite => by
        obtain ⟨c, hc, rfl⟩ := hcell hwrite
        rfl)
      (fun write hwrite => by
        obtain ⟨c, hc, rfl⟩ := hcell hwrite
        rw [hlength]
        exact grid_lt hr hc)
    obtain ⟨buf'', values'', hfold, hfoldLength, hholds⟩ := ih (fun row' hrow' => hrows row' (List.mem_cons_of_mem row hrow')) hbufLength
      (hputLength.trans hlength) hputHolds
    refine ⟨buf'', values'', ?_, hfoldLength, hholds.mono ?_⟩
    · rw [List.foldlM_cons, floatRow]
      dsimp only
      rw [hbytes, hdecode, hbuf']
      dsimp only [Option.bind_some]
      rw [hput]
      exact hfold
    · rintro i (hi | ⟨row', hrow', hi⟩)
      · exact .inl (.inl hi)
      · rcases List.mem_cons.mp hrow' with rfl | hrow'
        · have hc : i % m.cols < buf'.length := by
            rw [hbufLength]
            exact Nat.mod_lt i hcols
          refine .inl (.inr ⟨_, List.mem_map.mpr ⟨(buf'[i % m.cols], i % m.cols), ?_, rfl⟩, ?_⟩)
          · exact List.mk_mem_zipIdx_iff_getElem?.mpr (List.getElem?_eq_getElem hc)
          · rw [← hi]
            exact grid_eq i m.cols
        · exact .inr ⟨row', hrow', hi⟩

end

theorem packMatrix_f32 (hops : ops.Exact) (hm : m.format = .f32) (hfloat : IsFloat dtype) (hcols : 0 < m.cols) (hwhole : m.cols % 32 = 0)
    (hsource : source.length = m.rows * (m.cols / dtype.blockSize * dtype.typeSize)) (out : List Word) :
    ∃ words, packMatrix ops m dtype source out = .ok (some (out ++ words)) ∧ words.length = m.words ∧ Dots ops m dtype source words := by
  obtain ⟨hheld, hblock⟩ := hfloat.held
  have hblocks : m.blocks * 32 = m.rows * m.cols := by
    unfold MatrixLayout.blocks blockLen
    exact Nat.div_mul_cancel (Nat.dvd_of_mod_eq_zero (by rw [Nat.mul_mod, hwhole, Nat.mul_zero, Nat.zero_mod]))
  obtain ⟨rowBytes, hrowBytes⟩ : ∃ rowBytes, m.cols / dtype.blockSize * dtype.typeSize = rowBytes := ⟨_, rfl⟩
  have hpos : 0 < rowBytes := by
    rw [← hrowBytes, hblock, Nat.div_one]
    exact Nat.mul_pos hcols (typeSize_pos dtype)
  have hcount : source.length / rowBytes = m.rows := by rw [hsource, hrowBytes, Nat.mul_div_cancel _ hpos]
  have hrows : ∀ row ∈ (chunks rowBytes source).zipIdx, row.2 < m.rows ∧
      row.1 = (source.drop (row.2 * (m.cols / dtype.blockSize * dtype.typeSize))).take (m.cols / dtype.blockSize * dtype.typeSize) := by
    intro row hrow
    have hget := List.mem_zipIdx_iff_getElem?.mp hrow
    have hlt := (List.getElem?_eq_some_iff.mp hget).1
    rw [length_chunks] at hlt
    rw [getElem?_chunks hlt] at hget
    rw [hrowBytes]
    exact ⟨hcount ▸ hlt, (Option.some.inj hget).symm⟩
  obtain ⟨buf, values, hfold, hlength, hholds⟩ := floatRows_holds hfloat hcols hsource hrows
    (List.length_replicate (n := m.cols) (a := (0 : ℚ)))
    (show (List.replicate (m.blocks * 32) 0#32).length = m.rows * m.cols by rw [List.length_replicate, hblocks])
    (holds_empty (fun i => ops.toBits ((decode ops dtype source).getD i 0)) _)
  refine ⟨values, ?_, ?_, fun pool base hplaced block hb x xo hx => ?_⟩
  · unfold packMatrix
    rw [hm]
    dsimp only
    rw [hrowBytes, if_neg (by rw [hsource, hrowBytes, Nat.mul_comm]; exact fun h => h rfl), if_neg (Nat.ne_of_gt hpos)]
    simp only [ExpertFormat.valueWords, blockLen, hfold]
    rfl
  · unfold MatrixLayout.words
    rw [hm, hlength, ← hblocks]
    rfl
  · have hinside : block * 32 + 32 ≤ m.blocks * 32 := value_inside hb
    have hend := hplaced.length_le
    rw [hm]
    dsimp only [ExpertFormat.code]
    refine ⟨?_, ?_⟩
    · unfold blockInside
      simp
      omega
    · refine dotBlock_f32 fun i hi => ?_
      have hall : (decode ops dtype source).length = m.rows * m.cols := by
        rw [length_decode hheld, hsource, hblock, Nat.div_one, Nat.mul_one, ← Nat.mul_assoc, Nat.mul_div_cancel _ (typeSize_pos dtype)]
      have hlt : block * 32 + i < m.rows * m.cols := by omega
      have hin : (decode ops dtype source).getD (block * 32 + i) 0 ∈ decode ops dtype source := by
        rw [List.getD_eq_getElem?_getD, List.getElem?_eq_getElem (hall ▸ hlt)]
        exact List.getElem_mem _
      rw [Nat.add_assoc, hplaced.getD_eq (by omega), List.getD_eq_getElem?_getD, hholds (block * 32 + i) ?_, Option.getD_some]
      · exact toBits_decode hops hfloat hin
      · have hr : (block * 32 + i) / m.cols < source.length / rowBytes := by
          rw [hcount]
          exact Nat.div_lt_of_lt_mul (Nat.mul_comm m.rows m.cols ▸ hlt)
        exact .inr ⟨_, List.mk_mem_zipIdx_iff_getElem?.mpr (getElem?_chunks hr), rfl⟩

end

/-! ## Packing succeeds -/

/-- The blocks of 32 that are decoded in place. -/
def InPlace : GgmlDType → Prop
  | .q4_0 | .q4_1 | .q5_0 | .q5_1 | .q8_0 => True
  | _ => False

theorem length_decodeBlock {dtype : GgmlDType} (h : InPlace dtype) {b : Bytes} (hb : b.length = dtype.typeSize) (scale : ℚ) :
    (decodeBlock ops dtype scale b).length = 32 := by
  cases dtype <;> first | exact h.elim | skip
  all_goals
    unfold decodeBlock
    simp [length_nibbles, hb, GgmlDType.typeSize]

theorem length_dequantRow {dtype : GgmlDType} {bytes : Bytes} {scale : ℚ} {out values : List ℚ}
    (h : dequantRow ops dtype bytes scale out = .ok values) : values.length = out.length := by
  unfold dequantRow at h
  split at h
  · simp at h
  · rename_i hfits
    obtain ⟨hblock, hbytes⟩ : out.length % dtype.blockSize = 0 ∧ bytes.length = out.length / dtype.blockSize * dtype.typeSize := by omega
    have hdivide : out.length / dtype.blockSize * dtype.blockSize = out.length := Nat.div_mul_cancel (Nat.dvd_of_mod_eq_zero hblock)
    have hcount : bytes.length / dtype.typeSize = out.length / dtype.blockSize := by rw [hbytes, Nat.mul_div_cancel _ (typeSize_pos dtype)]
    have hinPlace (hin : InPlace dtype) (h32 : dtype.blockSize = 32)
        (hflat : values = (chunks dtype.typeSize bytes).flatMap (decodeBlock ops dtype scale)) : values.length = out.length := by
      rw [hflat, length_flatMap_chunks fun b hb => length_decodeBlock hin (length_of_mem hb) scale, length_chunks, hcount, ← h32, hdivide]
    cases dtype
    case f32 | f16 | bf16 =>
      rw [← Except.ok.inj h, List.length_map, length_chunks]
      simp only [GgmlDType.blockSize, Nat.div_one] at hcount
      exact hcount
    case q4_0 | q4_1 | q5_0 | q5_1 | q8_0 => exact hinPlace trivial rfl (Except.ok.inj h).symm
    all_goals
      dsimp only at h
      split at h
      · cases h
      · rw [← Except.ok.inj h, List.length_take, List.length_append, List.length_map, List.length_drop]
        omega

theorem length_quantizeQ80 (values : List ℚ) : (quantizeQ80 ops values).length = values.length / 32 * 34 := by
  unfold quantizeQ80
  rw [length_flatMap_chunks (k := 34), length_chunks]
  intro block hblock
  unfold quantizeBlock
  dsimp only
  rw [List.length_append, List.length_map, length_of_mem hblock]
  rfl

/-- Bytes that match the shape, whose rows the decoder reads. -/
structure Matching (ops : Floats) (m : MatrixLayout) (dtype : GgmlDType) (raw : Bytes) : Prop where
  cols : 0 < m.cols
  whole : m.cols % dtype.blockSize = 0
  length : raw.length = m.rows * (m.cols / dtype.blockSize * dtype.typeSize)
  reads : ∀ row ∈ chunks (m.cols / dtype.blockSize * dtype.typeSize) raw, ∀ buf : List ℚ, buf.length = m.cols →
    ∃ values, dequantRow ops dtype row 1 buf = .ok values

section
variable {m : MatrixLayout} {dtype : GgmlDType} {raw : Bytes}

theorem requantRows {rows : List Bytes} (hreads : ∀ row ∈ rows, ∀ buf : List ℚ, buf.length = m.cols →
      ∃ values, dequantRow ops dtype row 1 buf = .ok values) {buf : List ℚ} (hbuf : buf.length = m.cols) (bytes : Bytes) :
    ∃ buf' bytes', rows.foldlM (requantRow ops dtype) (buf, bytes) = .ok (buf', bytes') ∧
      bytes'.length = bytes.length + rows.length * (m.cols / 32 * 34) := by
  induction rows generalizing buf bytes with
  | nil => exact ⟨buf, bytes, rfl, by rw [List.length_nil, Nat.zero_mul, Nat.add_zero]⟩
  | cons row rows ih =>
    obtain ⟨values, hvalues⟩ := hreads row List.mem_cons_self buf hbuf
    have hlength := length_dequantRow hvalues
    obtain ⟨buf', bytes', hfold, hbytes⟩ := ih (fun row' hrow' => hreads row' (List.mem_cons_of_mem row hrow')) (hlength.trans hbuf)
      (bytes ++ quantizeQ80 ops values)
    refine ⟨buf', bytes', ?_, ?_⟩
    · rw [List.foldlM_cons, requantRow, hvalues]
      exact hfold
    · rw [hbytes, List.length_append, length_quantizeQ80, hlength, hbuf, List.length_cons, Nat.succ_mul]
      omega

theorem rowBytes_pos (h : Matching ops m dtype raw) : 0 < m.cols / dtype.blockSize * dtype.typeSize := by
  refine Nat.mul_pos (Nat.div_pos ?_ (blockSize_pos dtype)) (typeSize_pos dtype)
  exact Nat.le_of_dvd h.cols (Nat.dvd_of_mod_eq_zero h.whole)

theorem blocks_eq (hwhole : m.cols % 32 = 0) : m.blocks = m.rows * (m.cols / 32) := by
  unfold MatrixLayout.blocks blockLen
  exact Nat.mul_div_assoc _ (Nat.dvd_of_mod_eq_zero hwhole)

theorem q8Bytes_ok (hwhole : m.cols % 32 = 0) (h : Matching ops m dtype raw) :
    ∃ source, q8Bytes ops m dtype raw = .ok (some source) ∧ source.length = m.blocks * 34 := by
  unfold q8Bytes
  rw [blocks_eq hwhole]
  by_cases hnative : dtype = .q8_0
  · rw [if_pos hnative]
    refine ⟨raw, rfl, ?_⟩
    rw [h.length, hnative, Nat.mul_assoc]
    rfl
  · have hpos := rowBytes_pos h
    have hcount : (chunks (m.cols / dtype.blockSize * dtype.typeSize) raw).length = m.rows := by
      rw [length_chunks, h.length, Nat.mul_div_cancel _ hpos]
    obtain ⟨buf, bytes, hfold, hbytes⟩ := requantRows h.reads (List.length_replicate (n := m.cols) (a := (0 : ℚ))) []
    rw [if_neg hnative]
    dsimp only
    rw [if_neg (by rw [h.length, Nat.mul_comm]; exact fun h => h rfl), if_neg (Nat.ne_of_gt hpos), hfold]
    refine ⟨bytes, rfl, ?_⟩
    rw [hbytes, hcount, List.length_nil, Nat.zero_add, Nat.mul_assoc]

theorem ofType_cases (dtype : GgmlDType) : dtype = .q4_0 ∨ dtype = .q4_1 ∨ ExpertFormat.ofType dtype = .q8_0 ∨ IsFloat dtype := by
  cases dtype <;> simp [ExpertFormat.ofType, IsFloat]

theorem IsFloat.format (h : IsFloat dtype) : ExpertFormat.ofType dtype = .f32 := by
  rcases h with rfl | rfl | rfl <;> rfl

theorem packMatrix_ok (hops : ops.Exact) (hm : m.format = .ofType dtype) (hwhole : m.cols % 32 = 0) (h : Matching ops m dtype raw)
    (out : List Word) : ∃ words, packMatrix ops m dtype raw out = .ok (some (out ++ words)) := by
  rcases ofType_cases dtype with rfl | rfl | hq8 | hfloat
  · obtain ⟨words, hpack, -⟩ := packMatrix_q4_0 hops hm (by rw [h.length, blocks_eq hwhole, Nat.mul_assoc]; rfl) out
    exact ⟨words, hpack⟩
  · obtain ⟨words, hpack, -⟩ := packMatrix_q4_1 hops hm (by rw [h.length, blocks_eq hwhole, Nat.mul_assoc]; rfl) out
    exact ⟨words, hpack⟩
  · obtain ⟨source, hsource, hlength⟩ := q8Bytes_ok hwhole h
    obtain ⟨words, hpack, -⟩ := packMatrix_q8_0 hops (hm.trans hq8) hsource hlength out
    exact ⟨words, hpack⟩
  · obtain ⟨words, hpack, -⟩ := packMatrix_f32 hops (hm.trans hfloat.format) hfloat h.cols hwhole h.length out
    exact ⟨words, hpack⟩

/-! ## What is packed -/

def heldType (m : MatrixLayout) (dtype : GgmlDType) : GgmlDType := if m.format = .q8_0 then .q8_0 else dtype

/-- The bytes of what the words hold: the file's, or those that were quantized again. -/
def heldBytes (ops : Floats) (m : MatrixLayout) (dtype : GgmlDType) (raw : Bytes) : Bytes :=
  if m.format = .q8_0 then
    match q8Bytes ops m dtype raw with
    | .ok (some source) => source
    | _ => []
  else raw

/-- **What is packed**, if anything is, is read by the kernel. -/
theorem packMatrix_spec (hops : ops.Exact) (hm : m.format = .ofType dtype) (hwhole : m.cols % 32 = 0) {out out' : List Word}
    (h : packMatrix ops m dtype raw out = .ok (some out')) :
    ∃ words, out' = out ++ words ∧ words.length = m.words ∧ Held (heldType m dtype) ∧ m.cols % (heldType m dtype).blockSize = 0 ∧
      (heldBytes ops m dtype raw).length = m.rows * (m.cols / (heldType m dtype).blockSize * (heldType m dtype).typeSize) ∧
      (FiniteScales (heldType m dtype) (heldBytes ops m dtype raw) → Dots ops m (heldType m dtype) (heldBytes ops m dtype raw) words) := by
  have hresult {words : List Word} (hpack : packMatrix ops m dtype raw out = .ok (some (out ++ words))) : out' = out ++ words := by
    rw [h] at hpack
    exact Option.some.inj (Except.ok.inj hpack)
  unfold heldType heldBytes
  rcases ofType_cases dtype with rfl | rfl | hq8 | hfloat
  · have hsource : raw.length = m.blocks * 18 := by
      unfold packMatrix at h
      rw [hm] at h
      dsimp only [ExpertFormat.ofType] at h
      split at h
      · simp at h
      · rename_i hfits
        simpa [GgmlDType.typeSize] using hfits
    obtain ⟨words, hpack, hlength, hdots⟩ := packMatrix_q4_0 hops hm hsource out
    rw [hm, if_neg (by decide), if_neg (by decide)]
    exact ⟨words, hresult hpack, hlength, trivial, hwhole, by rw [hsource, blocks_eq hwhole, Nat.mul_assoc]; rfl, hdots⟩
  · have hsource : raw.length = m.blocks * 20 := by
      unfold packMatrix at h
      rw [hm] at h
      dsimp only [ExpertFormat.ofType] at h
      split at h
      · simp at h
      · rename_i hfits
        simpa [GgmlDType.typeSize] using hfits
    obtain ⟨words, hpack, hlength, hdots⟩ := packMatrix_q4_1 hops hm hsource out
    rw [hm, if_neg (by decide), if_neg (by decide)]
    exact ⟨words, hresult hpack, hlength, trivial, hwhole, by rw [hsource, blocks_eq hwhole, Nat.mul_assoc]; rfl, hdots⟩
  · obtain ⟨source, hsource, hlength⟩ : ∃ source, q8Bytes ops m dtype raw = .ok (some source) ∧ source.length = m.blocks * 34 := by
      unfold packMatrix at h
      rw [hm, hq8] at h
      dsimp only at h
      split at h
      · simp at h
      · simp at h
      · rename_i source hsource
        split at h
        · simp at h
        · rename_i hlength
          exact ⟨source, hsource, not_not.mp hlength⟩
    obtain ⟨words, hpack, hwords, hdots⟩ := packMatrix_q8_0 hops (hm.trans hq8) hsource hlength out
    rw [hm, hq8, if_pos rfl, if_pos rfl, hsource]
    exact ⟨words, hresult hpack, hwords, trivial, hwhole, by rw [hlength, blocks_eq hwhole, Nat.mul_assoc]; rfl, hdots⟩
  · obtain ⟨hlength, hcols⟩ : raw.length = m.rows * (m.cols / dtype.blockSize * dtype.typeSize) ∧ 0 < m.cols := by
      unfold packMatrix at h
      rw [hm, hfloat.format] at h
      dsimp only at h
      split at h
      · simp at h
      · rename_i hlength
        split at h
        · simp at h
        · rename_i hpos
          refine ⟨by rw [← not_not.mp hlength, Nat.mul_comm], Nat.pos_of_ne_zero fun hzero => hpos ?_⟩
          rw [hzero, Nat.zero_div, Nat.zero_mul]
    obtain ⟨words, hpack, hwords, hdots⟩ := packMatrix_f32 hops (hm.trans hfloat.format) hfloat hcols hwhole hlength out
    rw [hm, hfloat.format, if_neg (by decide), if_neg (by decide)]
    exact ⟨words, hresult hpack, hwords, hfloat.held.1, by rw [hfloat.held.2, Nat.mod_one], hlength, fun _ => hdots⟩

/-! ## A row -/

def dot (row x : List ℚ) : ℚ := (List.zipWith (· * ·) row x).sum

theorem dot_eq {row x : List ℚ} (h : row.length ≤ x.length) : dot row x = ∑ e ∈ Finset.range row.length, row.getD e 0 * x.getD e 0 := by
  unfold dot
  induction row generalizing x with
  | nil => rfl
  | cons v row ih =>
    rcases x with _ | ⟨w, x⟩
    · exact absurd h (Nat.not_succ_le_zero _)
    · rw [List.zipWith_cons_cons, List.sum_cons, ih (Nat.le_of_succ_le_succ h), List.length_cons, Finset.sum_range_succ', add_comm]
      rfl

theorem dotRow_eq {words pool : List Word} {base row xBase : Nat} {x : List ℚ} {source : Bytes} (hdots : Dots ops m dtype source words)
    (hplaced : Placed pool base words) (hwhole : m.cols % 32 = 0) (hrow : row < m.rows) (hx : xBase + m.cols ≤ x.length) :
    dotRow ops pool base (base + m.blocks * m.format.valueWords) (base + m.blocks * m.format.valueWords + m.halfWords) m.format.code row
        (m.cols / 32) x xBase =
      some (∑ e ∈ Finset.range m.cols, (decode ops dtype source).getD (row * m.cols + e) 0 * x.getD (xBase + e) 0) := by
  have hcols : m.cols / 32 * 32 = m.cols := Nat.div_mul_cancel (Nat.dvd_of_mod_eq_zero hwhole)
  have hfirst (n : Nat) (hn : n ≤ m.cols / 32) : (List.range n).foldlM (fun acc b =>
        if blockInside pool base (base + m.blocks * m.format.valueWords) (base + m.blocks * m.format.valueWords + m.halfWords) m.format.code
            (row * (m.cols / 32) + b) x (xBase + b * 32) then
          some (acc + dotBlock ops pool base (base + m.blocks * m.format.valueWords) (base + m.blocks * m.format.valueWords + m.halfWords)
            m.format.code (row * (m.cols / 32) + b) x (xBase + b * 32))
        else none) (0 : ℚ) =
      some (∑ b ∈ Finset.range n, ∑ e ∈ Finset.range 32,
        (decode ops dtype source).getD (row * m.cols + (b * 32 + e)) 0 * x.getD (xBase + (b * 32 + e)) 0) := by
    induction n with
    | zero => rfl
    | succ n ih =>
      have hblock := Nat.mul_le_mul_right (m.cols / 32) (show row + 1 ≤ m.rows from hrow)
      rw [Nat.succ_mul, ← blocks_eq hwhole] at hblock
      obtain ⟨hinside, hdot⟩ := hdots pool base hplaced (row * (m.cols / 32) + n) (by omega) x (xBase + n * 32) (by omega)
      rw [List.range_succ, List.foldlM_append, ih (Nat.le_of_succ_le hn), Finset.sum_range_succ]
      simp only [Option.bind_eq_bind, Option.bind_some, List.foldlM_cons, List.foldlM_nil, hinside, hdot, if_true, Option.pure_def]
      congr 2
      refine Finset.sum_congr rfl fun e _ => ?_
      rw [Nat.add_mul, Nat.mul_assoc, hcols, Nat.add_assoc, Nat.add_assoc]
  unfold dotRow
  rw [hfirst (m.cols / 32) (Nat.le_refl _),
    sum_grid (fun e => (decode ops dtype source).getD (row * m.cols + e) 0 * x.getD (xBase + e) 0) (m.cols / 32) 32, hcols]

end

/-! ## An expert -/

inductive Which where
  | gate
  | up
  | down

def Matrices.get {α : Type} (ms : Matrices α) : Which → α
  | .gate => ms.gate
  | .up => ms.up
  | .down => ms.down

theorem placed_matrix {layout : SlotLayout} {pool wg wu wd : List Word} {slot : Nat} (h : Placed pool slot (wg ++ (wu ++ wd)))
    {nEmbd ff : Nat} {dtypes : Matrices GgmlDType} (hlayout : SlotLayout.new nEmbd ff dtypes = .ok layout)
    (hg : wg.length = layout.matrices.gate.words) (hu : wu.length = layout.matrices.up.words) :
    Placed pool (slot + layout.matrices.gate.offset) wg ∧ Placed pool (slot + layout.matrices.up.offset) wu ∧
      Placed pool (slot + layout.matrices.down.offset) wd := by
  unfold SlotLayout.new at hlayout
  split at hlayout
  · simp at hlayout
  · obtain rfl := Except.ok.inj hlayout
    dsimp only at hg hu ⊢
    refine ⟨h.left, hg ▸ h.right.left, ?_⟩
    rw [← hu, ← hg, ← Nat.add_assoc]
    exact h.right.right

theorem layout_matrix {nEmbd ff : Nat} {dtypes : Matrices GgmlDType} {layout : SlotLayout} (h : SlotLayout.new nEmbd ff dtypes = .ok layout) :
    (∀ which, (layout.matrices.get which).format = .ofType (dtypes.get which) ∧ (layout.matrices.get which).cols % 32 = 0) ∧
      layout.words = layout.matrices.gate.words + layout.matrices.up.words + layout.matrices.down.words := by
  unfold SlotLayout.new at h
  split at h
  · simp at h
  · rename_i hwhole
    obtain ⟨hn, hff⟩ := not_or.mp hwhole
    obtain rfl := Except.ok.inj h
    refine ⟨?_, rfl⟩
    rintro (_ | _ | _)
    · exact ⟨rfl, not_not.mp hn⟩
    · exact ⟨rfl, not_not.mp hn⟩
    · exact ⟨rfl, not_not.mp hff⟩

section
variable {nEmbd ff : Nat} {dtypes : Matrices GgmlDType} {layout : SlotLayout} {raw : Matrices Bytes}

/-- The bytes of a row of what the words hold. -/
def heldRow (ops : Floats) (m : MatrixLayout) (dtype : GgmlDType) (raw : Bytes) (row : Nat) : Bytes :=
  let rowBytes := m.cols / (heldType m dtype).blockSize * (heldType m dtype).typeSize
  ((heldBytes ops m dtype raw).drop (row * rowBytes)).take rowBytes

/-- **An expert that is packed**: its words are those of its matrices, each where the layout says. -/
theorem packExpert_spec (hops : ops.Exact) (hlayout : SlotLayout.new nEmbd ff dtypes = .ok layout) {words : List Word}
    (h : packExpert ops layout dtypes raw = .ok (some words)) :
    words.length = layout.words ∧ ∀ which pool slot, Placed pool slot words → ∃ part,
      Placed pool (slot + (layout.matrices.get which).offset) part ∧ Held (heldType (layout.matrices.get which) (dtypes.get which)) ∧
      (layout.matrices.get which).cols % (heldType (layout.matrices.get which) (dtypes.get which)).blockSize = 0 ∧
      (heldBytes ops (layout.matrices.get which) (dtypes.get which) (raw.get which)).length = (layout.matrices.get which).rows *
        ((layout.matrices.get which).cols / (heldType (layout.matrices.get which) (dtypes.get which)).blockSize *
          (heldType (layout.matrices.get which) (dtypes.get which)).typeSize) ∧
      (FiniteScales (heldType (layout.matrices.get which) (dtypes.get which))
          (heldBytes ops (layout.matrices.get which) (dtypes.get which) (raw.get which)) →
        Dots ops (layout.matrices.get which) (heldType (layout.matrices.get which) (dtypes.get which))
          (heldBytes ops (layout.matrices.get which) (dtypes.get which) (raw.get which)) part) := by
  obtain ⟨hmatrix, hall⟩ := layout_matrix hlayout
  obtain ⟨hgFormat, hgWhole⟩ := hmatrix .gate
  obtain ⟨huFormat, huWhole⟩ := hmatrix .up
  obtain ⟨hdFormat, hdWhole⟩ := hmatrix .down
  unfold packExpert at h
  split at h
  · simp at h
  · simp at h
  · rename_i words₁ hgate
    split at h
    · simp at h
    · simp at h
    · rename_i words₂ hup
      obtain ⟨wg, hwg, hgLength, hgate⟩ := packMatrix_spec hops hgFormat hgWhole hgate
      obtain ⟨wu, hwu, huLength, hup⟩ := packMatrix_spec hops huFormat huWhole hup
      obtain ⟨wd, hwd, hdLength, hdown⟩ := packMatrix_spec hops hdFormat hdWhole h
      rw [List.nil_append] at hwg
      have hwords : words = wg ++ (wu ++ wd) := by rw [hwd, hwu, hwg, List.append_assoc]
      refine ⟨?_, fun which pool slot hplaced => ?_⟩
      · rw [hwords, List.length_append, List.length_append, hgLength, huLength, hdLength, hall, Nat.add_assoc]
        rfl
      rw [hwords] at hplaced
      obtain ⟨hg, hu, hd⟩ := placed_matrix hplaced hlayout hgLength huLength
      cases which with
      | gate => exact ⟨wg, hg, hgate⟩
      | up => exact ⟨wu, hu, hup⟩
      | down => exact ⟨wd, hd, hdown⟩

/-- **The kernel's dot product** over the words of an expert, wherever its slot is, is that of the activations and the decoded row; bytes that
match the shapes are packed. -/
theorem dotRow_packExpert (hops : ops.Exact) (hlayout : SlotLayout.new nEmbd ff dtypes = .ok layout) (raw : Matrices Bytes) :
    ((∀ which, Matching ops (layout.matrices.get which) (dtypes.get which) (raw.get which)) →
      ∃ words, packExpert ops layout dtypes raw = .ok (some words)) ∧
    ∀ words, packExpert ops layout dtypes raw = .ok (some words) → words.length = layout.words ∧
      ∀ which, FiniteScales (heldType (layout.matrices.get which) (dtypes.get which))
          (heldBytes ops (layout.matrices.get which) (dtypes.get which) (raw.get which)) →
        ∀ row < (layout.matrices.get which).rows, ∀ buf : List ℚ, buf.length = (layout.matrices.get which).cols →
        ∃ values, dequantRow ops (heldType (layout.matrices.get which) (dtypes.get which))
            (heldRow ops (layout.matrices.get which) (dtypes.get which) (raw.get which) row) 1 buf = .ok values ∧
          ∀ pool slot, Placed pool slot words → ∀ (x : List ℚ) (xBase : Nat), xBase + (layout.matrices.get which).cols ≤ x.length →
            dotRow ops pool (slot + (layout.matrices.get which).offset) (slot + (layout.matrices.get which).scaleOffset)
              (slot + (layout.matrices.get which).minOffset) (layout.matrices.get which).format.code row
              ((layout.matrices.get which).cols / 32) x xBase = some (dot values (x.drop xBase)) := by
  obtain ⟨hmatrix, -⟩ := layout_matrix hlayout
  refine ⟨fun hmatching => ?_, fun words hwords => ?_⟩
  · obtain ⟨wg, hgate⟩ := packMatrix_ok hops (hmatrix .gate).1 (hmatrix .gate).2 (hmatching .gate) []
    obtain ⟨wu, hup⟩ := packMatrix_ok hops (hmatrix .up).1 (hmatrix .up).2 (hmatching .up) ([] ++ wg)
    obtain ⟨wd, hdown⟩ := packMatrix_ok hops (hmatrix .down).1 (hmatrix .down).2 (hmatching .down) ([] ++ wg ++ wu)
    refine ⟨[] ++ wg ++ wu ++ wd, ?_⟩
    unfold packExpert
    rw [show packMatrix ops layout.matrices.gate dtypes.gate raw.gate [] = _ from hgate]
    dsimp only
    rw [show packMatrix ops layout.matrices.up dtypes.up raw.up _ = _ from hup]
    exact hdown
  · obtain ⟨hlength, hparts⟩ := packExpert_spec hops hlayout hwords
    refine ⟨hlength, fun which hfinite row hrow buf hbuf => ?_⟩
    obtain ⟨-, hwhole⟩ := hmatrix which
    obtain ⟨-, -, hheld, hcols, hbytes, -⟩ := hparts which words 0 ⟨[], [], by rw [List.nil_append, List.append_nil], rfl⟩
    refine ⟨_, dequantRow_eq ops hheld hcols hbytes hrow hbuf, fun pool slot hplaced x xBase hx => ?_⟩
    obtain ⟨part, hpart, -, -, -, hdots⟩ := hparts which pool slot hplaced
    have hrowLength : (((decode ops (heldType (layout.matrices.get which) (dtypes.get which))
        (heldBytes ops (layout.matrices.get which) (dtypes.get which) (raw.get which))).drop (row * (layout.matrices.get which).cols)).take
        (layout.matrices.get which).cols).length = (layout.matrices.get which).cols :=
      (length_dequantRow (dequantRow_eq ops hheld hcols hbytes hrow hbuf)).trans hbuf
    have hkernel := dotRow_eq (hdots hfinite) hpart hwhole hrow hx
    unfold MatrixLayout.minOffset MatrixLayout.scaleOffset
    simp only [← Nat.add_assoc]
    rw [hkernel, dot_eq (by rw [hrowLength, List.length_drop]; omega), hrowLength]
    congr 1
    refine Finset.sum_congr rfl fun e he => ?_
    have he' := Finset.mem_range.mp he
    rw [List.getD_eq_getElem?_getD, List.getD_eq_getElem?_getD, List.getD_eq_getElem?_getD, List.getD_eq_getElem?_getD,
      List.getElem?_take_of_lt he', List.getElem?_drop, List.getElem?_drop]

end

/-! ## Floats as they are -/

def floatOf (b : Word) : ℚ :=
  if b.extractLsb' 23 8 = 0#8 then (if b.msb then -1 else 1) * (b.extractLsb' 0 23).toNat / 2 ^ 149
  else ieee b.msb (b.extractLsb' 23 8).toNat 127 (b.extractLsb' 0 23).toNat 23

def halfOf (h : BitVec 16) : ℚ :=
  if h.extractLsb' 10 5 = 0#5 then (if h.msb then -1 else 1) * (h.extractLsb' 0 10).toNat / 2 ^ 24
  else ieee h.msb (h.extractLsb' 10 5).toNat 15 (h.extractLsb' 0 10).toNat 10

theorem floatOf_bits (s : Bool) {e : BitVec 8} (he : e ≠ 0#8) (m : BitVec 10) :
    floatOf ((if s then 0x80000000#32 else 0#32) ||| (e.setWidth 32 <<< 23) ||| (m.setWidth 32 <<< 13)) = ieee s e.toNat 127 m.toNat 10 := by
  obtain ⟨hsign, hexponent, hmantissa⟩ := float_bits s e m
  unfold floatOf
  rw [hexponent, if_neg he, hsign, hmantissa, mantissa_toNat]
  unfold ieee
  push_cast
  ring

theorem subnormal_float (s : Bool) (m : BitVec 10) : ∃ b, floatOf b = (if s then -1 else 1) * m.toNat / 2 ^ 24 := by
  by_cases hzero : m.toNat = 0
  · refine ⟨0#32, ?_⟩
    rw [hzero]
    unfold floatOf
    simp
  · -- the highest bit goes into the exponent
    obtain ⟨k, r, hk, hr, hm⟩ : ∃ k r, k < 10 ∧ r < 2 ^ k ∧ m.toNat = 2 ^ k + r := by
      have hlow := Nat.log2_self_le hzero
      have hhigh : m.toNat < 2 ^ (m.toNat.log2 + 1) := Nat.lt_log2_self
      rw [Nat.pow_succ] at hhigh
      have hlog : m.toNat.log2 < 10 := (Nat.log2_lt hzero).mpr m.isLt
      exact ⟨m.toNat.log2, m.toNat - 2 ^ m.toNat.log2, hlog, by omega, by omega⟩
    have hexponent : BitVec.ofNat 8 (k + 103) ≠ 0#8 := by
      intro heq
      have hnat := congrArg BitVec.toNat heq
      rw [BitVec.toNat_ofNat, Nat.mod_eq_of_lt (by omega)] at hnat
      change k + 103 = 0 at hnat
      omega
    refine ⟨_, (floatOf_bits s hexponent (BitVec.ofNat 10 (r * 2 ^ (10 - k)))).trans ?_⟩
    have hfits : r * 2 ^ (10 - k) < 2 ^ 10 := by
      calc r * 2 ^ (10 - k) < 2 ^ k * 2 ^ (10 - k) := Nat.mul_lt_mul_of_pos_right hr (Nat.two_pow_pos _)
        _ = 2 ^ 10 := by rw [← Nat.pow_add, Nat.add_sub_cancel' (Nat.le_of_lt hk)]
    rw [BitVec.toNat_ofNat, BitVec.toNat_ofNat, Nat.mod_eq_of_lt hfits, Nat.mod_eq_of_lt (by omega), hm]
    unfold ieee
    generalize (if s then -1 else 1 : ℚ) = sign
    interval_cases k <;> norm_num <;> ring

theorem halfOf_float (h : BitVec 16) : ∃ b, floatOf b = halfOf h := by
  unfold halfOf
  by_cases hzero : h.extractLsb' 10 5 = 0#5
  · rw [if_pos hzero]
    exact subnormal_float h.msb (h.extractLsb' 0 10)
  · rw [if_neg hzero]
    have hsum : ∀ e : BitVec 5, e.setWidth 8 + 112#8 ≠ 0#8 ∧ (e.setWidth 8 + 112#8).toNat = e.toNat + 112 := by decide
    obtain ⟨hne, hnat⟩ := hsum (h.extractLsb' 10 5)
    refine ⟨_, (floatOf_bits h.msb hne (h.extractLsb' 0 10)).trans ?_⟩
    unfold ieee
    rw [hnat, show (((h.extractLsb' 10 5).toNat + 112 : Nat) : ℤ) - (127 : Nat) = ((h.extractLsb' 10 5).toNat : ℤ) - (15 : Nat) by
      push_cast
      ring]

/-- The floats of the formats; the bits of a float are any it is made of. -/
noncomputable def floats : Floats where
  fromBits := floatOf
  toBits v := Classical.epsilon fun b => floatOf b = v
  half := halfOf
  bfloat h := floatOf (h ++ 0#16)
  fromHalf v := Classical.epsilon fun h => halfOf h = v
  candle dtype _ := .error s!"no {dtype.name}"

theorem floats_exact : floats.Exact where
  normal _ hne _ := if_neg hne
  half_normal _ _ hne := if_neg hne
  half_subnormal _ hzero := if_pos hzero
  fromBits_toBits b := Classical.epsilon_spec (p := fun b' => floatOf b' = floatOf b) ⟨b, rfl⟩
  half_toBits h := Classical.epsilon_spec (halfOf_float h)
  bfloat_toBits h := Classical.epsilon_spec (p := fun b' => floatOf b' = floatOf (h ++ 0#16)) ⟨h ++ 0#16, rfl⟩

def tinyTypes : Matrices GgmlDType := ⟨.q4_0, .q8_0, .q4_1⟩

def tinyLayout : SlotLayout :=
  ⟨⟨⟨.q4_0, 32, 32, 0⟩, ⟨.q8_0, 32, 32, 144⟩, ⟨.q4_1, 32, 32, 416⟩⟩, 576⟩

def tinyRaw : Matrices Bytes := ⟨List.replicate 576 0x3C, List.replicate 1088 0x3C, List.replicate 640 0x3C⟩

theorem tiny_matching (which : Which) : Matching floats (tinyLayout.matrices.get which) (tinyTypes.get which) (tinyRaw.get which) := by
  have hheld (dtype : GgmlDType) (h : Held dtype) (hblock : dtype.blockSize = 32) (rows : List Bytes)
      (hrows : ∀ row ∈ rows, row.length = dtype.typeSize) (row : Bytes) (hrow : row ∈ rows) (buf : List ℚ) (hbuf : buf.length = 32) :
      ∃ values, dequantRow floats dtype row 1 buf = .ok values :=
    ⟨_, dequantRow_decode h (by rw [hbuf, hblock]) (by rw [hrows row hrow, hbuf, hblock, Nat.div_self (by decide), Nat.one_mul])⟩
  cases which with
  | gate => exact ⟨by decide, rfl, List.length_replicate, hheld .q4_0 trivial rfl _ fun row hrow => length_of_mem hrow⟩
  | up => exact ⟨by decide, rfl, List.length_replicate, hheld .q8_0 trivial rfl _ fun row hrow => length_of_mem hrow⟩
  | down => exact ⟨by decide, rfl, List.length_replicate, hheld .q4_1 trivial rfl _ fun row hrow => length_of_mem hrow⟩

theorem dotRow_packExpert_tiny : ∃ words, packExpert floats tinyLayout tinyTypes tinyRaw = .ok (some words) ∧ words.length = 576 := by
  obtain ⟨hpacked, hwords⟩ := dotRow_packExpert floats_exact (show SlotLayout.new 32 32 tinyTypes = .ok tinyLayout from rfl) tinyRaw
  obtain ⟨words, h⟩ := hpacked tiny_matching
  exact ⟨words, h, (hwords words h).1⟩

end Cuca.Local.MoeKernel
