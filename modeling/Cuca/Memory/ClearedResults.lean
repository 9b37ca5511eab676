import Cuca.Memory.Compaction
import Mathlib.Data.List.Dedup

/-!
# Clearing old tool results

The source counts the outputs that it may blank: the texts of a Tool message, and each ToolResult block. A Tool message
that carries the result of its call as a block has two of them, and so counts twice towards the results that stay.

* `resultOf`, `results` : the result an output belongs to, and the results in the order of their last outputs;
* `blanking` : the messages with the outputs at some places cleared; `clearToolResults_eq` : the strategy is one;
* `clearedBeyond` : all but the outputs of the newest results cleared;
* `clears_iff` : the strategy does that exactly when what it clears of the newest results is empty already.
-/

namespace Cuca.Memory.Compaction

/-! ## Recency -/

section
variable {α : Type*} [DecidableEq α]

theorem mem_drop_dedup {xs : List α} {k : Nat} {x : α} (h : x ∈ xs.drop (xs.length - k)) :
    x ∈ xs.dedup.drop (xs.dedup.length - k) := by
  obtain ⟨older, hsplit⟩ : ∃ older, older ++ xs.drop (xs.length - k) = xs := ⟨_, List.take_append_drop _ xs⟩
  obtain ⟨rest, hdedup⟩ : (xs.drop (xs.length - k)).dedup <:+ xs.dedup := by
    conv_rhs => rw [← hsplit, List.dedup_append]
    exact List.suffix_union_right _ _
  have hfew : (xs.drop (xs.length - k)).dedup.length ≤ k := by
    have hsub := (List.dedup_sublist (xs.drop (xs.length - k))).length_le
    rw [List.length_drop] at hsub
    omega
  rw [← hdedup, List.length_append, List.drop_append_of_le_length (by omega)]
  exact List.mem_append_right _ (List.mem_dedup.mpr h)

end

/-! ## Results -/

def blockAt (messages : List UnifiedMessage) (i j : Nat) : Option MessageContentBlock :=
  messages[i]?.bind (·.content[j]?)

/-- The result of a unit: a block with the id of its Tool message is that message's own result. -/
def resultOf (messages : List UnifiedMessage) : Nat × Option Nat → Nat × Option Nat
  | (i, none) => (i, none)
  | (i, some j) =>
    match blockAt messages i j with
    | some (.toolResult id _) =>
      if messages[i]?.any fun msg => msg.role == .tool && msg.toolCallId == some id then (i, none) else (i, some j)
    | _ => (i, some j)

def results (messages : List UnifiedMessage) : List (Nat × Option Nat) :=
  ((collectResultUnits messages).map (resultOf messages)).dedup

def newest (k : Nat) (messages : List UnifiedMessage) : List (Nat × Option Nat) :=
  (results messages).drop ((results messages).length - k)

/-- Nothing of the output at a unit is left. -/
def IsBlank (messages : List UnifiedMessage) : Nat × Option Nat → Prop
  | (i, some j) => ∀ id output, blockAt messages i j = some (.toolResult id output) → output = ""
  | (i, none) => ∀ j t, blockAt messages i j = some (.text t) → t = ""

def blankBlock (units : List (Nat × Option Nat)) (i j : Nat) : MessageContentBlock → MessageContentBlock
  | .toolResult id output => .toolResult id (if (i, some j) ∈ units then "" else output)
  | .text t => .text (if (i, none) ∈ units then "" else t)
  | block => block

def blanking (units : List (Nat × Option Nat)) (messages : List UnifiedMessage) : List UnifiedMessage :=
  messages.mapIdx fun i msg => { msg with content := msg.content.mapIdx (blankBlock units i) }

def clearedBeyond (k : Nat) (messages : List UnifiedMessage) : List UnifiedMessage :=
  blanking ((collectResultUnits messages).filter fun unit => resultOf messages unit ∉ newest k messages) messages

/-! ## Blanking -/

theorem getElem?_blanking (units : List (Nat × Option Nat)) (messages : List UnifiedMessage) (i : Nat) :
    (blanking units messages)[i]? =
      messages[i]?.map fun msg => { msg with content := msg.content.mapIdx (blankBlock units i) } :=
  List.getElem?_mapIdx

theorem blockAt_blanking (units : List (Nat × Option Nat)) (messages : List UnifiedMessage) (i j : Nat) :
    blockAt (blanking units messages) i j = (blockAt messages i j).map (blankBlock units i j) := by
  rw [blockAt, blockAt, getElem?_blanking]
  rcases messages[i]? with _ | msg
  · rfl
  · exact List.getElem?_mapIdx

theorem blanking_congr {units units' : List (Nat × Option Nat)} {messages : List UnifiedMessage}
    (h : ∀ i j block, blockAt messages i j = some block → blankBlock units i j block = blankBlock units' i j block) :
    blanking units messages = blanking units' messages := by
  apply List.ext_getElem?
  intro i
  rw [getElem?_blanking, getElem?_blanking]
  rcases hmsg : messages[i]? with _ | msg
  · rfl
  have hcontent : msg.content.mapIdx (blankBlock units i) = msg.content.mapIdx (blankBlock units' i) := by
    apply List.ext_getElem?
    intro j
    rw [List.getElem?_mapIdx, List.getElem?_mapIdx]
    rcases hblock : msg.content[j]? with _ | block
    · rfl
    · have hat : blockAt messages i j = some block := by
        rw [blockAt, hmsg]
        exact hblock
      exact congrArg some (h i j block hat)
  simp only [Option.map_some, hcontent]

theorem blankBlock_nil (i j : Nat) (block : MessageContentBlock) : blankBlock [] i j block = block := by
  cases block <;> rfl

theorem blankBlock_append (units units' : List (Nat × Option Nat)) (i j : Nat) (block : MessageContentBlock) :
    blankBlock units' i j (blankBlock units i j block) = blankBlock (units ++ units') i j block := by
  cases block <;> simp only [blankBlock, List.mem_append]
  all_goals split_ifs <;> simp_all

theorem blanking_nil (messages : List UnifiedMessage) : blanking [] messages = messages := by
  have hcontent (i : Nat) (content : List MessageContentBlock) : content.mapIdx (blankBlock [] i) = content := by
    apply List.ext_getElem?
    intro j
    rw [List.getElem?_mapIdx]
    rcases content[j]? with _ | block
    · rfl
    · exact congrArg some (blankBlock_nil i j block)
  apply List.ext_getElem?
  intro i
  rw [getElem?_blanking]
  rcases messages[i]? with _ | msg
  · rfl
  · simp only [Option.map_some, hcontent]

theorem blanking_append (units units' : List (Nat × Option Nat)) (messages : List UnifiedMessage) :
    blanking units' (blanking units messages) = blanking (units ++ units') messages := by
  rw [blanking, blanking, List.mapIdx_mapIdx]
  congr 1
  funext i msg
  simp only [Function.comp_def, List.mapIdx_mapIdx, blankBlock_append]

theorem blankBlock_other {unit : Nat × Option Nat} {i j : Nat} (block : MessageContentBlock)
    (hresult : unit ≠ (i, some j)) (htext : unit ≠ (i, none)) : blankBlock [unit] i j block = block := by
  have hresult' : (i, some j) ∉ [unit] := fun h => hresult (List.mem_singleton.mp h).symm
  have htext' : (i, none) ∉ [unit] := fun h => htext (List.mem_singleton.mp h).symm
  cases block <;> simp only [blankBlock, hresult', htext', if_false]

theorem mapIdx_blankBlock_other {unit : Nat × Option Nat} {i : Nat} (hother : unit.1 ≠ i)
    (content : List MessageContentBlock) : content.mapIdx (blankBlock [unit] i) = content := by
  apply List.ext_getElem?
  intro j
  have hne (o : Option Nat) : unit ≠ (i, o) := fun h => hother (congrArg Prod.fst h)
  rw [List.getElem?_mapIdx]
  rcases content[j]? with _ | block
  · rfl
  · exact congrArg some (blankBlock_other block (hne _) (hne _))

theorem mapIdx_blankBlock_none (i : Nat) (content : List MessageContentBlock) :
    content.mapIdx (blankBlock [(i, none)] i) = content.map clearText := by
  apply List.ext_getElem?
  intro j
  rw [List.getElem?_mapIdx, List.getElem?_map]
  rcases content[j]? with _ | block
  · rfl
  · cases block <;> simp [blankBlock, clearText]

theorem mapIdx_blankBlock_some (i j : Nat) (content : List MessageContentBlock) :
    content.mapIdx (blankBlock [(i, some j)] i) = content.modify j clearOutput := by
  apply List.ext_getElem?
  intro j'
  rw [List.getElem?_mapIdx, List.getElem?_modify]
  rcases content[j']? with _ | block
  · rfl
  refine congrArg some ?_
  dsimp only
  by_cases hj : j = j'
  · subst hj
    rw [if_pos rfl]
    cases block <;> simp [blankBlock, clearOutput]
  · rw [if_neg hj]
    exact blankBlock_other block (by simp [hj]) (by simp)

theorem blanking_unit (messages : List UnifiedMessage) (unit : Nat × Option Nat) :
    blanking [unit] messages =
      messages.modify unit.1 fun msg => { msg with content := msg.content.mapIdx (blankBlock [unit] unit.1) } := by
  apply List.ext_getElem?
  intro i
  rw [getElem?_blanking, List.getElem?_modify]
  rcases messages[i]? with _ | msg
  · rfl
  refine congrArg some ?_
  dsimp only
  by_cases hi : unit.1 = i
  · subst hi
    rw [if_pos rfl]
  · rw [if_neg hi, mapIdx_blankBlock_other hi]

theorem blanking_of_not_result {messages : List UnifiedMessage} {i j : Nat}
    (h : ∀ id output, blockAt messages i j ≠ some (.toolResult id output)) : blanking [(i, some j)] messages = messages := by
  refine (blanking_congr fun i' j' block hblock => ?_).trans (blanking_nil messages)
  rw [blankBlock_nil]
  by_cases hhere : i = i' ∧ j = j'
  · obtain ⟨rfl, rfl⟩ := hhere
    cases block with
    | toolResult id output => exact absurd hblock (h id output)
    | text t => simp [blankBlock]
    | imageBase64 mediaType data => rfl
    | thinking reasoning signature => rfl
    | toolCall id name arguments => rfl
  · exact blankBlock_other block (by simpa using hhere) (by simp)

theorem blankResult_eq (messages : List UnifiedMessage) (unit : Nat × Option Nat) :
    (blankResult messages unit).2 = blanking [unit] messages := by
  obtain ⟨i, _ | j⟩ := unit
  · rw [blanking_unit]
    simp only [mapIdx_blankBlock_none]
    rfl
  · rw [blankResult]
    split
    case h_1 =>
      rw [blanking_unit]
      simp only [mapIdx_blankBlock_some]
    case h_2 hother => exact (blanking_of_not_result hother).symm

theorem foldl_blankUnit (units : List (Nat × Option Nat)) (state : Bool × List UnifiedMessage) :
    (units.foldl blankUnit state).2 = blanking units state.2 := by
  induction units generalizing state with
  | nil => exact (blanking_nil state.2).symm
  | cons unit units ih =>
    have hunit : (blankUnit state unit).2 = blanking [unit] state.2 := blankResult_eq state.2 unit
    rw [List.foldl_cons, ih, hunit, blanking_append, List.singleton_append]

theorem clearToolResults_eq {W : Type} (keepPairs : Nat) (s : Prompt W) :
    (MemoryPlugin.strategyClearToolResults keepPairs s).2.messages =
      blanking ((collectResultUnits s.messages).take ((collectResultUnits s.messages).length - keepPairs)) s.messages := by
  rw [MemoryPlugin.strategyClearToolResults]
  split
  case isTrue hfew => rw [Nat.sub_eq_zero_of_le hfew, List.take_zero, blanking_nil]
  case isFalse => exact foldl_blankUnit _ _

/-! ## The same units after blanking -/

theorem zipIdx_mapIdx {α β : Type*} (f : Nat → α → β) (xs : List α) :
    (xs.mapIdx f).zipIdx = xs.zipIdx.map fun entry => (f entry.2 entry.1, entry.2) := by
  apply List.ext_getElem?
  intro i
  rw [List.getElem?_zipIdx, List.getElem?_mapIdx, List.getElem?_map, List.getElem?_zipIdx]
  rcases xs[i]? with _ | x
  · rfl
  · simp

theorem collectResultUnits_blanking (units : List (Nat × Option Nat)) (messages : List UnifiedMessage) :
    collectResultUnits (blanking units messages) = collectResultUnits messages := by
  rw [collectResultUnits, collectResultUnits, blanking, zipIdx_mapIdx, List.flatMap_map]
  congr 1
  funext ⟨msg, i⟩
  dsimp only
  rw [zipIdx_mapIdx, List.filterMap_map]
  congr 2
  funext ⟨block, j⟩
  cases block <;> rfl

theorem blanking_self (units : List (Nat × Option Nat)) (messages : List UnifiedMessage) :
    blanking units (blanking units messages) = blanking units messages := by
  rw [blanking_append]
  refine blanking_congr fun i j block _ => ?_
  cases block <;> simp only [blankBlock, List.mem_append, or_self]

theorem clearToolResults_twice {W : Type} (keepPairs : Nat) (s : Prompt W) :
    (MemoryPlugin.strategyClearToolResults keepPairs (MemoryPlugin.strategyClearToolResults keepPairs s).2).2.messages =
      (MemoryPlugin.strategyClearToolResults keepPairs s).2.messages := by
  rw [clearToolResults_eq, clearToolResults_eq, collectResultUnits_blanking, blanking_self]

/-! ## What is blanked too much -/

theorem blanking_eq_blanking_iff {units units' : List (Nat × Option Nat)} {messages : List UnifiedMessage} :
    blanking units messages = blanking units' messages ↔
      ∀ unit, ¬ IsBlank messages unit → (unit ∈ units ↔ unit ∈ units') := by
  constructor
  · intro h unit hfull
    have hat (i j : Nat) : (blockAt messages i j).map (blankBlock units i j) = (blockAt messages i j).map (blankBlock units' i j) := by
      rw [← blockAt_blanking, ← blockAt_blanking, h]
    by_contra hdiffer
    apply hfull
    obtain ⟨i, _ | j⟩ := unit
    · intro j t ht
      have hsame := hat i j
      rw [ht] at hsame
      by_cases hin : (i, none) ∈ units
      · have hout : (i, none) ∉ units' := fun hin' => hdiffer (iff_of_true hin hin')
        simpa [blankBlock, hin, hout, eq_comm] using hsame
      · have hin' : (i, none) ∈ units' := by
          by_contra hout
          exact hdiffer (iff_of_false hin hout)
        simpa [blankBlock, hin, hin', eq_comm] using hsame
    · intro id output houtput
      have hsame := hat i j
      rw [houtput] at hsame
      by_cases hin : (i, some j) ∈ units
      · have hout : (i, some j) ∉ units' := fun hin' => hdiffer (iff_of_true hin hin')
        simpa [blankBlock, hin, hout, eq_comm] using hsame
      · have hin' : (i, some j) ∈ units' := by
          by_contra hout
          exact hdiffer (iff_of_false hin hout)
        simpa [blankBlock, hin, hin', eq_comm] using hsame
  · intro h
    refine blanking_congr fun i j block hblock => ?_
    cases block with
    | toolResult id output =>
      by_cases hblank : IsBlank messages (i, some j)
      · obtain rfl := hblank id output hblock
        simp only [blankBlock, ite_self]
      · simp only [blankBlock, h _ hblank]
    | text t =>
      by_cases hblank : IsBlank messages (i, none)
      · obtain rfl := hblank j t hblock
        simp only [blankBlock, ite_self]
      · simp only [blankBlock, h _ hblank]
    | imageBase64 mediaType data => rfl
    | thinking reasoning signature => rfl
    | toolCall id name arguments => rfl

theorem blanking_eq_iff {units more : List (Nat × Option Nat)} (hsub : units ⊆ more) (messages : List UnifiedMessage) :
    blanking more messages = blanking units messages ↔ ∀ unit ∈ more, unit ∉ units → IsBlank messages unit := by
  rw [blanking_eq_blanking_iff]
  constructor
  · intro h unit hmore hunits
    by_contra hfull
    exact hunits ((h unit hfull).mp hmore)
  · intro h unit hfull
    refine ⟨fun hmore => ?_, fun hunits => hsub hunits⟩
    by_contra hunits
    exact hfull (h unit hmore hunits)

/-! ## What the strategy keeps -/

theorem resultOf_mem_newest {k : Nat} {messages : List UnifiedMessage} {unit : Nat × Option Nat}
    (h : unit ∈ (collectResultUnits messages).drop ((collectResultUnits messages).length - k)) :
    resultOf messages unit ∈ newest k messages := by
  apply mem_drop_dedup
  rw [List.length_map, ← List.map_drop]
  exact List.mem_map_of_mem h

def isBlankResult : MessageContentBlock → Bool
  | .toolResult _ output => output == ""
  | _ => false

/-- All but the newest results are cleared, and a second clearing changes nothing. -/
def ClearsBeyond {W : Type} (k : Nat) (s : Prompt W) : Prop :=
  (MemoryPlugin.strategyClearToolResults k s).2.messages = clearedBeyond k s.messages ∧
    (MemoryPlugin.strategyClearToolResults k (MemoryPlugin.strategyClearToolResults k s).2).2.messages =
      (MemoryPlugin.strategyClearToolResults k s).2.messages

/-- **Clearing**: the newest results stay exactly when what is not among the last units of theirs is empty already. -/
theorem clears_iff {W : Type} (k : Nat) (s : Prompt W) :
    ClearsBeyond k s ↔
      ∀ unit ∈ (collectResultUnits s.messages).take ((collectResultUnits s.messages).length - k),
        resultOf s.messages unit ∈ newest k s.messages → IsBlank s.messages unit := by
  have hsub : ((collectResultUnits s.messages).filter fun unit => resultOf s.messages unit ∉ newest k s.messages) ⊆
      (collectResultUnits s.messages).take ((collectResultUnits s.messages).length - k) := by
    intro unit hunit
    obtain ⟨hmem, hold⟩ := List.mem_filter.mp hunit
    rw [← List.take_append_drop ((collectResultUnits s.messages).length - k) (collectResultUnits s.messages),
      List.mem_append] at hmem
    rcases hmem with hmem | hmem
    · exact hmem
    · exact absurd (resultOf_mem_newest hmem) (by simpa using hold)
  rw [ClearsBeyond, and_iff_left (clearToolResults_twice k s), clearToolResults_eq, clearedBeyond, blanking_eq_iff hsub]
  refine forall₂_congr fun unit hunit => ?_
  have hmem : unit ∈ collectResultUnits s.messages := List.mem_of_mem_take hunit
  rw [List.mem_filter, decide_eq_true_iff, and_iff_right hmem, not_not]

def answered (id output : String) : UnifiedMessage := ⟨.tool, [.toolResult id output], none, some id⟩

/-- Two results, of which the newest two were to stay. -/
theorem kept_result_cleared :
    ¬ ClearsBeyond 2 (⟨(), [answered "a" "one", answered "b" "two"]⟩ : Prompt Unit) := by
  intro h
  have hblock := congrArg (fun messages => (blockAt messages 0 0).map isBlankResult) h.1
  revert hblock
  decide

/-! ## One output for each result -/

end Cuca.Memory.Compaction
