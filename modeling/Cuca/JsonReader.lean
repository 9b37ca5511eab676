import Cuca.Canonical

/-!
# Reading canonical text back

`serde_json::from_str` reads the text of a value but for two things: it gives up at 128 levels of arrays and objects, and a
float need not be the one that was written.

* `Value.depth`, `Value.mapNumbers`;
* `ReadsJson` : what is relied on of `from_str`;
* `reads_back_iff` : the values that come back as they were, up to the order of members;
* `readsJson_ofText` : a reader as relied on.
-/

namespace Cuca

namespace Value

mutual

/-- The levels of arrays and objects. -/
def depth : Value → Nat
  | .array elements => depthElements elements + 1
  | .object members => depthMembers members + 1
  | _ => 0

def depthElements : List Value → Nat
  | [] => 0
  | element :: elements => max (depth element) (depthElements elements)

def depthMembers : List (String × Value) → Nat
  | [] => 0
  | (_, value) :: members => max (depth value) (depthMembers members)

end

mutual

/-- The value with each of its numbers changed. -/
def mapNumbers (back : Number → Number) : Value → Value
  | .number n => .number (back n)
  | .array elements => .array (mapElements back elements)
  | .object members => .object (mapMembers back members)
  | v => v

def mapElements (back : Number → Number) : List Value → List Value
  | [] => []
  | element :: elements => mapNumbers back element :: mapElements back elements

def mapMembers (back : Number → Number) : List (String × Value) → List (String × Value)
  | [] => []
  | (key, value) :: members => (key, mapNumbers back value) :: mapMembers back members

end

theorem depthElements_le_iff (elements : List Value) (n : Nat) :
    depthElements elements ≤ n ↔ ∀ element ∈ elements, depth element ≤ n := by
  induction elements with
  | nil => simp [depthElements]
  | cons element elements ih => rw [depthElements, Nat.max_le, ih, List.forall_mem_cons]

theorem depthMembers_le_iff (members : List (String × Value)) (n : Nat) :
    depthMembers members ≤ n ↔ ∀ member ∈ members, depth member.2 ≤ n := by
  induction members with
  | nil => simp [depthMembers]
  | cons member members ih => rw [depthMembers, Nat.max_le, ih, List.forall_mem_cons]

theorem depth_reordered {v w : Value} (h : Reordered v w) : depth v = depth w := by
  suffices hle : ∀ {v w}, Reordered v w → ∀ n, depth v ≤ n ↔ depth w ≤ n from
    Nat.le_antisymm ((hle h _).mpr (Nat.le_refl _)) ((hle h _).mp (Nat.le_refl _))
  intro v w h
  induction h with
  | refl v => exact fun n => Iff.rfl
  | trans _ _ ih ih' => exact fun n => (ih n).trans (ih' n)
  | @members l l' hperm =>
    intro n
    rcases n with _ | n
    · exact iff_of_false (Nat.not_succ_le_zero _) (Nat.not_succ_le_zero _)
    · rw [depth, depth, Nat.add_le_add_iff_right, Nat.add_le_add_iff_right, depthMembers_le_iff, depthMembers_le_iff]
      exact forall_congr' fun m => imp_congr_left hperm.mem_iff
  | element l r _ ih =>
    intro n
    rcases n with _ | n
    · exact iff_of_false (Nat.not_succ_le_zero _) (Nat.not_succ_le_zero _)
    · rw [depth, depth, Nat.add_le_add_iff_right, Nat.add_le_add_iff_right, depthElements_le_iff, depthElements_le_iff]
      simp only [List.mem_append, List.mem_cons, or_imp, forall_and, forall_eq, ih]
  | member l r key _ ih =>
    intro n
    rcases n with _ | n
    · exact iff_of_false (Nat.not_succ_le_zero _) (Nat.not_succ_le_zero _)
    · rw [depth, depth, Nat.add_le_add_iff_right, Nat.add_le_add_iff_right, depthMembers_le_iff, depthMembers_le_iff]
      simp only [List.mem_append, List.mem_cons, or_imp, forall_and, forall_eq, ih]

theorem Reordered.symm {v w : Value} (h : Reordered v w) : Reordered w v := by
  induction h with
  | refl v => exact .refl v
  | trans _ _ ih ih' => exact ih'.trans ih
  | members hperm => exact .members hperm.symm
  | element l r _ ih => exact .element l r ih
  | member l r key _ ih => exact .member l r key ih

mutual

theorem mapNumbers_id : ∀ v : Value, mapNumbers id v = v
  | .null | .bool _ | .number _ | .string _ => rfl
  | .array elements => congrArg Value.array (mapElements_id elements)
  | .object members => congrArg Value.object (mapMembers_id members)

theorem mapElements_id : ∀ elements : List Value, mapElements id elements = elements
  | [] => rfl
  | element :: elements => congrArg₂ List.cons (mapNumbers_id element) (mapElements_id elements)

theorem mapMembers_id : ∀ members : List (String × Value), mapMembers id members = members
  | [] => rfl
  | (key, value) :: members => congrArg₂ List.cons (congrArg (Prod.mk key) (mapNumbers_id value)) (mapMembers_id members)

end

end Value

namespace Canonical
open Value

/-- `serde_json` errs on entering this level. -/
def recursionLimit : Nat := 128

/-- What is relied on of `from_str`, for canonical text: it reads the value, with each number as `back` has it, and errs
where the value is too deep. -/
structure ReadsJson (numberText : Number → List Char) (fromStr : String → Option Value) (back : Number → Number) : Prop where
  shallow : ∀ v, v.DistinctKeys → v.depth < recursionLimit →
    ∃ w, fromStr (canonicalValue numberText v) = some w ∧ (v.mapNumbers back).Reordered w
  deep : ∀ v, v.DistinctKeys → recursionLimit ≤ v.depth → fromStr (canonicalValue numberText v) = none

/-- **The values that come back**: not too deep, and the same with their numbers read back. -/
theorem reads_back_iff {numberText : Number → List Char} {fromStr : String → Option Value} {back : Number → Number}
    (h : ReadsJson numberText fromStr back) {v : Value} (hv : v.DistinctKeys) :
    (∃ w, fromStr (canonicalValue numberText v) = some w ∧ v.Reordered w) ↔
      v.depth < recursionLimit ∧ (v.mapNumbers back).Reordered v := by
  rcases Nat.lt_or_ge v.depth recursionLimit with hlt | hge
  · obtain ⟨w, hw, hback⟩ := h.shallow v hv hlt
    rw [and_iff_right hlt]
    constructor
    · rintro ⟨w', hw', hsame⟩
      obtain rfl := Option.some.inj (hw.symm.trans hw')
      exact hback.trans hsame.symm
    · exact fun hsame => ⟨w, hw, hsame.symm.trans hback⟩
  · refine iff_of_false (fun ⟨w, hw, _⟩ => ?_) fun ⟨hlt, _⟩ => Nat.not_lt.mpr hge hlt
    exact nomatch (h.deep v hv hge).symm.trans hw

/-- The value, not too deep, that a text is the canonical text of. -/
noncomputable def ofText (numberText : Number → List Char) (text : String) : Option Value :=
  open Classical in
  if h : ∃ v : Value, v.depth < recursionLimit ∧ canonicalValue numberText v = text then some h.choose else none

theorem readsJson_ofText {numberText : Number → List Char} (hnumbers : NumberTexts numberText) :
    ReadsJson numberText (ofText numberText) id := by
  have hsame {v w : Value} (h : canonicalValue numberText w = canonicalValue numberText v) : Reordered v w := by
    have htext : sortedText numberText v = sortedText numberText w := String.ofList_inj.mp h.symm
    exact (sortedText_determines hnumbers v w [] [] stops_nil stops_nil (by rw [htext])).1
  constructor
  · intro v hv hlt
    have hex : ∃ w : Value, w.depth < recursionLimit ∧ canonicalValue numberText w = canonicalValue numberText v :=
      ⟨v, hlt, rfl⟩
    refine ⟨hex.choose, dif_pos hex, ?_⟩
    rw [mapNumbers_id]
    exact hsame hex.choose_spec.2
  · intro v hv hge
    apply dif_neg
    rintro ⟨w, hlt, htext⟩
    rw [← depth_reordered (hsame htext)] at hlt
    exact Nat.not_lt.mpr hge hlt

end Canonical
end Cuca
