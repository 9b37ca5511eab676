import Cuca.Lib.Pointwise
import Cuca.Local.Model.Experts

/-!
# What a tiered bank computes

* `Holding` : the slots of a bank are partitioned, a listed slot holds its expert, and the bytes are counted;
* `takeSlot_spec`, `install_spec`, `load_spec` : the steps that change the table;
* `Underway` : what holds between two groups of a pass; `group_spec`, `groups_spec` : the group loop;
* `run_spec` : a pass answers as a resident bank does, or with the first read that fails;
* `System`, `tiered_sound` : so it is in every run of a model's banks.
-/

namespace Cuca.Local.Experts
open Blocks Model

/-! ## The table -/

namespace SlotTable
variable (table : SlotTable)

def slotOf (e : Nat) : Option Nat := (table.entries.lookup e).map (·.value)

def slots : List Nat := table.entries.entries.map (·.2.value)

variable {table} {e e' slot : Nat}

theorem contains_iff : table.contains e = true ↔ (table.slotOf e).isSome := by
  rw [contains, decide_eq_true_iff, slotOf, Option.isSome_map, AList.lookup_isSome]

theorem slotOf_eq_none : table.slotOf e = none ↔ table.contains e = false := by
  rw [← Bool.not_eq_true, contains_iff, Bool.not_eq_true, Option.isSome_eq_false_iff, Option.isNone_iff_eq_none]

theorem len_eq : table.len = table.slots.length := (List.length_map _).symm

theorem mem_slots (h : table.slotOf e = some slot) : slot ∈ table.slots := by
  obtain ⟨entry, hentry, rfl⟩ := Option.map_eq_some_iff.mp h
  exact List.mem_map.mpr ⟨⟨e, entry⟩, AList.mem_lookup_iff.mp hentry, rfl⟩

theorem slotOf_insert : (table.insert e slot).slotOf e' = if e' = e then some slot else table.slotOf e' := by
  rw [slotOf, insert]
  split
  case isTrue h => rw [h, AList.lookup_insert, Option.map_some]
  case isFalse h => rw [AList.lookup_insert_ne h, slotOf]

theorem slots_insert (h : table.slotOf e = none) : (table.insert e slot).slots = slot :: table.slots := by
  have hfresh : e ∉ table.entries := AList.lookup_eq_none.mp (Option.map_eq_none_iff.mp h)
  rw [slots, insert, AList.entries_insert_of_notMem hfresh, List.map_cons, slots]

theorem slotOf_remove : (table.remove e).2.slotOf e' = if e' = e then none else table.slotOf e' := by
  rw [slotOf, remove]
  split
  case isTrue h => rw [h, AList.lookup_erase, Option.map_none]
  case isFalse h => rw [AList.lookup_erase_ne h, slotOf]

theorem slots_remove (h : table.slotOf e = some slot) : table.slots.Perm (slot :: (table.remove e).2.slots) := by
  obtain ⟨entry, hentry, rfl⟩ := Option.map_eq_some_iff.mp h
  exact (Assoc.perm_erase hentry).map _

theorem get_fst : (table.get e).1 = table.slotOf e := by
  rw [get, slotOf]
  rcases table.entries.lookup e with _ | entry <;> rfl

theorem slotOf_get : (table.get e).2.slotOf e' = table.slotOf e' := by
  rw [get]
  rcases hentry : table.entries.lookup e with _ | entry
  · rfl
  · rw [slotOf, slotOf]
    by_cases h : e' = e
    · rw [h, AList.lookup_insert, hentry]
      rfl
    · rw [AList.lookup_insert_ne h]

theorem slots_get : (table.get e).2.slots.Perm table.slots := by
  rw [get]
  rcases hentry : table.entries.lookup e with _ | entry
  · exact .refl _
  · exact ((Assoc.perm_erase hentry).map (·.2.value)).symm

theorem len_insert (h : table.slotOf e = none) : (table.insert e slot).len = table.len + 1 := by
  rw [len_eq, slots_insert h, List.length_cons, len_eq]

theorem len_remove (h : table.slotOf e = some slot) : table.len = (table.remove e).2.len + 1 := by
  rw [len_eq, len_eq, (slots_remove h).length_eq, List.length_cons]

theorem len_get : (table.get e).2.len = table.len := by
  rw [len_eq, len_eq, slots_get.length_eq]

theorem victim_spec (heat : List Nat) {keep : List Nat} (h : ∃ e, table.contains e = true ∧ e ∉ keep) :
    ∃ v, table.victim heat keep = some v ∧ table.contains v = true ∧ v ∉ keep := by
  obtain ⟨e, he, hkeep⟩ := h
  obtain ⟨entry, hentry⟩ := Option.isSome_iff_exists.mp (AList.lookup_isSome.mpr (decide_eq_true_iff.mp he))
  have hmem : (⟨e, entry⟩ : Sigma fun _ : Nat => Entry) ∈ table.entries.entries.filter fun entry => entry.1 ∉ keep :=
    List.mem_filter.mpr ⟨AList.mem_lookup_iff.mp hentry, by simpa using hkeep⟩
  rcases hleast : Selection.firstLeast (colder heat) (table.entries.entries.filter fun entry => entry.1 ∉ keep) with _ | v
  · rw [Selection.firstLeast_eq_none_iff.mp hleast] at hmem
    cases hmem
  · obtain ⟨hv, hnot⟩ := List.mem_filter.mp (Selection.firstLeast_mem hleast)
    refine ⟨v.1, ?_, decide_eq_true (List.mem_keys_of_mem hv), by simpa using hnot⟩
    rw [victim, hleast]
    rfl

end SlotTable

/-! ## Slots -/

variable {α H R O : Type} (b : TieredBank α) (c : Call α H R O)

/-- A bank of which so many slots are in hand, where the others' banks hold so many bytes. -/
structure Holding (held : List Nat) (other : Nat) (tier : TierState α) (shared : TierShared) : Prop where
  slots : (held ++ (tier.table.slots ++ tier.free)).Perm (List.range b.deviceSlots)
  pool : ∃ pool, tier.pool = some pool ∧ pool.length = b.deviceSlots * b.words ∧
    ∀ e slot, tier.table.slotOf e = some slot → block b.words pool slot = b.packed e
  bytes : shared.deviceResidentBytes = other + b.storedBytes * tier.table.len

variable {b} {other : Nat} {tier : TierState α} {shared : TierShared} {keep : List Nat}

theorem exists_not_kept (h : Holding b [] other tier shared) (hkeep : keep.length ≤ b.deviceSlots) {e : Nat} (he : e ∈ keep)
    (hnew : tier.table.contains e = false) (hfree : tier.free = []) : ∃ v, tier.table.contains v = true ∧ v ∉ keep := by
  by_contra hall
  have hsub : e :: tier.table.entries.keys ⊆ keep := by
    intro x hx
    rcases List.mem_cons.mp hx with rfl | hx
    · exact he
    · by_contra hnot
      exact hall ⟨x, decide_eq_true hx, hnot⟩
  have hfresh : e ∉ tier.table.entries.keys := fun hmem => by
    rw [SlotTable.contains, decide_eq_false_iff_not] at hnew
    exact hnew hmem
  have hnodup : (e :: tier.table.entries.keys).Nodup := List.nodup_cons.mpr ⟨hfresh, tier.table.entries.nodupKeys⟩
  have hlength := (hnodup.subperm hsub).length_le
  have hslots := h.slots.length_eq
  rw [hfree, List.nil_append, List.append_nil, List.length_range, ← SlotTable.len_eq] at hslots
  have hkeys : tier.table.entries.keys.length = tier.table.len := List.length_map _
  rw [List.length_cons, hkeys] at hlength
  omega

theorem takeSlot_spec (heat : List Nat) (h : Holding b [] other tier shared)
    (hroom : tier.free = [] → ∃ v, tier.table.contains v = true ∧ v ∉ keep) :
    ∃ slot tier' shared', takeSlot b heat keep tier shared = .ok (slot, tier', shared') ∧
      Holding b [slot] other tier' shared' ∧
      ∀ e, tier'.table.slotOf e = tier.table.slotOf e ∨ e ∉ keep ∧ tier'.table.slotOf e = none := by
  rcases hfree : tier.free with _ | ⟨slot, free⟩
  · obtain ⟨v, hvictim, hcontains, hnot⟩ := SlotTable.victim_spec heat (hroom hfree)
    obtain ⟨slot, hslot⟩ := Option.isSome_iff_exists.mp (SlotTable.contains_iff.mp hcontains)
    refine ⟨slot, { tier with table := (tier.table.remove v).2 },
      { shared with deviceResidentBytes := shared.deviceResidentBytes - b.storedBytes }, ?_, ⟨?_, ?_, ?_⟩, fun e => ?_⟩
    · have hremove : tier.table.remove v = (some slot, (tier.table.remove v).2) := Prod.ext hslot rfl
      rw [takeSlot, hfree]
      dsimp only
      rw [hvictim]
      dsimp only
      rw [if_neg hnot, hremove]
    · exact (((SlotTable.slots_remove hslot).append_right tier.free).symm.trans h.slots)
    · obtain ⟨pool, hpool, hlength, hblocks⟩ := h.pool
      refine ⟨pool, hpool, hlength, fun e slot' he => hblocks e slot' ?_⟩
      rw [SlotTable.slotOf_remove] at he
      split at he
      · cases he
      · exact he
    · have hlen := SlotTable.len_remove hslot
      have hbytes := h.bytes
      rw [hlen, Nat.mul_succ] at hbytes
      show shared.deviceResidentBytes - b.storedBytes = other + b.storedBytes * (tier.table.remove v).2.len
      omega
    · show ((tier.table.remove v).2.slotOf e = _) ∨ _
      rw [SlotTable.slotOf_remove]
      split
      case isTrue heq => exact .inr ⟨heq ▸ hnot, rfl⟩
      case isFalse => exact .inl rfl
  · refine ⟨slot, { tier with free := free }, shared, ?_, ⟨?_, h.pool, h.bytes⟩, fun e => .inl rfl⟩
    · rw [takeSlot, hfree]
    · have hslots : (tier.table.slots ++ tier.free).Perm (List.range b.deviceSlots) := h.slots
      rw [hfree] at hslots
      have hmiddle : (slot :: (tier.table.slots ++ free)).Perm (tier.table.slots ++ slot :: free) := List.perm_middle.symm
      exact hmiddle.trans hslots

theorem install_spec {slot e : Nat} (h : Holding b [slot] other tier shared) (hnew : tier.table.contains e = false) :
    Holding b [] other (install b e slot (b.packed e) tier shared).1 (install b e slot (b.packed e) tier shared).2 ∧
      ∀ e', (install b e slot (b.packed e) tier shared).1.table.slotOf e' =
        if e' = e then some slot else tier.table.slotOf e' := by
  obtain ⟨pool, hpool, hlength, hblocks⟩ := h.pool
  have hinstall : install b e slot (b.packed e) tier shared =
      (⟨some (overwrite pool (b.packed e) (slot * b.words)), tier.table.insert e slot, tier.free⟩,
        { shared with deviceResidentBytes := shared.deviceResidentBytes + b.storedBytes }) := by
    rw [install, write, hpool]
  have hfresh := SlotTable.slotOf_eq_none.mpr hnew
  have hlt : slot < b.deviceSlots := List.mem_range.mp (h.slots.subset List.mem_cons_self)
  have hother {slot' e' : Nat} (he' : tier.table.slotOf e' = some slot') : slot ≠ slot' := by
    rintro rfl
    have hnodup := h.slots.nodup_iff.mpr List.nodup_range
    exact (List.nodup_cons.mp hnodup).1 (List.mem_append_left tier.free (SlotTable.mem_slots he'))
  rw [hinstall]
  refine ⟨⟨?_, ⟨_, rfl, ?_, fun e' slot' he' => ?_⟩, ?_⟩, fun e' => SlotTable.slotOf_insert⟩
  · show ([] ++ ((tier.table.insert e slot).slots ++ tier.free)).Perm _
    rw [SlotTable.slots_insert hfresh]
    exact h.slots
  · rw [length_overwrite, hlength]
  · have he' : (tier.table.insert e slot).slotOf e' = some slot' := he'
    rw [SlotTable.slotOf_insert] at he'
    split at he'
    case isTrue heq =>
      obtain rfl := Option.some.inj he'
      rw [heq]
      exact block_overwrite_self (b.length_packed e) (hlength ▸ Nat.mul_le_mul_right b.words hlt)
    case isFalse => rw [block_overwrite_ne (b.length_packed e) (hother he'), hblocks e' slot' he']
  · have hbytes := h.bytes
    show shared.deviceResidentBytes + b.storedBytes = other + b.storedBytes * (tier.table.insert e slot).len
    rw [SlotTable.len_insert hfresh, Nat.mul_succ]
    omega

/-! ## Loading -/

/-- The experts that are asked for, up to the first whose read fails. -/
def asked (fails : Nat → Option CucaError) : List Nat → List Nat
  | [] => []
  | e :: es => e :: if (fails e).isSome then [] else asked fails es

theorem asked_of_none {fails : Nat → Option CucaError} {es : List Nat} (h : es.findSome? fails = none) : asked fails es = es := by
  induction es with
  | nil => rfl
  | cons e es ih =>
    rw [List.findSome?_cons] at h
    rcases hfails : fails e with _ | error
    · rw [hfails] at h
      rw [asked, hfails, ih h]
      rfl
    · rw [hfails] at h
      cases h

theorem asked_append {fails : Nat → Option CucaError} (es es' : List Nat) :
    asked fails (es ++ es') = asked fails es ++ if (es.findSome? fails).isSome then [] else asked fails es' := by
  induction es with
  | nil => rfl
  | cons e es ih =>
    rw [List.cons_append, asked, asked, List.findSome?_cons, ih]
    rcases fails e with _ | error
    · rfl
    · rfl

theorem next_spec {lower : Pass} {e : Nat} {rest : List Nat} (h : lower.needed.drop lower.cursor = e :: rest) :
    ∃ lower', lower.next b c e =
        ((match c.fails e with | some error => .error error | none => .ok (b.packed e)), lower') ∧
      lower'.needed.drop lower'.cursor = rest := by
  have hfirst : (lower.needed.drop lower.cursor).findIdx? (· == e) = some 0 := by
    rw [h, List.findIdx?_cons]
    simp
  refine ⟨{ lower with cursor := lower.cursor + 0 + 1 }, ?_, ?_⟩
  · rw [Pass.next, hfirst]
    rcases c.fails e with _ | error <;> rfl
  · show lower.needed.drop (lower.cursor + 0 + 1) = rest
    rw [Nat.add_zero, ← List.drop_drop, h]
    rfl

variable {w : Walk α R}

theorem load_spec (h : Holding b [] other w.tier w.shared) (hkeep : keep.length ≤ b.deviceSlots) {e : Nat} (he : e ∈ keep)
    (hnew : w.tier.table.contains e = false) {rest : List Nat} (hlower : w.lower.needed.drop w.lower.cursor = e :: rest) :
    ∃ tier shared lower,
      load b c keep e w = (c.fails e, { w with asked := w.asked ++ [e], lower := lower, tier := tier, shared := shared }) ∧
      Holding b [] other tier shared ∧ lower.needed.drop lower.cursor = rest ∧
      (c.fails e = none → tier.table.contains e = true) ∧
      ∀ e', e' ≠ e → tier.table.slotOf e' = w.tier.table.slotOf e' ∨ e' ∉ keep ∧ tier.table.slotOf e' = none := by
  obtain ⟨lower, hnext, hrest⟩ := next_spec (b := b) (c := c) hlower
  rcases hfails : c.fails e with _ | error
  · obtain ⟨slot, tier, shared, htake, hheld, hframe⟩ := takeSlot_spec c.heat h fun hfree => exists_not_kept h hkeep he hnew hfree
    have hnew' : tier.table.contains e = false := by
      rcases hframe e with hsame | ⟨hnot, _⟩
      · rw [← SlotTable.slotOf_eq_none, hsame, SlotTable.slotOf_eq_none]
        exact hnew
      · exact absurd he hnot
    obtain ⟨hinstalled, hslots⟩ := install_spec hheld hnew'
    refine ⟨(install b e slot (b.packed e) tier shared).1, (install b e slot (b.packed e) tier shared).2, lower, ?_, hinstalled,
      hrest, fun _ => ?_, fun e' hne => ?_⟩
    · rw [hfails] at hnext
      rw [load]
      dsimp only
      rw [hnext]
      dsimp only
      rw [htake]
    · rw [SlotTable.contains_iff, hslots, if_pos rfl]
      rfl
    · rw [hslots, if_neg hne]
      exact hframe e'
  · refine ⟨w.tier, w.shared, lower, ?_, h, hrest, nofun, fun _ _ => .inl rfl⟩
    rw [hfails] at hnext
    rw [load]
    dsimp only
    rw [hnext]

theorem loadAll_spec (hkeep : keep.length ≤ b.deviceSlots) {es rest : List Nat} (h : Holding b [] other w.tier w.shared)
    (hsub : es ⊆ keep) (hnodup : es.Nodup) (hnew : ∀ e ∈ es, w.tier.table.contains e = false)
    (hlower : w.lower.needed.drop w.lower.cursor = es ++ rest) :
    ∃ tier shared lower,
      loadAll b c keep es w = (es.findSome? c.fails,
        { w with asked := w.asked ++ asked c.fails es, lower := lower, tier := tier, shared := shared }) ∧
      Holding b [] other tier shared ∧
      (es.findSome? c.fails = none → lower.needed.drop lower.cursor = rest ∧ ∀ e ∈ es, tier.table.contains e = true) ∧
      ∀ e', e' ∉ es → tier.table.slotOf e' = w.tier.table.slotOf e' ∨ e' ∉ keep ∧ tier.table.slotOf e' = none := by
  induction es generalizing w with
  | nil =>
    refine ⟨w.tier, w.shared, w.lower, ?_, h, fun _ => ⟨hlower, fun e he => (nomatch he)⟩, fun _ _ => .inl rfl⟩
    rw [loadAll, asked, List.append_nil]
    rfl
  | cons e es ih =>
    obtain ⟨hfresh, hnodup⟩ := List.nodup_cons.mp hnodup
    have he : e ∈ keep := hsub List.mem_cons_self
    obtain ⟨tier, shared, lower, hload, hholding, hrest, hloaded, hframe⟩ :=
      load_spec (c := c) h hkeep he (hnew e List.mem_cons_self) hlower
    rw [loadAll, hload, List.findSome?_cons, asked]
    rcases hfails : c.fails e with _ | error
    · have hnew' : ∀ x ∈ es, tier.table.contains x = false := by
        intro x hx
        have hne : x ≠ e := fun heq => hfresh (heq ▸ hx)
        rw [← SlotTable.slotOf_eq_none]
        rcases hframe x hne with hsame | ⟨_, hnone⟩
        · rw [hsame, SlotTable.slotOf_eq_none]
          exact hnew x (List.mem_cons_of_mem _ hx)
        · exact hnone
      obtain ⟨tier', shared', lower', hloads, hholding', hdone, hframe'⟩ :=
        ih (w := { w with asked := w.asked ++ [e], lower := lower, tier := tier, shared := shared }) hholding
          (fun x hx => hsub (List.mem_cons_of_mem _ hx)) hnodup hnew' hrest
      refine ⟨tier', shared', lower', ?_, hholding', fun hnone => ?_, fun x hx => ?_⟩
      · dsimp only
        rw [hloads]
        simp
      · obtain ⟨hlower', hall⟩ := hdone hnone
        refine ⟨hlower', fun x hx => ?_⟩
        rcases List.mem_cons.mp hx with rfl | hx
        · have hthere := SlotTable.contains_iff.mp (hloaded hfails)
          rcases hframe' x hfresh with hsame | ⟨hnot, _⟩
          · rw [SlotTable.contains_iff, hsame]
            exact hthere
          · exact absurd he hnot
        · exact hall x hx
      · have hne : x ≠ e := fun heq => hx (heq ▸ List.mem_cons_self)
        have hx : x ∉ es := fun hmem => hx (List.mem_cons_of_mem _ hmem)
        rcases hframe' x hx with hsame | hgone
        · rcases hframe x hne with hsame' | ⟨hnot, hnone⟩
          · exact .inl (hsame.trans hsame')
          · exact .inr ⟨hnot, hsame.trans hnone⟩
        · exact .inr hgone
    · refine ⟨tier, shared, lower, rfl, hholding, nofun, fun x hx => hframe x fun heq => hx (heq ▸ List.mem_cons_self)⟩

/-! ## Kernels -/

def Kernels.result (k : Kernels α H R O) (pair : Nat) (packed : List α) : R := k.down pair packed (k.up pair packed)

theorem down_up (k : Kernels α H R O) (words : Nat) (list : List (Nat × Nat)) (pool : List α) (scratch : List R) :
    down k words (up k words list pool) list pool scratch =
      list.foldl (fun scratch entry => scratch.set entry.1 (k.result entry.1 (block words pool entry.2))) scratch := by
  rw [down, up]
  induction list generalizing scratch with
  | nil => rfl
  | cons entry list ih => exact ih _

theorem length_foldl_set (list : List (Nat × Nat)) (f : Nat × Nat → R) (scratch : List R) :
    (list.foldl (fun scratch entry => scratch.set entry.1 (f entry)) scratch).length = scratch.length := by
  induction list generalizing scratch with
  | nil => rfl
  | cons entry list ih => rw [List.foldl_cons, ih, List.length_set]

theorem getElem?_foldl_set {list : List (Nat × Nat)} {f : Nat × Nat → R} {scratch : List R} {pair : Nat} {value : R}
    (hlt : pair < scratch.length) (hall : ∀ entry ∈ list, entry.1 = pair → f entry = value) :
    (list.foldl (fun scratch entry => scratch.set entry.1 (f entry)) scratch)[pair]? =
      if pair ∈ list.map Prod.fst then some value else scratch[pair]? := by
  induction list generalizing scratch with
  | nil => rfl
  | cons entry list ih =>
    rw [List.foldl_cons, ih (by rwa [List.length_set]) fun entry' hmem => hall entry' (List.mem_cons_of_mem _ hmem),
      List.map_cons, List.getElem?_set]
    by_cases hpair : entry.1 = pair
    · have hvalue := hall entry List.mem_cons_self hpair
      have hfirst : pair ∈ entry.1 :: list.map Prod.fst := by
        rw [hpair]
        exact List.mem_cons_self
      have hplace : entry.1 < scratch.length := hpair ▸ hlt
      rw [if_pos hpair, if_pos hplace, hvalue, if_pos hfirst, ite_self]
    · have hiff : pair ∈ entry.1 :: list.map Prod.fst ↔ pair ∈ list.map Prod.fst := by
        rw [List.mem_cons]
        exact ⟨fun h => h.resolve_left fun heq => hpair heq.symm, .inr⟩
      rw [if_neg hpair]
      simp only [hiff]

theorem lookup_gather (es : List Nat) (table : SlotTable) (e : Nat) :
    (gather es table).1.lookup e = if e ∈ es then table.slotOf e else none := by
  induction es generalizing table with
  | nil => rfl
  | cons x es ih =>
    rw [gather]
    show (((table.get x).1.map (x, ·)).toList ++ (gather es (table.get x).2).1).lookup e = _
    rw [SlotTable.get_fst]
    rcases hx : table.slotOf x with _ | slot
    · have hrest := ih (table.get x).2
      rw [SlotTable.slotOf_get] at hrest
      rw [Option.map_none, Option.toList_none, List.nil_append, hrest]
      by_cases hmem : e ∈ es
      · rw [if_pos hmem, if_pos (List.mem_cons_of_mem _ hmem)]
      · rw [if_neg hmem]
        split
        case isTrue hcons =>
          rw [(List.mem_cons.mp hcons).resolve_right hmem, hx]
        case isFalse => rfl
    · have hrest := ih (table.get x).2
      rw [SlotTable.slotOf_get] at hrest
      rw [Option.map_some, Option.toList_some, List.singleton_append, List.lookup_cons, hrest]
      by_cases he : e = x
      · subst he
        rw [beq_self_eq_true, if_pos List.mem_cons_self, hx]
      · have hbeq : (e == x) = false := by simpa using he
        have hiff : e ∈ x :: es ↔ e ∈ es := by simp [he]
        rw [hbeq]
        simp only [hiff]

theorem slotOf_gather (es : List Nat) (table : SlotTable) (e : Nat) : (gather es table).2.slotOf e = table.slotOf e := by
  induction es generalizing table with
  | nil => rfl
  | cons x es ih => exact (ih (table.get x).2).trans SlotTable.slotOf_get

theorem slots_gather (es : List Nat) (table : SlotTable) : (gather es table).2.slots.Perm table.slots := by
  induction es generalizing table with
  | nil => exact .refl _
  | cons x es ih => exact (ih (table.get x).2).trans SlotTable.slots_get

variable {c}

theorem mem_pairsOf {slots : List (Nat × Nat)} {entry : Nat × Nat} :
    entry ∈ pairsOf c slots ↔ ∃ e, c.experts[entry.1]? = some e ∧ slots.lookup e = some entry.2 := by
  rw [pairsOf, List.mem_filterMap]
  constructor
  · rintro ⟨pair, _, hentry⟩
    obtain ⟨slot, hslot, rfl⟩ := Option.map_eq_some_iff.mp hentry
    exact Option.bind_eq_some_iff.mp hslot
  · rintro ⟨e, he, hslot⟩
    have hlt : entry.1 < c.experts.length := (List.getElem?_eq_some_iff.mp he).1
    refine ⟨entry.1, List.mem_range.mpr hlt, ?_⟩
    rw [he, Option.bind_some, hslot]
    rfl

theorem map_fst_filterMap {β : Type*} (xs : List Nat) (g : Nat → Option β) :
    (xs.filterMap fun x => (g x).map fun y => (x, y)).map Prod.fst = xs.filter fun x => (g x).isSome := by
  induction xs with
  | nil => rfl
  | cons x xs ih =>
    rw [List.filterMap_cons, List.filter_cons]
    rcases g x with _ | y
    · exact ih
    · exact congrArg (x :: ·) ih

theorem pairsOf_fst (slots : List (Nat × Nat)) :
    (pairsOf c slots).map Prod.fst =
      (List.range c.experts.length).filter fun pair => (c.experts[pair]?.bind fun e => slots.lookup e).isSome :=
  map_fst_filterMap _ _

/-! ## Groups -/

def lacking (w : Walk α R) : List Nat := w.pending.filter fun e => !w.tier.table.contains e

variable (b c other) in
/-- What holds between two groups: all that is no longer pending has been computed, once. -/
structure Underway (w : Walk α R) : Prop where
  holding : Holding b [] other w.tier w.shared
  nodup : w.pending.Nodup
  lower : w.lower.needed.drop w.lower.cursor = lacking w
  length : w.scratch.length = c.experts.length
  results : ∀ pair e, c.experts[pair]? = some e → e ∉ w.pending → w.scratch[pair]? = some (c.kernels.result pair (b.packed e))
  queued : (w.launches.flatMap fun launch => launch.1.map Prod.fst).Perm
    ((List.range c.experts.length).filter fun pair => c.experts[pair]?.any (· ∉ w.pending))
  slots : ∀ launch ∈ w.launches, ∀ entry ∈ launch.1,
    ∃ e, c.experts[entry.1]? = some e ∧ block b.words launch.2 entry.2 = b.packed e

theorem length_hits (h : Underway b c other w) : (w.pending.filter w.tier.table.contains).length ≤ b.deviceSlots := by
  have hsub : w.pending.filter w.tier.table.contains ⊆ w.tier.table.entries.keys :=
    fun e he => (decide_eq_true_iff (p := e ∈ w.tier.table.entries)).mp (List.mem_filter.mp he).2
  have hhits := ((h.nodup.filter _).subperm hsub).length_le
  have hkeys : w.tier.table.entries.keys.length = w.tier.table.len := List.length_map _
  have hslots := h.holding.slots.length_eq
  rw [List.nil_append, List.length_append, List.length_range, ← SlotTable.len_eq] at hslots
  omega

theorem length_groupOf (h : Underway b c other w) : (groupOf b w).2.length ≤ b.deviceSlots := by
  have hhits := length_hits h
  rw [groupOf, List.length_mergeSort, List.length_append, List.length_take]
  omega

theorem mem_groupOf {e : Nat} : e ∈ (groupOf b w).2 ↔ e ∈ w.pending ∧ w.tier.table.contains e = true ∨ e ∈ (groupOf b w).1 := by
  rw [groupOf, List.mem_mergeSort, List.mem_append, List.mem_filter]

theorem mem_new {e : Nat} (he : e ∈ (groupOf b w).1) : e ∈ w.pending ∧ w.tier.table.contains e = false := by
  obtain ⟨hmem, hnot⟩ := List.mem_filter.mp (List.mem_of_mem_take he)
  exact ⟨hmem, by simpa using hnot⟩

theorem exists_mem_groupOf (hpending : w.pending ≠ []) : ∃ e ∈ w.pending, e ∈ (groupOf b w).2 := by
  rcases hhits : w.pending.filter w.tier.table.contains with _ | ⟨e, hits⟩
  · obtain ⟨e, pending, hsplit⟩ := List.exists_cons_of_ne_nil hpending
    have hnone : ∀ x ∈ w.pending, w.tier.table.contains x = false := by
      intro x hx
      simpa using List.filter_eq_nil_iff.mp hhits x hx
    have hall : (w.pending.filter fun e => !w.tier.table.contains e) = w.pending :=
      List.filter_eq_self.mpr fun x hx => by rw [hnone x hx]; rfl
    refine ⟨e, by simp [hsplit], mem_groupOf.mpr (.inr ?_)⟩
    obtain ⟨slots, hslots⟩ := Nat.exists_eq_succ_of_ne_zero (Nat.pos_iff_ne_zero.mp b.pos)
    rw [groupOf, hall, hhits, hsplit, hslots]
    exact List.mem_cons_self
  · have he : e ∈ w.pending.filter w.tier.table.contains := by simp [hhits]
    obtain ⟨hmem, hcontains⟩ := List.mem_filter.mp he
    exact ⟨e, hmem, mem_groupOf.mpr (.inl ⟨hmem, hcontains⟩)⟩

theorem pending_rest (hnodup : w.pending.Nodup) {rest : List Nat} (hsplit : lacking w = (groupOf b w).1 ++ rest) :
    (w.pending.filter fun e => e ∉ (groupOf b w).2) = rest := by
  have hlacking : (lacking w).Nodup := hnodup.filter _
  rw [hsplit] at hlacking
  have hdisjoint := (List.nodup_append.mp hlacking).2.2
  calc (w.pending.filter fun e => e ∉ (groupOf b w).2) = (lacking w).filter fun e => e ∉ (groupOf b w).1 := by
        rw [lacking, List.filter_filter]
        refine List.filter_congr fun e he => ?_
        have hiff := mem_groupOf (b := b) (w := w) (e := e)
        by_cases hnew : e ∈ (groupOf b w).1
        · simp [hiff, hnew]
        · cases hcontains : w.tier.table.contains e <;> simp [hiff, hnew, he, hcontains]
    _ = rest := by
        have hnew : ((groupOf b w).1.filter fun e => e ∉ (groupOf b w).1) = [] :=
          List.filter_eq_nil_iff.mpr fun e he => by simpa using he
        have hrest : (rest.filter fun e => e ∉ (groupOf b w).1) = rest :=
          List.filter_eq_self.mpr fun e he => by simpa using fun hmem => hdisjoint e hmem e he rfl
        rw [hsplit, List.filter_append, hnew, hrest, List.nil_append]

theorem Holding.gather (h : Holding b [] other tier shared) (es : List Nat) :
    Holding b [] other { tier with table := (Experts.gather es tier.table).2 } shared := by
  obtain ⟨pool, hpool, hlength, hblocks⟩ := h.pool
  have hperm := slots_gather es tier.table
  refine ⟨(hperm.append_right tier.free).trans h.slots, ⟨pool, hpool, hlength, fun e slot he => hblocks e slot ?_⟩, ?_⟩
  · rwa [slotOf_gather] at he
  · have hlen : (Experts.gather es tier.table).2.len = tier.table.len := by
      rw [SlotTable.len_eq, SlotTable.len_eq, hperm.length_eq]
    rw [hlen]
    exact h.bytes

theorem queued_perm {pending group : List Nat} (hsub : group ⊆ pending) (xs : List Nat) (expert : Nat → Option Nat) :
    ((xs.filter fun pair => (expert pair).any (· ∉ pending)) ++ xs.filter fun pair => (expert pair).any (· ∈ group)).Perm
      (xs.filter fun pair => (expert pair).any fun e => e ∉ pending.filter (· ∉ group)) := by
  have hdone : (xs.filter fun pair => (expert pair).any (· ∉ pending)) =
      (xs.filter fun pair => (expert pair).any fun e => e ∉ pending.filter (· ∉ group)).filter
        fun pair => (expert pair).any (· ∉ pending) := by
    rw [List.filter_filter]
    refine List.filter_congr fun pair _ => ?_
    rcases expert pair with _ | e
    · rfl
    · by_cases he : e ∈ pending <;> simp [he]
  have hgroup : (xs.filter fun pair => (expert pair).any (· ∈ group)) =
      (xs.filter fun pair => (expert pair).any fun e => e ∉ pending.filter (· ∉ group)).filter
        fun pair => !(expert pair).any (· ∉ pending) := by
    rw [List.filter_filter]
    refine List.filter_congr fun pair _ => ?_
    rcases expert pair with _ | e
    · rfl
    · by_cases he : e ∈ group
      · simp [he, hsub he]
      · by_cases hpending : e ∈ pending <;> simp [he, hpending]
  rw [hdone, hgroup]
  exact List.filter_append_perm _ _

/-- **A group**: the reads it asks for, and what is no longer pending. -/
theorem group_spec (h : Underway b c other w) (hpending : w.pending ≠ []) :
    ∃ new rest w', lacking w = new ++ rest ∧ group b c w = (new.findSome? c.fails, w') ∧
      Holding b [] other w'.tier w'.shared ∧ w'.asked = w.asked ++ asked c.fails new ∧
      (new.findSome? c.fails = none →
        Underway b c other w' ∧ w'.pending.length < w.pending.length ∧ lacking w' = rest) := by
  have hsplit : lacking w = (groupOf b w).1 ++ (lacking w).drop (b.deviceSlots - (w.pending.filter w.tier.table.contains).length) :=
    (List.take_append_drop _ _).symm
  generalize (lacking w).drop _ = rest at hsplit
  have hlacking : (lacking w).Nodup := h.nodup.filter _
  have hnodup : (groupOf b w).1.Nodup := hlacking.sublist (List.take_sublist _ _)
  obtain ⟨tier, shared, lower, hloads, hholding, hdone, hframe⟩ := loadAll_spec (c := c) (length_groupOf h) h.holding
    (fun e he => mem_groupOf.mpr (.inr he)) hnodup (fun e he => (mem_new he).2) (h.lower.trans hsplit)
  rcases hfails : (groupOf b w).1.findSome? c.fails with _ | error
  · obtain ⟨hlower, hloaded⟩ := hdone hfails
    obtain ⟨pool, hpool, -, hblocks⟩ := hholding.pool
    have hall : ∀ e ∈ (groupOf b w).2, (tier.table.slotOf e).isSome := by
      intro e he
      rcases mem_groupOf.mp he with ⟨-, hhit⟩ | hnew
      · have hold : e ∉ (groupOf b w).1 := fun hnew => by simp [(mem_new hnew).2] at hhit
        rcases hframe e hold with hsame | ⟨hnot, -⟩
        · rw [hsame]
          exact SlotTable.contains_iff.mp hhit
        · exact absurd he hnot
      · exact SlotTable.contains_iff.mp (hloaded e hnew)
    -- the list holds exactly the pairs of the group, each with the slot that holds its expert
    have hlist (entry : Nat × Nat) : entry ∈ pairsOf c (gather (groupOf b w).2 tier.table).1 ↔
        ∃ e ∈ (groupOf b w).2, c.experts[entry.1]? = some e ∧ tier.table.slotOf e = some entry.2 := by
      rw [mem_pairsOf]
      refine exists_congr fun e => ?_
      rw [lookup_gather]
      by_cases he : e ∈ (groupOf b w).2 <;> simp [he]
    have hfirsts : (pairsOf c (gather (groupOf b w).2 tier.table).1).map Prod.fst =
        (List.range c.experts.length).filter fun pair => c.experts[pair]?.any (· ∈ (groupOf b w).2) := by
      rw [pairsOf_fst]
      refine List.filter_congr fun pair _ => ?_
      rcases c.experts[pair]? with _ | e
      · rfl
      · rw [Option.bind_some, lookup_gather, Option.any_some]
        by_cases he : e ∈ (groupOf b w).2
        · rw [if_pos he, hall e he]
          exact (decide_eq_true he).symm
        · rw [if_neg he]
          exact (decide_eq_false he).symm
    have hrest := pending_rest h.nodup hsplit
    refine ⟨_, _, ⟨{ tier with table := (gather (groupOf b w).2 tier.table).2 }, shared, lower,
      w.pending.filter fun e => e ∉ (groupOf b w).2,
      down c.kernels b.words (up c.kernels b.words (pairsOf c (gather (groupOf b w).2 tier.table).1) pool)
        (pairsOf c (gather (groupOf b w).2 tier.table).1) pool w.scratch,
      w.asked ++ asked c.fails (groupOf b w).1,
      w.launches ++ [(pairsOf c (gather (groupOf b w).2 tier.table).1, pool)]⟩, hsplit, ?_, hholding.gather _, rfl, fun _ => ?_⟩
    · rw [group]
      dsimp only
      rw [hloads, hfails]
      dsimp only
      rw [hpool]
    · have hsub : (groupOf b w).2 ⊆ w.pending := by
        intro e he
        rcases mem_groupOf.mp he with ⟨hmem, -⟩ | hnew
        · exact hmem
        · exact (mem_new hnew).1
      have hblock {entry : Nat × Nat} (hentry : entry ∈ pairsOf c (gather (groupOf b w).2 tier.table).1) :
          ∃ e, c.experts[entry.1]? = some e ∧ block b.words pool entry.2 = b.packed e := by
        obtain ⟨e, -, hpair, hslot⟩ := (hlist entry).mp hentry
        exact ⟨e, hpair, hblocks e _ hslot⟩
      have hlacks : ∀ e ∈ rest, tier.table.contains e = false := by
        intro e he
        have hmem : e ∈ lacking w := hsplit ▸ List.mem_append_right _ he
        have hnot : e ∉ (groupOf b w).1 := by
          rw [hsplit] at hlacking
          exact fun hnew => (List.nodup_append.mp hlacking).2.2 e hnew e he rfl
        have hbefore : w.tier.table.contains e = false := by simpa using (List.mem_filter.mp hmem).2
        rw [← SlotTable.slotOf_eq_none] at hbefore ⊢
        rcases hframe e hnot with hsame | ⟨-, hnone⟩
        · rw [hsame, hbefore]
        · exact hnone
      have hlacking' : (rest.filter fun e => !(gather (groupOf b w).2 tier.table).2.contains e) = rest := by
        refine List.filter_eq_self.mpr fun e he => ?_
        have hcontains : (gather (groupOf b w).2 tier.table).2.contains e = false := by
          rw [← SlotTable.slotOf_eq_none, slotOf_gather, SlotTable.slotOf_eq_none]
          exact hlacks e he
        rw [hcontains]
        rfl
      refine ⟨⟨hholding.gather _, h.nodup.filter _, ?_, ?_, fun pair e hpair hdone => ?_, ?_, ?_⟩, ?_, ?_⟩
      · rw [lacking]
        dsimp only
        rw [hrest, hlacking']
        exact hlower
      · dsimp only
        rw [down_up, length_foldl_set, h.length]
      · have hlt : pair < w.scratch.length := h.length ▸ (List.getElem?_eq_some_iff.mp hpair).1
        have hvalue : ∀ entry ∈ pairsOf c (gather (groupOf b w).2 tier.table).1, entry.1 = pair →
            c.kernels.result entry.1 (block b.words pool entry.2) = c.kernels.result pair (b.packed e) := by
          rintro entry hentry rfl
          obtain ⟨e', hpair', hpacked⟩ := hblock hentry
          rw [hpacked, Option.some.inj (hpair'.symm.trans hpair)]
        have hfirst : pair ∈ (pairsOf c (gather (groupOf b w).2 tier.table).1).map Prod.fst ↔ e ∈ (groupOf b w).2 := by
          rw [hfirsts, List.mem_filter, hpair, Option.any_some, decide_eq_true_iff]
          exact and_iff_right (List.mem_range.mpr (h.length ▸ hlt))
        dsimp only
        rw [down_up, getElem?_foldl_set hlt hvalue]
        by_cases he : e ∈ (groupOf b w).2
        · rw [if_pos (hfirst.mpr he)]
        · rw [if_neg (mt hfirst.mp he)]
          refine h.results pair e hpair fun hmem => hdone ?_
          exact List.mem_filter.mpr ⟨hmem, decide_eq_true he⟩
      · dsimp only
        rw [List.flatMap_append, List.flatMap_singleton, hfirsts]
        exact (h.queued.append_right _).trans (queued_perm hsub _ _)
      · intro launch hlaunch entry hentry
        rcases List.mem_append.mp hlaunch with hlaunch | hlaunch
        · exact h.slots launch hlaunch entry hentry
        · obtain rfl := List.mem_singleton.mp hlaunch
          exact hblock hentry
      · obtain ⟨e, hmem, he⟩ := exists_mem_groupOf (b := b) hpending
        exact List.length_filter_lt_length_iff_exists.mpr ⟨e, hmem, by simpa using he⟩
      · rw [lacking]
        dsimp only
        rw [hrest, hlacking']
  · refine ⟨_, _, { w with asked := w.asked ++ asked c.fails (groupOf b w).1, lower := lower, tier := tier, shared := shared },
      hsplit, ?_, hholding, rfl, fun hnone => ?_⟩
    · rw [group]
      dsimp only
      rw [hloads, hfails]
    · rw [hfails] at hnone
      cases hnone

/-- **The group loop ends**, with the first read that fails or with all that was pending computed. -/
theorem groups_spec {rounds : Nat} (h : Underway b c other w) (hrounds : w.pending.length ≤ rounds) :
    ∃ w', groups b c rounds w = some ((lacking w).findSome? c.fails, w') ∧ Holding b [] other w'.tier w'.shared ∧
      w'.asked = w.asked ++ asked c.fails (lacking w) ∧
      ((lacking w).findSome? c.fails = none → Underway b c other w' ∧ w'.pending = []) := by
  induction rounds generalizing w with
  | zero =>
    have hnil := List.eq_nil_of_length_eq_zero (Nat.le_zero.mp hrounds)
    have hlacking : lacking w = [] := by rw [lacking, hnil]; rfl
    refine ⟨w, ?_, h.holding, ?_, fun _ => ⟨h, hnil⟩⟩
    · rw [groups, hnil, hlacking]
      rfl
    · rw [hlacking, asked, List.append_nil]
  | succ rounds ih =>
    by_cases hnil : w.pending = []
    · have hlacking : lacking w = [] := by rw [lacking, hnil]; rfl
      refine ⟨w, ?_, h.holding, ?_, fun _ => ⟨h, hnil⟩⟩
      · rw [groups, hnil, hlacking]
        rfl
      · rw [hlacking, asked, List.append_nil]
    · obtain ⟨new, rest, w', hsplit, hgroup, hholding, hasked, hdone⟩ := group_spec h hnil
      have hpending : w.pending.isEmpty = false := by simpa using hnil
      rw [groups, if_neg (by simp [hpending]), hgroup, hsplit, asked_append, List.findSome?_append]
      rcases hfails : new.findSome? c.fails with _ | error
      · obtain ⟨hunderway, hshorter, hrest⟩ := hdone hfails
        obtain ⟨w'', hgroups, hholding', hasked', hend⟩ := ih hunderway (by omega)
        rw [hrest] at hgroups hasked' hend
        refine ⟨w'', hgroups, hholding', ?_, hend⟩
        rw [hasked', hasked, List.append_assoc]
        rfl
      · refine ⟨w', rfl, hholding, ?_, nofun⟩
        rw [hasked]
        simp

/-! ## A pass -/

theorem mem_needed (hvalid : c.Valid b) {pair e : Nat} (h : c.experts[pair]? = some e) : e ∈ needed b c := by
  have hmem := List.mem_of_getElem? h
  exact List.mem_filter.mpr ⟨List.mem_range.mpr (hvalid.experts e hmem), decide_eq_true hmem⟩

theorem opening_underway (hvalid : c.Valid b) (h : Holding b [] other tier shared) :
    Underway b c other (opening b c tier shared) := by
  refine ⟨⟨h.slots, h.pool, h.bytes⟩, List.nodup_range.filter _, rfl, hvalid.scratch, fun pair e hpair hdone => ?_, ?_, nofun⟩
  · exact absurd (mem_needed hvalid hpair) hdone
  · have hnone : ((List.range c.experts.length).filter fun pair => c.experts[pair]?.any (· ∉ needed b c)) = [] := by
      refine List.filter_eq_nil_iff.mpr fun pair _ => ?_
      rcases hpair : c.experts[pair]? with _ | e
      · simp
      · simpa using mem_needed hvalid hpair
    exact .of_eq hnone.symm

theorem resident_result (hvalid : c.Valid b) {scratch : List R} (hlength : scratch.length = c.experts.length)
    (hresults : ∀ pair e, c.experts[pair]? = some e → scratch[pair]? = some (c.kernels.result pair (b.packed e))) :
    residentRun b c = c.kernels.sum scratch := by
  rw [residentRun, down_up]
  congr 1
  apply List.ext_getElem?
  intro pair
  rcases hpair : c.experts[pair]? with _ | e
  · have hout := List.getElem?_eq_none_iff.mp hpair
    rw [List.getElem?_eq_none (by rw [length_foldl_set, hvalid.scratch]; exact hout), List.getElem?_eq_none (hlength ▸ hout)]
  · have hlt : pair < c.experts.length := (List.getElem?_eq_some_iff.mp hpair).1
    have hvalue : ∀ entry ∈ (List.range c.experts.length).filterMap fun pair => c.experts[pair]?.map fun e => (pair, e),
        entry.1 = pair → c.kernels.result entry.1 (block b.words ((List.range b.nExpert).flatMap b.packed) entry.2) =
          c.kernels.result pair (b.packed e) := by
      rintro entry hentry rfl
      obtain ⟨pair, -, hmap⟩ := List.mem_filterMap.mp hentry
      obtain ⟨e', he', rfl⟩ := Option.map_eq_some_iff.mp hmap
      obtain rfl := Option.some.inj (he'.symm.trans hpair)
      rw [block_flatMap (fun e _ => b.length_packed e) (hvalid.experts _ (List.mem_of_getElem? hpair))]
    have hfirst : pair ∈ ((List.range c.experts.length).filterMap fun pair =>
        c.experts[pair]?.map fun e => (pair, e)).map Prod.fst := by
      rw [map_fst_filterMap, List.mem_filter, hpair]
      exact ⟨List.mem_range.mpr hlt, rfl⟩
    rw [getElem?_foldl_set (hvalid.scratch ▸ hlt) hvalue, if_pos hfirst, hresults pair e hpair]

/-- **A pass** asks for what the pool lacks, in order, and answers as a resident bank does unless a read fails. -/
theorem run_spec (hvalid : c.Valid b) (h : Holding b [] other tier shared) :
    ∃ w, run b c tier shared = some ((match (missing b c tier).findSome? c.fails with
        | some error => .error error
        | none => .ok (residentRun b c)), w) ∧
      Holding b [] other w.tier w.shared ∧ w.asked = asked c.fails (missing b c tier) ∧
      ((missing b c tier).findSome? c.fails = none →
        (w.launches.flatMap fun launch => launch.1.map Prod.fst).Perm (List.range c.experts.length) ∧
        ∀ launch ∈ w.launches, ∀ entry ∈ launch.1,
          ∃ e, c.experts[entry.1]? = some e ∧ block b.words launch.2 entry.2 = b.packed e) := by
  obtain ⟨w, hgroups, hholding, hasked, hdone⟩ := groups_spec (opening_underway hvalid h) (Nat.le_refl _)
  have hlacking : lacking (opening b c tier shared) = missing b c tier := rfl
  rw [hlacking] at hgroups hasked hdone
  refine ⟨w, ?_, hholding, hasked, fun hnone => ?_⟩
  · have hpending : (opening b c tier shared).pending.length = (needed b c).length := rfl
    rw [run, ← hpending, hgroups, Option.map_some]
    rcases hfails : (missing b c tier).findSome? c.fails with _ | error
    · obtain ⟨hunderway, hnil⟩ := hdone hfails
      have hresults := hunderway.results
      rw [hnil] at hresults
      rw [resident_result hvalid hunderway.length fun pair e hpair => hresults pair e hpair List.not_mem_nil]
    · rfl
  · obtain ⟨hunderway, hnil⟩ := hdone hnone
    have hqueued := hunderway.queued
    rw [hnil] at hqueued
    have hall : ((List.range c.experts.length).filter fun pair => c.experts[pair]?.any (· ∉ [])) =
        List.range c.experts.length := by
      refine List.filter_eq_self.mpr fun pair hpair => ?_
      rw [List.getElem?_eq_getElem (List.mem_range.mp hpair)]
      rfl
    rw [hall] at hqueued
    exact ⟨hqueued, hunderway.slots⟩

/-! ## The start -/

theorem fresh_holding [Inhabited α] (b : TieredBank α) {other : Nat} {shared : TierShared}
    (hbytes : shared.deviceResidentBytes = other) : Holding b [] other (TierState.fresh b) shared :=
  ⟨.refl _, ⟨_, rfl, List.length_replicate, fun _ _ h => (nomatch h)⟩, hbytes⟩

theorem ranked_nodup (counts : List Nat) : (ranked counts).Nodup :=
  (List.mergeSort_perm _ _).nodup_iff.mpr (List.nodup_range.filter _)

theorem fetch_ok {fails : Nat → Option CucaError} {es : List Nat} {built : List (List α)} (h : fetch b fails es = .ok built) :
    built = es.map b.packed := by
  induction es generalizing built with
  | nil => exact (Except.ok.inj h).symm
  | cons e es ih =>
    rw [fetch] at h
    split at h
    · cases h
    · split at h
      · cases h
      · rename_i hrest
        rw [← Except.ok.inj h, ih hrest, List.map_cons]

theorem warmAll_spec (heat : List Nat) {es : List Nat} (h : Holding b [] other tier shared) (hnodup : es.Nodup)
    (hnew : ∀ e ∈ es, tier.table.contains e = false) (hfree : es.length ≤ tier.free.length) :
    ∃ tier' shared', warmAll b heat (es.map fun e => (e, b.packed e)) tier shared = .ok (tier', shared') ∧
      Holding b [] other tier' shared' := by
  induction es generalizing tier shared with
  | nil => exact ⟨tier, shared, rfl, h⟩
  | cons e es ih =>
    obtain ⟨hfresh, hnodup⟩ := List.nodup_cons.mp hnodup
    obtain ⟨slot, free, hslot⟩ : ∃ slot free, tier.free = slot :: free := by
      rcases hfree' : tier.free with _ | ⟨slot, free⟩
      · rw [hfree'] at hfree
        cases hfree
      · exact ⟨slot, free, rfl⟩
    have htake : takeSlot b heat [] tier shared = .ok (slot, { tier with free := free }, shared) := by
      rw [takeSlot, hslot]
    have hheld : Holding b [slot] other { tier with free := free } shared := by
      have hslots : (tier.table.slots ++ tier.free).Perm (List.range b.deviceSlots) := h.slots
      rw [hslot] at hslots
      have hmiddle : (slot :: (tier.table.slots ++ free)).Perm (tier.table.slots ++ slot :: free) := List.perm_middle.symm
      exact ⟨hmiddle.trans hslots, h.pool, h.bytes⟩
    obtain ⟨hinstalled, hslots⟩ := install_spec hheld (hnew e List.mem_cons_self)
    have hfree' : (install b e slot (b.packed e) { tier with free := free } shared).1.free = free := by
      rw [install, write]
      rcases tier.pool with _ | pool <;> rfl
    obtain ⟨tier', shared', hwarm, hholding⟩ := ih hinstalled hnodup
      (fun x hx => by
        have hne : x ≠ e := fun heq => hfresh (heq ▸ hx)
        rw [← SlotTable.slotOf_eq_none, hslots, if_neg hne, SlotTable.slotOf_eq_none]
        exact hnew x (List.mem_cons_of_mem _ hx))
      (by rw [hfree']; rw [hslot] at hfree; exact Nat.le_of_succ_le_succ hfree)
    refine ⟨tier', shared', ?_, hholding⟩
    rw [List.map_cons, warmAll, htake]
    exact hwarm

theorem warm_spec [Inhabited α] {fails : Nat → Option CucaError} {counts : List Nat} {tier' : TierState α} {shared' : TierShared}
    (hbytes : shared.deviceResidentBytes = other)
    (h : warm b fails counts (TierState.fresh b) shared = .ok (tier', shared')) : Holding b [] other tier' shared' := by
  rw [warm] at h
  split at h
  · cases h
  · rename_i built hbuilt
    have hzip : ((ranked counts).take b.deviceSlots).zip built =
        ((ranked counts).take b.deviceSlots).map fun e => (e, b.packed e) := by
      have hboth (es : List Nat) : (es.map id).zip (es.map b.packed) = es.map fun e => (e, b.packed e) := List.zip_map'
      rw [fetch_ok hbuilt, ← hboth, List.map_id]
    obtain ⟨tier'', shared'', hwarm, hholding⟩ := warmAll_spec counts (fresh_holding b hbytes)
      ((ranked_nodup counts).sublist (List.take_sublist _ _)) (fun e _ => rfl)
      (by rw [TierState.fresh, List.length_range, List.length_take]; exact Nat.min_le_left _ _)
    rw [hzip, hwarm] at h
    obtain ⟨rfl, rfl⟩ := Prod.mk.inj (Except.ok.inj h)
    exact hholding

/-! ## A model's banks -/

variable (α) in
/-- The tiers of a model's banks, and the counters they share. -/
structure System where
  tiers : List (TierState α)
  shared : TierShared

def counters : TierShared := ⟨0, 0, 0⟩

/-- `TierPlan::warm` : bank after bank. -/
def warmBanks [Inhabited α] (fails : Nat → Nat → Option CucaError) (heat : Nat → List Nat) :
    List (TieredBank α) → TierShared → Except CucaError (System α)
  | [], shared => .ok ⟨[], shared⟩
  | b :: banks, shared =>
    match warm b (fails b.il) (heat b.il) (TierState.fresh b) shared with
    | .error error => .error error
    | .ok (tier, shared) =>
      match warmBanks fails heat banks shared with
      | .error error => .error error
      | .ok s => .ok { s with tiers := tier :: s.tiers }

def residentBytes (banks : List (TieredBank α)) (tiers : List (TierState α)) : Nat :=
  ((banks.zip tiers).map fun entry => entry.1.storedBytes * entry.2.table.len).sum

/-- The states after a start, cold or warm, and any passes of any banks. -/
inductive Reachable [Inhabited α] (H R O : Type) (banks : List (TieredBank α)) : System α → Prop
  | cold : Reachable H R O banks ⟨banks.map fun b => TierState.fresh b, counters⟩
  | warm {fails : Nat → Nat → Option CucaError} {heat : Nat → List Nat} {s : System α} :
      warmBanks fails heat banks counters = .ok s → Reachable H R O banks s
  | run {s : System α} {i : Nat} {b : TieredBank α} {tier : TierState α} {c : Call α H R O} {answer : Except CucaError O}
      {w : Walk α R} : Reachable H R O banks s → banks[i]? = some b → s.tiers[i]? = some tier → c.Valid b →
      run b c tier s.shared = some (answer, w) → Reachable H R O banks ⟨s.tiers.set i w.tier, w.shared⟩

variable (b) in
/-- The listed slots and the free ones are those of the bank, and each listed slot holds its expert. -/
structure Tidy (tier : TierState α) : Prop where
  slots : (tier.table.slots ++ tier.free).Perm (List.range b.deviceSlots)
  pool : ∃ pool, tier.pool = some pool ∧ pool.length = b.deviceSlots * b.words ∧
    ∀ e slot, tier.table.slotOf e = some slot → block b.words pool slot = b.packed e

theorem holding_iff : Holding b [] other tier shared ↔
    Tidy b tier ∧ shared.deviceResidentBytes = other + b.storedBytes * tier.table.len :=
  ⟨fun h => ⟨⟨h.slots, h.pool⟩, h.bytes⟩, fun h => ⟨h.1.slots, h.1.pool, h.2⟩⟩

/-- Every bank is tidy, and the bytes are counted. -/
structure Sound (banks : List (TieredBank α)) (s : System α) : Prop where
  tidy : List.Forall₂ Tidy banks s.tiers
  bytes : s.shared.deviceResidentBytes = residentBytes banks s.tiers

theorem residentBytes_set {banks : List (TieredBank α)} {tiers : List (TierState α)} {i : Nat} (hb : banks[i]? = some b)
    (htier : tiers[i]? = some tier) :
    ∃ other, residentBytes banks tiers = other + b.storedBytes * tier.table.len ∧
      ∀ tier', residentBytes banks (tiers.set i tier') = other + b.storedBytes * tier'.table.len := by
  induction banks generalizing tiers i with
  | nil => cases hb
  | cons b' banks ih =>
    rcases tiers with _ | ⟨tier₀, tiers⟩
    · cases htier
    rcases i with _ | i
    · obtain rfl := Option.some.inj hb
      obtain rfl := Option.some.inj htier
      exact ⟨residentBytes banks tiers, Nat.add_comm _ _, fun tier' => Nat.add_comm _ _⟩
    · obtain ⟨other, hbytes, hset⟩ := ih hb htier
      refine ⟨b'.storedBytes * tier₀.table.len + other, ?_, fun tier' => ?_⟩
      · show b'.storedBytes * tier₀.table.len + residentBytes banks tiers = _
        rw [hbytes, Nat.add_assoc]
      · show b'.storedBytes * tier₀.table.len + residentBytes banks (tiers.set i tier') = _
        rw [hset, Nat.add_assoc]

theorem warmBanks_sound [Inhabited α] {fails : Nat → Nat → Option CucaError} {heat : Nat → List Nat}
    {banks : List (TieredBank α)} {before : Nat} {s : System α} (hbytes : shared.deviceResidentBytes = before)
    (h : warmBanks fails heat banks shared = .ok s) :
    List.Forall₂ Tidy banks s.tiers ∧ s.shared.deviceResidentBytes = before + residentBytes banks s.tiers := by
  induction banks generalizing shared before s with
  | nil =>
    obtain rfl := Except.ok.inj h
    exact ⟨.nil, hbytes⟩
  | cons b banks ih =>
    rw [warmBanks] at h
    split at h
    · cases h
    · rename_i tier shared' hwarm
      split at h
      · cases h
      · rename_i s' hrest
        obtain rfl := Except.ok.inj h
        obtain ⟨htidy, hcounted⟩ := holding_iff.mp (warm_spec hbytes hwarm)
        obtain ⟨htidies, hall⟩ := ih hcounted hrest
        refine ⟨.cons htidy htidies, ?_⟩
        rw [hall, Nat.add_assoc]
        rfl

theorem fresh_sound [Inhabited α] (banks : List (TieredBank α)) :
    Sound banks ⟨banks.map fun b => TierState.fresh b, counters⟩ := by
  constructor
  · induction banks with
    | nil => exact .nil
    | cons b banks ih =>
      have hfresh : Holding b [] 0 (TierState.fresh b) counters := fresh_holding b rfl
      exact .cons (holding_iff.mp hfresh).1 ih
  · induction banks with
    | nil => rfl
    | cons b banks ih =>
      show 0 = b.storedBytes * 0 + residentBytes banks (banks.map fun b => TierState.fresh b)
      rw [← show (0 : Nat) = residentBytes banks (banks.map fun b => TierState.fresh b) from ih, Nat.mul_zero]

theorem Sound.run {banks : List (TieredBank α)} {s : System α} (h : Sound banks s) {i : Nat} (hb : banks[i]? = some b)
    (htier : s.tiers[i]? = some tier) (hvalid : c.Valid b) :
    ∃ w, Experts.run b c tier s.shared = some ((match (missing b c tier).findSome? c.fails with
        | some error => .error error
        | none => .ok (residentRun b c)), w) ∧
      Sound banks ⟨s.tiers.set i w.tier, w.shared⟩ ∧ w.asked = asked c.fails (missing b c tier) ∧
      ((missing b c tier).findSome? c.fails = none →
        (w.launches.flatMap fun launch => launch.1.map Prod.fst).Perm (List.range c.experts.length) ∧
        ∀ launch ∈ w.launches, ∀ entry ∈ launch.1,
          ∃ e, c.experts[entry.1]? = some e ∧ block b.words launch.2 entry.2 = b.packed e) := by
  obtain ⟨other, hbytes, hset⟩ := residentBytes_set hb htier
  obtain ⟨b', hb', htidy⟩ := Pointwise.getElem? h.tidy htier
  obtain rfl := Option.some.inj (hb'.symm.trans hb)
  have hholding : Holding b' [] other tier s.shared := holding_iff.mpr ⟨htidy, h.bytes.trans hbytes⟩
  obtain ⟨w, hrun, hholding', hasked, hqueued⟩ := run_spec hvalid hholding
  obtain ⟨htidy, hcounted⟩ := holding_iff.mp hholding'
  exact ⟨w, hrun, ⟨Pointwise.set h.tidy hb htidy, hcounted.trans (hset w.tier).symm⟩, hasked, hqueued⟩

theorem sound_of_reachable [Inhabited α] {banks : List (TieredBank α)} {s : System α} (h : Reachable H R O banks s) :
    Sound banks s := by
  induction h with
  | cold => exact fresh_sound banks
  | warm hwarm =>
    obtain ⟨htidy, hbytes⟩ := warmBanks_sound rfl hwarm
    exact ⟨htidy, hbytes.trans (Nat.zero_add _)⟩
  | run _ hb htier hvalid hrun ih =>
    obtain ⟨w, hrun', hsound, _⟩ := ih.run hb htier hvalid
    obtain ⟨_, rfl⟩ := Prod.mk.inj (Option.some.inj (hrun.symm.trans hrun'))
    exact hsound

theorem missing_rising (b : TieredBank α) (c : Call α H R O) (tier : TierState α) : (missing b c tier).Pairwise (· < ·) :=
  (List.pairwise_lt_range.filter _).filter _

/-- **Tiered banks**: after any start and any passes, whether they failed or not, every bank is tidy and the bytes are
counted; and a pass ends, asks once for each expert that is missing, in order, queues each pair once with a slot that
holds its expert, and answers as a resident bank does unless one of these reads fails. -/
theorem tiered_sound [Inhabited α] {banks : List (TieredBank α)} {s : System α} (h : Reachable H R O banks s) :
    Sound banks s ∧
      ∀ (i : Nat) (b : TieredBank α) (tier : TierState α) (c : Call α H R O), banks[i]? = some b → s.tiers[i]? = some tier →
        c.Valid b →
        ∃ w, run b c tier s.shared = some ((match (missing b c tier).findSome? c.fails with
            | some error => .error error
            | none => .ok (residentRun b c)), w) ∧
          Sound banks ⟨s.tiers.set i w.tier, w.shared⟩ ∧
          (missing b c tier).Pairwise (· < ·) ∧ w.asked = asked c.fails (missing b c tier) ∧
          ((missing b c tier).findSome? c.fails = none →
            w.asked = missing b c tier ∧
            (w.launches.flatMap fun launch => launch.1.map Prod.fst).Perm (List.range c.experts.length) ∧
            ∀ launch ∈ w.launches, ∀ entry ∈ launch.1,
              ∃ e, c.experts[entry.1]? = some e ∧ block b.words launch.2 entry.2 = b.packed e) := by
  refine ⟨sound_of_reachable h, fun i b tier c hb htier hvalid => ?_⟩
  obtain ⟨w, hrun, hsound, hasked, hqueued⟩ := (sound_of_reachable h).run hb htier hvalid
  refine ⟨w, hrun, hsound, missing_rising b c tier, hasked, fun hnone => ⟨?_, hqueued hnone⟩⟩
  rw [hasked, asked_of_none hnone]

def oneSlot : TieredBank Nat := ⟨0, 2, 1, 1, 4, fun e => [e + 10], Nat.zero_lt_one, fun _ => rfl⟩

/-- A token that both experts see. -/
def bothExperts : Call Nat (List Nat) Nat (List Nat) where
  experts := [1, 0]
  kernels := ⟨fun _ packed => packed, fun pair packed hidden => pair + packed.sum + hidden.sum, id⟩
  scratch := [0, 0]
  heat := []
  fails := fun _ => none

theorem tiered_two_groups : ∃ w, run oneSlot bothExperts (TierState.fresh oneSlot) counters = some (.ok [22, 21], w) := by
  obtain ⟨w, hrun, _⟩ := (tiered_sound (.cold : Reachable (List Nat) Nat (List Nat) [oneSlot] _)).2 0
    oneSlot (TierState.fresh oneSlot) bothExperts rfl rfl ⟨by decide, rfl⟩
  exact ⟨w, hrun⟩

end Cuca.Local.Experts
