import Cuca.Services.PromptCache

/-!
# The three structures of the cache

`Mirrors s slots` says that the map and the recency order of `s` hold the same slots, `slots`, oldest first, and that the
bound on the expiries holds. Every operation of the cache is an operation on the list.

* `Mirrors.retain`, `Mirrors.push` : taking slots away, and adding the newest;
* `Mirrors.pruneExpired`, `Mirrors.evict`, `Mirrors.lookup_hit`, `Mirrors.lookup_expired`,
  `Mirrors.store`, `Mirrors.installs` : what the operations make of the list;
* `Mirrors.bijection` : what this says of the map and the order.
-/

namespace Cuca.PromptCache
open PromptDigest Postcard

structure Mirrors (s : PromptCacheState) (slots : List CacheSlot) : Prop where
  entries : s.entries.entries.Perm (slots.map fun slot => ⟨slot.key, slot⟩)
  order : s.lruOrder.entries = slots.map fun slot => (slot.tick, slot.key)
  ticks : ∀ slot ∈ slots, slot.tick < s.nextTick
  named : ∀ slot ∈ slots, slot.entry.key = slot.key
  earliest : ∀ slot ∈ slots, s.earliestExpiry ≤ slot.entry.expiresAtUnixMs

theorem mirrors_empty : Mirrors .empty [] :=
  ⟨.nil, rfl, fun _ h => (List.not_mem_nil h).elim, fun _ h => (List.not_mem_nil h).elim,
    fun _ h => (List.not_mem_nil h).elim⟩

theorem foldl_min_le_init (ns : List Nat) (m : Nat) : ns.foldl min m ≤ m := by
  induction ns generalizing m with
  | nil => exact Nat.le_refl m
  | cons k ns ih => exact (ih _).trans (Nat.min_le_left _ _)

theorem foldl_min_le (ns : List Nat) (m : Nat) {n : Nat} (h : n ∈ ns) : ns.foldl min m ≤ n := by
  induction ns generalizing m with
  | nil => cases h
  | cons k ns ih =>
    rw [List.foldl_cons]
    rcases List.mem_cons.mp h with rfl | hmem
    · exact (foldl_min_le_init ns _).trans (Nat.min_le_right _ _)
    · exact ih _ hmem

namespace Mirrors
variable {s : PromptCacheState} {slots : List CacheSlot}

/-! ## What the list says -/

theorem keys_nodup (h : Mirrors s slots) : (slots.map (·.key)).Nodup := by
  have hnodup := s.entries.nodupKeys
  rw [List.perm_nodupKeys h.entries] at hnodup
  simpa [List.NodupKeys, List.keys, Function.comp_def] using hnodup

theorem ticks_nodup (h : Mirrors s slots) : (slots.map (·.tick)).Nodup := by
  have hsorted := s.lruOrder.sorted
  rw [h.order, List.pairwise_map] at hsorted
  rw [List.Nodup, List.pairwise_map]
  exact hsorted.imp fun hlt => hlt.ne

theorem eq_of_key (h : Mirrors s slots) {a b : CacheSlot} (ha : a ∈ slots) (hb : b ∈ slots) (heq : a.key = b.key) :
    a = b := List.inj_on_of_nodup_map h.keys_nodup ha hb heq

theorem eq_of_tick (h : Mirrors s slots) {a b : CacheSlot} (ha : a ∈ slots) (hb : b ∈ slots) (heq : a.tick = b.tick) :
    a = b := List.inj_on_of_nodup_map h.ticks_nodup ha hb heq

theorem len_eq (h : Mirrors s slots) : s.len = slots.length := by
  unfold PromptCacheState.len
  rw [h.entries.length_eq, List.length_map]

theorem lookup_iff (h : Mirrors s slots) {key : String} {slot : CacheSlot} :
    s.entries.lookup key = some slot ↔ slot ∈ slots ∧ slot.key = key := by
  rw [← Option.mem_def, AList.mem_lookup_iff, h.entries.mem_iff, List.mem_map]
  constructor
  · rintro ⟨slot', hmem, heq⟩
    cases heq
    exact ⟨hmem, rfl⟩
  · rintro ⟨hmem, rfl⟩
    exact ⟨slot, hmem, rfl⟩

theorem lookup_none (h : Mirrors s slots) {key : String} :
    s.entries.lookup key = none ↔ ∀ slot ∈ slots, slot.key ≠ key := by
  constructor
  · intro hnone slot hslot hkey
    rw [h.lookup_iff.mpr ⟨hslot, hkey⟩] at hnone
    cases hnone
  · intro hall
    cases hfound : s.entries.lookup key with
    | none => rfl
    | some slot =>
      obtain ⟨hmem, hkey⟩ := h.lookup_iff.mp hfound
      exact absurd hkey (hall slot hmem)

theorem below (h : Mirrors s slots) : ∀ e ∈ s.lruOrder.entries, e.1 < s.nextTick := by
  rw [h.order]
  intro e he
  obtain ⟨slot, hslot, rfl⟩ := List.mem_map.mp he
  exact h.ticks slot hslot

theorem residents_eq (h : Mirrors s slots) : s.residents = slots.map (·.entry) := by
  unfold PromptCacheState.residents SortedMap.values
  rw [h.order, List.map_map, List.filterMap_map]
  have hall : ∀ slot ∈ slots, (s.entries.lookup slot.key).map (·.entry) = some slot.entry := by
    intro slot hslot
    rw [h.lookup_iff.mpr ⟨hslot, rfl⟩]
    rfl
  rw [← List.filterMap_eq_map]
  exact List.filterMap_congr hall

/-- **The map and the order are in bijection.** -/
theorem bijection (h : Mirrors s slots) :
    (∀ key slot, s.entries.lookup key = some slot → (slot.tick, key) ∈ s.lruOrder.entries) ∧
      ∀ tick key, (tick, key) ∈ s.lruOrder.entries → ∃ slot, s.entries.lookup key = some slot ∧ slot.tick = tick := by
  rw [h.order]
  constructor
  · intro key slot hfound
    obtain ⟨hmem, rfl⟩ := h.lookup_iff.mp hfound
    exact List.mem_map.mpr ⟨slot, hmem, rfl⟩
  · intro tick key hmem
    obtain ⟨slot, hslot, heq⟩ := List.mem_map.mp hmem
    cases heq
    exact ⟨slot, h.lookup_iff.mpr ⟨hslot, rfl⟩, rfl⟩

/-! ## Taking away and adding -/

theorem retain (h : Mirrors s slots) (p : CacheSlot → Bool) {entries : AList fun _ : String => CacheSlot}
    {lruOrder : SortedMap Nat String} {earliestExpiry : Nat}
    (hentries : entries.entries = s.entries.entries.filter fun e => p e.2)
    (horder : lruOrder.entries = s.lruOrder.entries.filter fun e => (slots.filter p).any (·.tick = e.1))
    (hearliest : ∀ slot ∈ slots.filter p, earliestExpiry ≤ slot.entry.expiresAtUnixMs) :
    Mirrors ⟨entries, lruOrder, s.nextTick, earliestExpiry⟩ (slots.filter p) where
  entries := by
    rw [hentries]
    refine (h.entries.filter _).trans ?_
    rw [List.filter_map]
    exact .rfl
  order := by
    rw [horder, h.order, List.filter_map]
    congr 1
    refine List.filter_congr fun slot hslot => ?_
    rw [Bool.eq_iff_iff, Function.comp_apply, List.any_eq_true]
    constructor
    · rintro ⟨slot', hslot', htick⟩
      obtain ⟨hmem, hp⟩ := List.mem_filter.mp hslot'
      rwa [← h.eq_of_tick hmem hslot (by simpa using htick)]
    · intro hp
      exact ⟨slot, List.mem_filter.mpr ⟨hslot, hp⟩, by simp⟩
  ticks slot hslot := h.ticks slot (List.mem_of_mem_filter hslot)
  named slot hslot := h.named slot (List.mem_of_mem_filter hslot)
  earliest := hearliest

theorem erase (h : Mirrors s slots) {slot : CacheSlot} (hslot : slot ∈ slots) :
    Mirrors { s with entries := s.entries.erase slot.key, lruOrder := s.lruOrder.erase slot.tick }
      (slots.filter (·.key ≠ slot.key)) := by
  refine h.retain (·.key ≠ slot.key) ?_ ?_ fun slot' hslot' => h.earliest slot' (List.mem_of_mem_filter hslot')
  · rw [Assoc.entries_erase]
    refine List.filter_congr fun e he => ?_
    obtain ⟨slot', -, rfl⟩ := List.mem_map.mp (h.entries.mem_iff.mp he)
    rfl
  · rw [SortedMap.entries_erase, h.order]
    refine List.filter_congr fun e he => ?_
    obtain ⟨slot', hslot', rfl⟩ := List.mem_map.mp he
    rw [Bool.eq_iff_iff, List.any_eq_true]
    constructor
    · intro hne
      refine ⟨slot', List.mem_filter.mpr ⟨hslot', ?_⟩, by simp⟩
      have hkey : slot'.key ≠ slot.key := fun heq => by
        rw [h.eq_of_key hslot' hslot heq] at hne
        simp at hne
      simpa using hkey
    · rintro ⟨slot'', hslot'', htick⟩
      obtain ⟨hmem, hkey⟩ := List.mem_filter.mp hslot''
      obtain rfl := h.eq_of_tick hmem hslot' (by simpa using htick)
      have hne : slot''.tick ≠ slot.tick := fun heq => by
        rw [h.eq_of_tick hmem hslot heq] at hkey
        simp at hkey
      simpa using hne

theorem push (h : Mirrors s slots) {entry : PromptCacheEntry} {key : String} (hkey : entry.key = key)
    (hfresh : ∀ slot ∈ slots, slot.key ≠ key) {earliestExpiry : Nat} (hbound : earliestExpiry ≤ s.earliestExpiry)
    (hexpiry : earliestExpiry ≤ entry.expiresAtUnixMs) :
    Mirrors ⟨s.entries.insert key ⟨entry, s.nextTick, key⟩, s.lruOrder.insert s.nextTick key, s.nextTick + 1,
      earliestExpiry⟩ (slots ++ [⟨entry, s.nextTick, key⟩]) where
  entries := by
    have habsent : key ∉ s.entries := AList.lookup_eq_none.mp (h.lookup_none.mpr hfresh)
    rw [AList.entries_insert_of_notMem habsent, List.map_append]
    exact (h.entries.cons _).trans (List.perm_append_singleton _ _).symm
  order := by
    show (s.lruOrder.insert _ _).entries = _
    rw [SortedMap.insert_last _ h.below, h.order, List.map_append]
    rfl
  ticks slot hslot := by
    rcases List.mem_append.mp hslot with hold | hnew
    · exact (h.ticks slot hold).trans (Nat.lt_succ_self _)
    · obtain rfl := List.mem_singleton.mp hnew
      exact Nat.lt_succ_self _
  named slot hslot := by
    rcases List.mem_append.mp hslot with hold | hnew
    · exact h.named slot hold
    · obtain rfl := List.mem_singleton.mp hnew
      exact hkey
  earliest slot hslot := by
    rcases List.mem_append.mp hslot with hold | hnew
    · exact hbound.trans (h.earliest slot hold)
    · obtain rfl := List.mem_singleton.mp hnew
      exact hexpiry

/-! ## The operations -/

/-- **The sweep**: skipping it on the bound leaves nothing that has expired. -/
theorem pruneExpired (h : Mirrors s slots) (now : Nat) :
    Mirrors (s.pruneExpired now) (slots.filter (now < ·.entry.expiresAtUnixMs)) := by
  unfold PromptCacheState.pruneExpired
  by_cases hbound : now < s.earliestExpiry
  · have hlive : slots.filter (now < ·.entry.expiresAtUnixMs) = slots := by
      refine List.filter_eq_self.mpr fun slot hslot => ?_
      have := h.earliest slot hslot
      simp only [decide_eq_true_eq]
      omega
    rw [if_pos hbound, hlive]
    exact h
  · rw [if_neg hbound]
    refine h.retain (now < ·.entry.expiresAtUnixMs) rfl ?_ ?_
    · rw [SortedMap.entries_foldl_erase, h.order]
      refine List.filter_congr fun e he => ?_
      obtain ⟨slot, hslot, rfl⟩ := List.mem_map.mp he
      rw [Bool.eq_iff_iff, List.any_eq_true, decide_eq_true_eq]
      constructor
      · intro hkept
        refine ⟨slot, List.mem_filter.mpr ⟨hslot, ?_⟩, by simp⟩
        by_contra hexpired
        refine hkept (List.mem_map.mpr ⟨⟨slot.key, slot⟩, List.mem_filter.mpr ⟨?_, ?_⟩, rfl⟩)
        · exact h.entries.mem_iff.mpr (List.mem_map.mpr ⟨slot, hslot, rfl⟩)
        · simpa using hexpired
      · rintro ⟨slot', hslot', htick⟩ hexpired
        obtain ⟨hmem', hlive⟩ := List.mem_filter.mp hslot'
        obtain ⟨e, he, heq⟩ := List.mem_map.mp hexpired
        obtain ⟨hmem, hold⟩ := List.mem_filter.mp he
        obtain ⟨slot'', hmem'', rfl⟩ := List.mem_map.mp (h.entries.mem_iff.mp hmem)
        obtain rfl := h.eq_of_tick hmem' hmem'' ((by simpa using htick : slot'.tick = slot.tick).trans heq.symm)
        simp only [decide_eq_true_eq] at hlive hold
        omega
    · intro slot hslot
      obtain ⟨hmem, hlive⟩ := List.mem_filter.mp hslot
      refine foldl_min_le _ _ (List.mem_map.mpr ⟨⟨slot.key, slot⟩, List.mem_filter.mpr ⟨?_, hlive⟩, rfl⟩)
      exact h.entries.mem_iff.mpr (List.mem_map.mpr ⟨slot, hmem, rfl⟩)

theorem popOldest {slot : CacheSlot} (h : Mirrors s (slot :: slots)) {lruOrder : SortedMap Nat String}
    (hpop : s.lruOrder.entries = (slot.tick, slot.key) :: lruOrder.entries) :
    Mirrors { s with entries := s.entries.erase slot.key, lruOrder := lruOrder } slots := by
  have hkeys := h.keys_nodup
  have hticks := h.ticks_nodup
  rw [List.map_cons, List.nodup_cons] at hkeys hticks
  have hrest : (slot :: slots).filter (·.key ≠ slot.key) = slots := by
    rw [List.filter_cons_of_neg (by simp), List.filter_eq_self]
    intro slot' hslot'
    have hne : slot'.key ≠ slot.key := fun heq => hkeys.1 (heq ▸ List.mem_map_of_mem hslot')
    simpa using hne
  have horder : s.lruOrder.erase slot.tick = lruOrder := by
    apply SortedMap.ext
    have htail : lruOrder.entries = slots.map fun slot => (slot.tick, slot.key) := by
      have := h.order
      rw [hpop, List.map_cons] at this
      exact (List.cons.inj this).2
    rw [SortedMap.entries_erase, hpop, List.filter_cons_of_neg (by simp), List.filter_eq_self, htail]
    intro e he
    obtain ⟨slot', hslot', rfl⟩ := List.mem_map.mp he
    have hne : slot'.tick ≠ slot.tick := fun heq => hticks.1 (heq ▸ List.mem_map_of_mem hslot')
    simpa using hne
  have := h.erase (List.mem_cons_self ..)
  rwa [hrest, horder] at this

theorem evict (capacity : Nat) : ∀ (rounds : Nat) {s : PromptCacheState} {slots : List CacheSlot}, Mirrors s slots →
    slots.length ≤ capacity + rounds → Mirrors (s.evict capacity rounds) (slots.drop (slots.length - capacity)) := by
  intro rounds
  induction rounds with
  | zero =>
    intro s slots h hrounds
    rw [show slots.length - capacity = 0 by omega, List.drop_zero]
    exact h
  | succ rounds ih =>
    intro s slots h hrounds
    unfold PromptCacheState.evict
    by_cases hover : capacity < s.len
    · rw [if_pos hover]
      rw [h.len_eq] at hover
      cases slots with
      | nil => exact absurd hover (Nat.not_lt_zero _)
      | cons slot slots =>
        cases hpop : s.lruOrder.popFirst with
        | none =>
          have hempty := h.order
          rw [SortedMap.popFirst_none.mp hpop] at hempty
          cases hempty
        | some popped =>
          obtain ⟨⟨tick, oldest⟩, lruOrder⟩ := popped
          have hentries := SortedMap.popFirst_some.mp hpop
          obtain ⟨rfl, rfl⟩ : tick = slot.tick ∧ oldest = slot.key := by
            have horder := h.order
            rw [hentries, List.map_cons] at horder
            exact Prod.mk.inj (List.cons.inj horder).1
          rw [List.length_cons] at hrounds hover ⊢
          rw [show slots.length + 1 - capacity = slots.length - capacity + 1 by omega, List.drop_succ_cons]
          exact ih (h.popOldest hentries) (by omega)
    · rw [if_neg hover]
      rw [h.len_eq] at hover
      rw [show slots.length - capacity = 0 by omega, List.drop_zero]
      exact h

theorem fresh (slots : List CacheSlot) (key : String) : ∀ slot ∈ slots.filter (·.key ≠ key), slot.key ≠ key :=
  fun _ hslot => by simpa using (List.mem_filter.mp hslot).2

theorem lookup_hit (h : Mirrors s slots) {slot : CacheSlot} (hslot : slot ∈ slots) {now : Nat}
    (hlive : now < slot.entry.expiresAtUnixMs) :
    (s.lookup now slot.key).1 =
        some { slot.entry with lruRank := (slots.filter (·.key ≠ slot.key)).length } ∧
      Mirrors (s.lookup now slot.key).2
        (slots.filter (·.key ≠ slot.key) ++ [⟨slot.entry, s.nextTick, slot.key⟩]) := by
  have hpushed := (h.erase hslot).push (h.named slot hslot) (fresh slots slot.key) (Nat.le_refl s.earliestExpiry)
    (h.earliest slot hslot)
  simp only [Assoc.insert_erase] at hpushed
  unfold PromptCacheState.lookup
  simp only [h.lookup_iff.mpr ⟨hslot, rfl⟩, if_neg (Nat.not_le.mpr hlive), PromptCacheState.pushRecent]
  refine ⟨?_, hpushed⟩
  have hlength := congrArg List.length hpushed.order
  rw [List.length_map, List.length_append, List.length_singleton] at hlength
  rw [hlength, Nat.add_sub_cancel]

theorem lookup_expired (h : Mirrors s slots) {slot : CacheSlot} (hslot : slot ∈ slots) {now : Nat}
    (hexpired : slot.entry.expiresAtUnixMs ≤ now) :
    (s.lookup now slot.key).1 = none ∧ Mirrors (s.lookup now slot.key).2 (slots.filter (·.key ≠ slot.key)) := by
  unfold PromptCacheState.lookup
  simp only [h.lookup_iff.mpr ⟨hslot, rfl⟩, if_pos hexpired]
  exact ⟨trivial, h.erase hslot⟩

theorem store (h : Mirrors s slots) (config : PromptCacheConfig) (now : Nat) (key : String) (request : UnifiedRequest)
    (response : UnifiedResponse) :
    ∃ slot : CacheSlot, slot.entry = ⟨key, request, response, now, config.expiresAt now, 0⟩ ∧
      let stored := (slots.filter (now < ·.entry.expiresAtUnixMs)).filter (·.key ≠ key) ++ [slot]
      Mirrors (s.store config now key request response) (stored.drop (stored.length - config.capacity)) := by
  have hpruned := h.pruneExpired now
  refine ⟨⟨⟨key, request, response, now, config.expiresAt now, 0⟩, (s.pruneExpired now).nextTick, key⟩, rfl, ?_⟩
  unfold PromptCacheState.store
  generalize s.pruneExpired now = pruned at hpruned ⊢
  generalize slots.filter (now < ·.entry.expiresAtUnixMs) = live at hpruned ⊢
  have hevict {stored : PromptCacheState} {kept : List CacheSlot} (hstored : Mirrors stored kept) :
      Mirrors (stored.evict config.capacity stored.lruOrder.entries.length) (kept.drop (kept.length - config.capacity)) := by
    have hlength := congrArg List.length hstored.order
    rw [List.length_map] at hlength
    exact hstored.evict _ _ (hlength.ge.trans (Nat.le_add_left _ _))
  apply hevict
  -- what is stored is a push onto the slots of the other keys
  cases hfound : pruned.entries.lookup key with
  | none =>
    have hall : live.filter (·.key ≠ key) = live :=
      List.filter_eq_self.mpr fun slot hslot => by simpa using hpruned.lookup_none.mp hfound slot hslot
    rw [hall]
    exact hpruned.push (show _ = key from rfl) (hpruned.lookup_none.mp hfound) (Nat.min_le_left _ _)
      (Nat.min_le_right _ _)
  | some replaced =>
    obtain ⟨hmem, rfl⟩ := hpruned.lookup_iff.mp hfound
    have hlast : pruned.nextTick ≠ replaced.tick := (hpruned.ticks replaced hmem).ne'
    have hpushed := (hpruned.erase hmem).push
      (show (⟨replaced.key, request, response, now, config.expiresAt now, 0⟩ : PromptCacheEntry).key = _ from rfl)
      (fresh live replaced.key) (Nat.min_le_left pruned.earliestExpiry (config.expiresAt now)) (Nat.min_le_right _ _)
    simp only [Assoc.insert_erase, ← SortedMap.erase_insert_last _ hpruned.below hlast] at hpushed
    exact hpushed

theorem installs (entries : List PromptCacheEntry) : ∀ {s : PromptCacheState} {slots : List CacheSlot}, Mirrors s slots →
    (entries.map (·.key)).Nodup → (∀ slot ∈ slots, slot.key ∉ entries.map (·.key)) →
    ∃ installed : List CacheSlot, installed.map (·.entry) = entries ∧
      Mirrors (entries.foldl PromptCacheState.install s) (slots ++ installed) := by
  induction entries with
  | nil =>
    intro s slots h _ _
    refine ⟨[], rfl, ?_⟩
    rwa [List.append_nil]
  | cons entry entries ih =>
    intro s slots h hnodup hfresh
    rw [List.map_cons, List.nodup_cons] at hnodup
    have hpushed := h.push (show entry.key = entry.key from rfl)
      (fun slot hslot heq => hfresh slot hslot (heq ▸ List.mem_cons_self ..))
      (Nat.min_le_left s.earliestExpiry entry.expiresAtUnixMs) (Nat.min_le_right _ _)
    obtain ⟨installed, hentries, hlast⟩ := ih hpushed hnodup.2 fun slot hslot hmem => by
      rcases List.mem_append.mp hslot with hold | hnew
      · exact hfresh slot hold (List.mem_cons_of_mem _ hmem)
      · obtain rfl := List.mem_singleton.mp hnew
        exact hnodup.1 hmem
    refine ⟨⟨entry, s.nextTick, entry.key⟩ :: installed, by rw [List.map_cons, hentries], ?_⟩
    rw [List.append_assoc] at hlast
    exact hlast

end Mirrors
end Cuca.PromptCache
