import Cuca.Services.PromptCache

/-!
# Valid snapshots

* `Sound` : what is required of a snapshot;
* `validateSnapshot_ok` : the checks accept exactly that;
* `renumber` : its ranks and its keys.
-/

namespace Cuca.PromptCache
open PromptDigest Postcard

variable {numberText : Number → List Char} {sha256 : Bytes → Vector UInt8 32}

/-- What is required of one entry. -/
structure EntrySound (numberText : Number → List Char) (sha256 : Bytes → Vector UInt8 32) (entry : PromptCacheEntry) :
    Prop where
  shape : isLowercaseSha256Hex entry.key = true
  times : entry.storedAtUnixMs < entry.expiresAtUnixMs
  digest : digestRequest numberText sha256 entry.request = .ok entry.key

/-- What is required of a snapshot: sound entries under distinct keys, whose ranks are `0`, `1` and so on. -/
structure Sound (numberText : Number → List Char) (sha256 : Bytes → Vector UInt8 32) (snapshot : PromptCacheSnapshot) :
    Prop where
  entries : ∀ entry ∈ snapshot, EntrySound numberText sha256 entry
  keys : (snapshot.map (·.key)).Nodup
  ranks : (snapshot.map (·.lruRank)).Perm (List.range snapshot.length)

/-! ## The checks -/

theorem validateEntries_cons {entry : PromptCacheEntry} {entries : List PromptCacheEntry} {seenKeys : List String}
    {seenRanks ranks : List Nat} :
    validateEntries numberText sha256 seenKeys seenRanks (entry :: entries) = .ok ranks ↔
      EntrySound numberText sha256 entry ∧ entry.key ∉ seenKeys ∧ entry.lruRank ∉ seenRanks ∧
        validateEntries numberText sha256 (entry.key :: seenKeys) (entry.lruRank :: seenRanks) entries = .ok ranks := by
  constructor
  · intro h
    unfold validateEntries at h
    split at h
    · cases h
    · rename_i hshape
      split at h
      · cases h
      · rename_i hkey
        split at h
        · cases h
        · rename_i htimes
          split at h
          · cases h
          · rename_i expectedKey hdigest
            split_ifs at h with hexpected hrank
            refine ⟨⟨by simpa using hshape, by omega, ?_⟩, hkey, hrank, h⟩
            rw [hdigest, not_not.mp hexpected]
  · rintro ⟨⟨hshape, htimes, hdigest⟩, hkey, hrank, h⟩
    unfold validateEntries
    rw [if_neg (by simpa using hshape), if_neg hkey, if_neg (by omega), hdigest]
    simp only [ne_eq, not_true_eq_false, if_false, hrank, h]

theorem validateEntries_ok {entries : List PromptCacheEntry} {seenKeys : List String} {seenRanks ranks : List Nat} :
    validateEntries numberText sha256 seenKeys seenRanks entries = .ok ranks ↔
      (∀ entry ∈ entries, EntrySound numberText sha256 entry) ∧
        (entries.map (·.key)).Nodup ∧ (∀ entry ∈ entries, entry.key ∉ seenKeys) ∧
        (entries.map (·.lruRank)).Nodup ∧ (∀ entry ∈ entries, entry.lruRank ∉ seenRanks) ∧
        ranks = (entries.map (·.lruRank)).reverse ++ seenRanks := by
  induction entries generalizing seenKeys seenRanks with
  | nil =>
    rw [validateEntries]
    simp [eq_comm]
  | cons entry entries ih =>
    rw [validateEntries_cons, ih]
    simp only [List.map_cons, List.nodup_cons, List.forall_mem_cons]
    simp only [List.mem_cons, not_or, List.mem_map, not_exists, not_and, List.reverse_cons, List.append_assoc,
      List.singleton_append]
    constructor
    · rintro ⟨hsound, hkey, hrank, hrest, hkeys, hfresh, hranks, hfreshRank, hseen⟩
      exact ⟨⟨hsound, hrest⟩, ⟨fun e he heq => (hfresh e he).1 heq, hkeys⟩, ⟨hkey, fun e he => (hfresh e he).2⟩,
        ⟨fun e he heq => (hfreshRank e he).1 heq, hranks⟩, ⟨hrank, fun e he => (hfreshRank e he).2⟩, hseen⟩
    · rintro ⟨⟨hsound, hrest⟩, ⟨hkeyFresh, hkeys⟩, ⟨hkey, hfresh⟩, ⟨hrankFresh, hranks⟩, ⟨hrank, hfreshRank⟩, hseen⟩
      exact ⟨hsound, hkey, hrank, hrest, hkeys, fun e he => ⟨hkeyFresh e he, hfresh e he⟩, hranks,
        fun e he => ⟨hrankFresh e he, hfreshRank e he⟩, hseen⟩

theorem perm_range_iff {ranks : List Nat} :
    ranks.Perm (List.range ranks.length) ↔ ranks.Nodup ∧ ∀ rank ∈ ranks, rank < ranks.length := by
  constructor
  · intro h
    exact ⟨h.nodup_iff.mpr List.nodup_range, fun rank hrank => List.mem_range.mp (h.mem_iff.mp hrank)⟩
  · rintro ⟨hnodup, hbelow⟩
    refine (List.subperm_of_subset hnodup fun rank hrank => List.mem_range.mpr (hbelow rank hrank)).perm_of_length_le ?_
    rw [List.length_range]

theorem validateSnapshot_ok {snapshot : PromptCacheSnapshot} :
    validateSnapshot numberText sha256 snapshot = .ok () ↔ Sound numberText sha256 snapshot := by
  have hranks := @perm_range_iff (snapshot.map (·.lruRank))
  rw [List.length_map] at hranks
  unfold validateSnapshot
  constructor
  · intro h
    split at h
    · cases h
    · rename_i seen hseen
      obtain ⟨hentries, hkeys, -, hnodup, -, rfl⟩ := validateEntries_ok.mp hseen
      split_ifs at h with hbelow
      refine ⟨hentries, hkeys, hranks.mpr ⟨hnodup, ?_⟩⟩
      simpa using hbelow
  · rintro ⟨hentries, hkeys, hperm⟩
    obtain ⟨hnodup, hbelow⟩ := hranks.mp hperm
    rw [validateEntries_ok.mpr ⟨hentries, hkeys, by simp, hnodup, by simp, rfl⟩]
    refine if_neg ?_
    simpa using hbelow

/-! ## Ranks -/

open PromptCacheState

theorem map_renumber {β : Type*} (f : PromptCacheEntry → β) (hf : ∀ entry rank, f { entry with lruRank := rank } = f entry)
    (entries : List PromptCacheEntry) : (renumber entries).map f = entries.map f := by
  unfold renumber
  rw [List.map_map]
  conv_rhs => rw [← List.zipIdx_map_fst 0 entries, List.map_map]
  exact List.map_congr_left fun e _ => hf e.1 e.2

theorem map_lruRank_renumber (entries : List PromptCacheEntry) :
    (renumber entries).map (·.lruRank) = List.range entries.length := by
  unfold renumber
  rw [List.map_map, List.range_eq_range']
  exact (List.map_congr_left fun e _ => rfl).trans (List.zipIdx_map_snd 0 entries)

theorem length_renumber (entries : List PromptCacheEntry) : (renumber entries).length = entries.length := by
  unfold renumber
  rw [List.length_map, List.length_zipIdx]

end Cuca.PromptCache
