import Cuca.Local.Model.RamTier

/-!
# What a pass of the RAM tier keeps

* `Sound` : the tier is within its slots, its bytes are counted, and what is queued is not resident;
* `Running` : the queue, requests in flight before those that are pending, is ascending and has all that is missing;
* `Stopped` : from the first request that is refused on, there is room left and nothing new is in flight;
* `issueStep_cases`, `issue_spec` : the loop that makes requests; `next_spec` : an expert of a pass;
* `walk_sound` : a whole pass.
-/

namespace Cuca.Local.Experts.SlotTable
variable {table : SlotTable} {e e' slot : Nat}

theorem length_keys : table.entries.keys.length = table.len := List.length_map _

theorem contains_insert : (table.insert e slot).contains e' = true ↔ e' = e ∨ table.contains e' = true := by
  rw [contains_iff, contains_iff, slotOf_insert]
  split
  case isTrue h => simp [h]
  case isFalse h => simp [h]

theorem contains_remove : (table.remove e).2.contains e' = true ↔ e' ≠ e ∧ table.contains e' = true := by
  rw [contains_iff, contains_iff, slotOf_remove]
  split
  case isTrue h => simp [h]
  case isFalse h => simp [h]

theorem contains_of_len_eq_zero (h : table.len = 0) : table.contains e = false := by
  rw [contains, decide_eq_false_iff_not]
  intro he
  rw [← length_keys] at h
  have hmem : e ∈ table.entries.keys := he
  rw [List.eq_nil_of_length_eq_zero h] at hmem
  cases hmem

theorem contains_get : (table.get e).2.contains e' = table.contains e' := by
  apply Bool.eq_iff_iff.mpr
  rw [contains_iff, contains_iff, slotOf_get]

theorem contains_of_victim {heat keep : List Nat} {v : Nat} (h : table.victim heat keep = some v) : table.contains v = true := by
  rw [victim] at h
  apply decide_eq_true
  rcases Option.or_eq_some_iff.mp h with hcold | ⟨_, hlast⟩
  · obtain ⟨entry, hentry, rfl⟩ := Option.map_eq_some_iff.mp hcold
    exact List.mem_keys_of_mem (List.mem_filter.mp (Selection.firstLeast_mem hentry)).1
  · exact List.max?_mem hlast

theorem victim_isSome (heat keep : List Nat) (h : 0 < table.len) : ∃ v, table.victim heat keep = some v := by
  have hkeys : table.entries.keys ≠ [] := by
    intro hnil
    rw [← length_keys, hnil] at h
    exact Nat.lt_irrefl 0 h
  rcases hcold : (Selection.firstLeast (colder heat) (table.entries.entries.filter fun entry => entry.1 ∉ keep)).map (·.1) with _ | v
  · obtain ⟨v, hv⟩ := Option.ne_none_iff_exists'.mp fun hnone => hkeys (List.max?_eq_none_iff.mp hnone)
    exact ⟨v, by rw [victim, hcold, hv]; rfl⟩
  · exact ⟨v, by rw [victim, hcold]; rfl⟩

end Cuca.Local.Experts.SlotTable

namespace Cuca.Local.RamTier
open Experts Model

variable (s : ExpertStore) (table : SlotTable) (other : Nat)

/-! ## What holds throughout -/

def Refused (asked : List (Nat × Moment)) : Prop := ∃ k < asked.length, s.loader.stopped k = true

def Answers (asked : List (Nat × Moment)) (e : Nat) (reply : Reply) : Prop :=
  ∃ k m, asked[k]? = some (e, m) ∧ s.loader.stopped k = false ∧ s.loader.reply k e = reply

/-- What the pass may be given for an expert: what was resident of it from the start, or what one of its reads built, or
the error of one of these; once the threads have stopped, that they have. -/
def Delivered (asked : List (Nat × Moment)) (e : Nat) : Except CucaError Nat → Prop
  | .ok value => table.slotOf e = some value ∨ ∃ bytes, Answers s asked e (.ok (value, bytes))
  | .error error => Answers s asked e (.error error) ∨ error = stoppedError ∧ Refused s asked

/-- The slots suffice, and the bytes are those of the resident experts, besides those of the other layers. -/
def Moment.Bounded (m : Moment) : Prop :=
  (0 < s.ramSlots → m.resident.length + m.inFlight.length ≤ s.ramSlots) ∧ (s.ramSlots = 0 → m.resident.length = 0) ∧
    m.bytes = other + s.storedBytes * m.resident.length

def Pass.queue (w : Pass) : List Nat := w.flying ++ w.pending

structure Sound (w : Pass) : Prop where
  now : w.moment.Bounded s other
  distinct : w.queue.Nodup
  apart : ∀ e ∈ w.queue, w.table.contains e = false
  failed : ∀ error, w.failed = some error → error = stoppedError ∧ Refused s w.asked
  resident : ∀ e value, w.table.slotOf e = some value → Delivered s table w.asked e (.ok value)
  reads : ∀ e reply, (e, reply) ∈ w.inFlight → Answers s w.asked e reply
  moments : ∀ m ∈ w.moments, m.Bounded s other
  asked : ∀ q ∈ w.asked, q.1 ∉ q.2.resident ∧ q.1 ∉ q.2.inFlight

/-- While the threads run, the queue is ascending and has those experts of `due` that are not resident, and no others. -/
structure Running (due : List Nat) (w : Pass) : Prop where
  taken : ¬ Refused s w.asked
  rising : w.queue.Pairwise (· < ·)
  within : ∀ e ∈ w.queue, e ∈ due
  cover : ∀ e ∈ due, e ∈ w.queue ∨ w.table.contains e = true

def ExpertStore.limit : Nat := if s.ramSlots = 0 then min s.loaderThreads (2 * s.loaderThreads) else 2 * s.loaderThreads

/-- After a request was refused, the slot that was made free for it stays free. -/
structure Stopped (w : Pass) : Prop where
  refused : Refused s w.asked
  room : 0 < s.ramSlots → w.table.len + w.inFlight.length < s.ramSlots
  limit : w.inFlight.length < s.limit

variable {s table other} {w w' : Pass} {due : List Nat} {e : Nat} {asked asked' : List (Nat × Moment)}

theorem limit_pos : 0 < s.limit := by
  have hthreads : 0 < s.loaderThreads := Nat.lt_of_lt_of_le Nat.zero_lt_one (Nat.le_max_right _ _)
  rw [ExpertStore.limit]
  split <;> omega

theorem stopped_mono {k k' : Nat} (h : s.loader.stopped k = true) (hle : k ≤ k') : s.loader.stopped k' = true := by
  rw [Loader.stopped, Option.any_eq_true] at h ⊢
  obtain ⟨first, hfirst, hstopped⟩ := h
  exact ⟨first, hfirst, decide_eq_true (Nat.le_trans (of_decide_eq_true hstopped) hle)⟩

theorem Refused.mono (h : Refused s asked) (hpre : asked <+: asked') : Refused s asked' := by
  obtain ⟨k, hk, hstopped⟩ := h
  exact ⟨k, Nat.lt_of_lt_of_le hk hpre.length_le, hstopped⟩

theorem Answers.mono {reply : Reply} (h : Answers s asked e reply) (hpre : asked <+: asked') : Answers s asked' e reply := by
  obtain ⟨k, m, hk, htaken, hreply⟩ := h
  obtain ⟨more, rfl⟩ := hpre
  obtain ⟨hlt, hget⟩ := List.getElem?_eq_some_iff.mp hk
  exact ⟨k, m, by rw [List.getElem?_append_left hlt, hk], htaken, hreply⟩

theorem Delivered.mono {result : Except CucaError Nat} (h : Delivered s table asked e result) (hpre : asked <+: asked') :
    Delivered s table asked' e result := by
  rcases result with error | value
  · rcases h with hread | ⟨hstopped, hrefused⟩
    · exact .inl (hread.mono hpre)
    · exact .inr ⟨hstopped, hrefused.mono hpre⟩
  · rcases h with hthere | ⟨bytes, hread⟩
    · exact .inl hthere
    · exact .inr ⟨bytes, hread.mono hpre⟩

theorem bounded_moment : w.moment.Bounded s other ↔
    (0 < s.ramSlots → w.table.len + w.inFlight.length ≤ s.ramSlots) ∧ (s.ramSlots = 0 → w.table.len = 0) ∧
      w.shared.ramResidentBytes = other + s.storedBytes * w.table.len := by
  rw [Moment.Bounded, Pass.moment, Pass.flying, SlotTable.length_keys, List.length_map]

theorem Sound.seen (h : Sound s table other w) : Sound s table other w.seen where
  now := h.now
  distinct := h.distinct
  apart := h.apart
  failed := h.failed
  resident := h.resident
  reads := h.reads
  moments := by
    intro m hm
    rcases List.mem_append.mp hm with hm | hm
    · exact h.moments m hm
    · rw [List.mem_singleton.mp hm]
      exact h.now
  asked := h.asked

theorem Sound.requeue (h : Sound s table other w) {pending : List Nat} (hdistinct : (w.flying ++ pending).Nodup)
    (hapart : ∀ e ∈ w.flying ++ pending, w.table.contains e = false) : Sound s table other { w with pending := pending } where
  now := h.now
  distinct := hdistinct
  apart := hapart
  failed := h.failed
  resident := h.resident
  reads := h.reads
  moments := h.moments
  asked := h.asked

/-! ## Requests -/

theorem request_cases (s : ExpertStore) (e : Nat) (w : Pass) :
    s.loader.stopped w.asked.length = true ∧
        request s e w = { w with asked := w.asked ++ [(e, w.moment)], failed := some stoppedError } ∨
      s.loader.stopped w.asked.length = false ∧
        request s e w = Pass.seen { w with
          asked := w.asked ++ [(e, w.moment)], inFlight := w.inFlight ++ [(e, s.loader.reply w.asked.length e)] } := by
  rw [request]
  rcases hstopped : s.loader.stopped w.asked.length with _ | _
  · exact .inr ⟨rfl, rfl⟩
  · exact .inl ⟨rfl, rfl⟩

theorem refused_append_iff {q : Nat × Moment} :
    Refused s (asked ++ [q]) ↔ Refused s asked ∨ s.loader.stopped asked.length = true := by
  rw [Refused, Refused, List.length_append, List.length_singleton]
  constructor
  · rintro ⟨k, hk, hstopped⟩
    exact .inr (stopped_mono hstopped (by omega))
  · rintro (⟨k, hk, hstopped⟩ | hstopped)
    · exact ⟨k, by omega, hstopped⟩
    · exact ⟨asked.length, by omega, hstopped⟩

theorem asked_append (h : Sound s table other w) (he : e ∉ w.flying) (hnew : w.table.contains e = false) :
    ∀ q ∈ w.asked ++ [(e, w.moment)], q.1 ∉ q.2.resident ∧ q.1 ∉ q.2.inFlight := by
  intro q hq
  rcases List.mem_append.mp hq with hq | hq
  · exact h.asked q hq
  · rw [List.mem_singleton.mp hq]
    refine ⟨fun hmem => Bool.eq_false_iff.mp hnew ?_, he⟩
    exact decide_eq_true hmem

theorem request_sound {rest : List Nat} (h : Sound s table other w) (hpending : w.pending = e :: rest)
    (hroom : 0 < s.ramSlots → w.table.len + w.inFlight.length < s.ramSlots) :
    Sound s table other (request s e { w with pending := rest }) := by
  have hqueue : w.queue = w.flying ++ e :: rest := by rw [Pass.queue, hpending]
  have hdistinct := h.distinct
  have hapart := h.apart
  rw [hqueue] at hdistinct hapart
  have hflying : e ∉ w.flying := fun he => (List.disjoint_of_nodup_append hdistinct) he List.mem_cons_self
  have hnew := hapart e (List.mem_append_right _ List.mem_cons_self)
  have hasked := asked_append h hflying hnew
  have hpre : w.asked <+: w.asked ++ [(e, w.moment)] := List.prefix_append _ _
  obtain ⟨hslots, hnone, hbytes⟩ := bounded_moment.mp h.now
  rcases request_cases s e { w with pending := rest } with ⟨hstopped, heq⟩ | ⟨htaken, heq⟩
  · have hsub : (w.flying ++ rest).Sublist (w.flying ++ e :: rest) := (List.sublist_cons_self e rest).append_left _
    rw [heq]
    constructor
    · exact h.now
    · exact hdistinct.sublist hsub
    · exact fun x hx => hapart x (hsub.subset hx)
    · intro error herror
      exact ⟨(Option.some.inj herror).symm, refused_append_iff.mpr (.inr hstopped)⟩
    · exact fun x value hx => (h.resident x value hx).mono hpre
    · exact fun x reply hx => (h.reads x reply hx).mono hpre
    · exact h.moments
    · exact hasked
  · have hflying' : (w.inFlight ++ [(e, s.loader.reply w.asked.length e)]).map Prod.fst ++ rest = w.flying ++ e :: rest := by
      rw [List.map_append, List.append_assoc]
      rfl
    rw [heq]
    apply Sound.seen
    constructor
    · rw [bounded_moment]
      refine ⟨fun hpos => ?_, hnone, hbytes⟩
      show w.table.len + (w.inFlight ++ [(e, s.loader.reply w.asked.length e)]).length ≤ s.ramSlots
      rw [List.length_append, List.length_singleton]
      have hlt := hroom hpos
      omega
    · show (List.map Prod.fst _ ++ rest).Nodup
      rw [hflying']
      exact hdistinct
    · show ∀ x ∈ List.map Prod.fst _ ++ rest, _
      rw [hflying']
      exact hapart
    · intro error herror
      obtain ⟨hstopped, hrefused⟩ := h.failed error herror
      exact ⟨hstopped, hrefused.mono hpre⟩
    · exact fun x value hx => (h.resident x value hx).mono hpre
    · intro x reply hx
      rcases List.mem_append.mp hx with hx | hx
      · exact (h.reads x reply hx).mono hpre
      · obtain ⟨rfl, rfl⟩ := Prod.mk.inj (List.mem_singleton.mp hx)
        refine ⟨w.asked.length, w.moment, ?_, htaken, rfl⟩
        exact List.getElem?_concat_length
    · exact h.moments
    · exact hasked

theorem request_phase {rest : List Nat} (hphase : Running s due w ∨ Stopped s w) (hpending : w.pending = e :: rest)
    (hroom : 0 < s.ramSlots → w.table.len + w.inFlight.length < s.ramSlots) (hlimit : w.inFlight.length < s.limit) :
    Running s due (request s e { w with pending := rest }) ∨ Stopped s (request s e { w with pending := rest }) := by
  rcases request_cases s e { w with pending := rest } with ⟨hstopped, heq⟩ | ⟨htaken, heq⟩
  · rw [heq]
    exact .inr ⟨refused_append_iff.mpr (.inr hstopped), hroom, hlimit⟩
  · rcases hphase with hrunning | hstopped
    · have hqueue : Pass.queue (request s e { w with pending := rest }) = w.queue := by
        rw [heq, show w.queue = w.flying ++ w.pending from rfl, hpending]
        show (w.inFlight ++ [(e, s.loader.reply w.asked.length e)]).map Prod.fst ++ rest = w.flying ++ e :: rest
        rw [List.map_append, List.append_assoc]
        rfl
      have htable : (request s e { w with pending := rest }).table = w.table := by rw [heq]; rfl
      have hasked : (request s e { w with pending := rest }).asked = w.asked ++ [(e, w.moment)] := by rw [heq]; rfl
      refine .inl ⟨?_, ?_, ?_, ?_⟩
      · rw [hasked, refused_append_iff, not_or]
        exact ⟨hrunning.taken, Bool.eq_false_iff.mp htaken⟩
      · rw [hqueue]
        exact hrunning.rising
      · rw [hqueue]
        exact hrunning.within
      · rw [hqueue, htable]
        exact hrunning.cover
    · -- the threads that have refused a request take none any more
      obtain ⟨k, hk, hrefused⟩ := hstopped.refused
      have hnow := stopped_mono hrefused (Nat.le_of_lt hk)
      exact absurd hnow (Bool.eq_false_iff.mp htaken)

theorem request_frame (s : ExpertStore) (e : Nat) (w : Pass) :
    (request s e w).needed = w.needed ∧ (request s e w).cursor = w.cursor ∧ (request s e w).table = w.table ∧
      (request s e w).pending = w.pending ∧ w.flying <+: (request s e w).flying ∧ w.asked <+: (request s e w).asked ∧
      (w.failed.isSome → (request s e w).failed.isSome) ∧
      (e ∈ (request s e w).flying ∨ (request s e w).failed.isSome) := by
  rcases request_cases s e w with ⟨_, heq⟩ | ⟨_, heq⟩
  · rw [heq]
    exact ⟨rfl, rfl, rfl, rfl, List.prefix_refl _, List.prefix_append _ _, fun _ => rfl, .inr rfl⟩
  · have hflying : (request s e w).flying = w.flying ++ [e] := by
      rw [heq]
      show (w.inFlight ++ [(e, s.loader.reply w.asked.length e)]).map Prod.fst = _
      rw [List.map_append]
      rfl
    rw [hflying, heq]
    exact ⟨rfl, rfl, rfl, rfl, List.prefix_append _ _, List.prefix_append _ _, id,
      .inl (List.mem_append_right _ (List.mem_singleton_self e))⟩

/-! ## Evictions -/

theorem evict_sound {v : Nat} (h : Sound s table other w) (hv : w.table.contains v = true) :
    Sound s table other (evict s v w) ∧ w.table.len = (evict s v w).table.len + 1 := by
  obtain ⟨value, hvalue⟩ := Option.isSome_iff_exists.mp (SlotTable.contains_iff.mp hv)
  have hlen : w.table.len = (w.table.remove v).2.len + 1 := SlotTable.len_remove hvalue
  obtain ⟨hslots, hnone, hbytes⟩ := bounded_moment.mp h.now
  refine ⟨?_, hlen⟩
  apply Sound.seen
  constructor
  · rw [bounded_moment]
    refine ⟨fun hpos => ?_, fun hzero => ?_, ?_⟩
    · show (w.table.remove v).2.len + w.inFlight.length ≤ s.ramSlots
      have hle := hslots hpos
      omega
    · have hempty := hnone hzero
      omega
    · show w.shared.ramResidentBytes - s.storedBytes = other + s.storedBytes * (w.table.remove v).2.len
      rw [hlen, Nat.mul_succ] at hbytes
      omega
  · exact h.distinct
  · intro x hx
    show (w.table.remove v).2.contains x = false
    rw [← Bool.not_eq_true, SlotTable.contains_remove, h.apart x hx]
    simp
  · exact h.failed
  · intro x value hx
    have hx : (w.table.remove v).2.slotOf x = some value := hx
    rw [SlotTable.slotOf_remove] at hx
    split at hx
    · cases hx
    · exact h.resident x value hx
  · exact h.reads
  · exact h.moments
  · exact h.asked

/-! ## The loop -/

def requeued (w : Pass) (victim : Nat) : List Nat :=
  if victim ∈ w.later then w.pending.orderedInsert (· ≤ ·) victim else w.pending

theorem issueStep_cases (h : issueStep s w = some w') : ∃ e rest, w.pending = e :: rest ∧ w.inFlight.length < s.limit ∧
    ((0 < s.ramSlots → w.table.len + w.inFlight.length < s.ramSlots) ∧ w' = request s e { w with pending := rest } ∨
      0 < s.ramSlots ∧ ∃ victim, w.table.contains victim = true ∧ (victim ∈ w.later → e ≤ victim) ∧
        w' = request s e { evict s victim w with pending := (requeued w victim).tail }) := by
  rw [issueStep] at h
  rcases hpending : w.pending with _ | ⟨e, rest⟩
  · rw [hpending] at h
    cases h
  · rw [hpending] at h
    dsimp only at h
    refine ⟨e, rest, rfl, ?_⟩
    rw [ExpertStore.limit]
    by_cases hzero : s.ramSlots = 0
    · rw [if_pos hzero] at h ⊢
      split at h
      case isTrue hlt => exact ⟨hlt, .inl ⟨fun hpos => absurd hzero (Nat.ne_of_gt hpos), (Option.some.inj h).symm⟩⟩
      case isFalse => cases h
    · rw [if_neg hzero] at h ⊢
      split at h
      case isTrue => cases h
      case isFalse hlimit =>
        refine ⟨Nat.lt_of_not_ge hlimit, ?_⟩
        split at h
        case isTrue hfull =>
          rcases hvictim : w.table.victim s.heat w.later with _ | victim
          · rw [hvictim] at h
            cases h
          · rw [hvictim] at h
            dsimp only at h
            split at h
            case isTrue => cases h
            case isFalse hgoes =>
              refine .inr ⟨Nat.pos_of_ne_zero hzero, victim, SlotTable.contains_of_victim hvictim, fun hneeded => ?_, ?_⟩
              · exact Nat.le_of_not_lt fun hlt => hgoes ⟨hneeded, hlt⟩
              · rw [requeued, hpending]
                exact (Option.some.inj h).symm
        case isFalse hroom => exact .inl ⟨fun _ => Nat.lt_of_not_ge hroom, (Option.some.inj h).symm⟩

theorem issueStep_measure (w w' : Pass) (h : issueStep s w = some w') :
    w'.pending.length + w'.table.len < w.pending.length + w.table.len := by
  obtain ⟨e, rest, hpending, _, ⟨_, rfl⟩ | ⟨_, victim, hvictim, _, rfl⟩⟩ := issueStep_cases h
  · obtain ⟨_, _, htable, hqueue, _⟩ := request_frame s e { w with pending := rest }
    rw [htable, hqueue, hpending]
    show rest.length + w.table.len < (e :: rest).length + w.table.len
    rw [List.length_cons]
    omega
  · obtain ⟨_, _, htable, hqueue, _⟩ := request_frame s e { evict s victim w with pending := (requeued w victim).tail }
    obtain ⟨value, hvalue⟩ := Option.isSome_iff_exists.mp (SlotTable.contains_iff.mp hvictim)
    have hlen : w.table.len = (w.table.remove victim).2.len + 1 := SlotTable.len_remove hvalue
    rw [htable, hqueue]
    show (requeued w victim).tail.length + (w.table.remove victim).2.len < w.pending.length + w.table.len
    have hrequeued : (requeued w victim).length ≤ w.pending.length + 1 := by
      rw [requeued]
      split
      · rw [List.orderedInsert_length]
      · omega
    rw [List.length_tail, hlen]
    have hpos : 0 < w.pending.length := by rw [hpending]; exact Nat.succ_pos _
    omega

theorem issue_isSome (s : ExpertStore) (w : Pass) : (issue s w).isSome :=
  Rounds.rounds_isSome issueStep_measure (Nat.le_refl _)

/-- The rounds of one call of `issue`, which started with `w₀`. -/
structure Issuing (s : ExpertStore) (table : SlotTable) (other : Nat) (due : List Nat) (w₀ w : Pass) : Prop where
  sound : Sound s table other w
  phase : Running s due w ∨ Stopped s w
  needed : w.needed = w₀.needed
  later : w.later = w₀.later
  shadow : ∀ x ∈ due, x ∈ w.later ∨ w.table.contains x = false
  flying : w₀.flying <+: w.flying
  asked : w₀.asked <+: w.asked
  failed : w₀.failed.isSome → w.failed.isSome

variable {w₀ w₁ : Pass}

theorem Issuing.start (h : Sound s table other w) (hphase : Running s due w ∨ Stopped s w)
    (hshadow : ∀ x ∈ due, x ∈ w.later ∨ w.table.contains x = false) : Issuing s table other due w w :=
  ⟨h, hphase, rfl, rfl, hshadow, List.prefix_refl _, List.prefix_refl _, id⟩

theorem Issuing.trans (h : Issuing s table other due w₀ w₁) (h' : Issuing s table other due w₁ w) :
    Issuing s table other due w₀ w :=
  ⟨h'.sound, h'.phase, h'.needed.trans h.needed, h'.later.trans h.later, h'.shadow, h.flying.trans h'.flying,
    h.asked.trans h'.asked, fun hsome => h'.failed (h.failed hsome)⟩

theorem mem_requeued {victim x : Nat} :
    x ∈ w.flying ++ requeued w victim ↔ x ∈ w.queue ∨ x = victim ∧ victim ∈ w.later := by
  rw [requeued, Pass.queue]
  split
  case isTrue hneeded =>
    rw [List.mem_append, List.mem_orderedInsert, List.mem_append]
    tauto
  case isFalse hfree => simp [hfree]

theorem requeued_nodup {victim : Nat} (h : w.queue.Nodup) (hnot : victim ∉ w.queue) :
    (w.flying ++ requeued w victim).Nodup := by
  rw [requeued]
  split
  · have hcons : (w.flying ++ w.pending.orderedInsert (· ≤ ·) victim).Perm (victim :: w.queue) :=
      ((List.perm_orderedInsert _ _ _).append_left _).trans List.perm_middle
    exact hcons.nodup_iff.mpr (List.nodup_cons.mpr ⟨hnot, h⟩)
  · exact h

theorem requeued_eq {victim : Nat} {rest : List Nat} (hpending : w.pending = e :: rest) (hnot : victim ∉ w.queue)
    (hbehind : victim ∈ w.later → e ≤ victim) : requeued w victim = e :: (requeued w victim).tail := by
  have hne : victim ≠ e := by
    rintro rfl
    exact hnot (List.mem_append_right _ (hpending ▸ List.mem_cons_self))
  rw [requeued, hpending]
  split
  case isTrue hneeded =>
    have hle : ¬ victim ≤ e := fun hle => hne (Nat.le_antisymm hle (hbehind hneeded))
    rw [List.orderedInsert_of_not_le _ _ hle, List.tail_cons]
  case isFalse => rfl

theorem requeued_rising {victim : Nat} {rest : List Nat} (h : w.queue.Pairwise (· < ·)) (hpending : w.pending = e :: rest)
    (hnot : victim ∉ w.queue) (hbehind : victim ∈ w.later → e ≤ victim) :
    (w.flying ++ requeued w victim).Pairwise (· < ·) := by
  rw [requeued]
  split
  case isFalse => exact h
  case isTrue hneeded =>
    obtain ⟨hflying, hqueued, hcross⟩ := List.pairwise_append.mp h
    have hnot' : victim ∉ w.pending := fun hmem => hnot (List.mem_append_right _ hmem)
    have hle : (w.pending.orderedInsert (· ≤ ·) victim).Pairwise (· ≤ ·) :=
      List.Pairwise.orderedInsert victim _ (hqueued.imp Nat.le_of_lt)
    have hnodup : (w.pending.orderedInsert (· ≤ ·) victim).Nodup :=
      (List.perm_orderedInsert _ _ _).nodup_iff.mpr (List.nodup_cons.mpr ⟨hnot', hqueued.imp Nat.ne_of_lt⟩)
    have hstrict := (hle.and hnodup).imp fun hboth => Nat.lt_of_le_of_ne hboth.1 hboth.2
    refine List.pairwise_append.mpr ⟨hflying, hstrict, fun x hx y hy => ?_⟩
    rcases (List.mem_orderedInsert _).mp hy with rfl | hy
    · have hlt := hcross x hx e (hpending ▸ List.mem_cons_self)
      exact Nat.lt_of_lt_of_le hlt (hbehind hneeded)
    · exact hcross x hx y hy

theorem contains_evict {victim x : Nat} :
    (evict s victim w).table.contains x = true ↔ x ≠ victim ∧ w.table.contains x = true := SlotTable.contains_remove

theorem Running.evict {victim : Nat} {rest : List Nat} (h : Running s due w) (hsub : ∀ x ∈ w.later, x ∈ due)
    (hshadow : ∀ x ∈ due, x ∈ w.later ∨ w.table.contains x = false) (hpending : w.pending = e :: rest)
    (hnot : victim ∉ w.queue) (hbehind : victim ∈ w.later → e ≤ victim) :
    Running s due { RamTier.evict s victim w with pending := requeued w victim } := by
  refine ⟨h.taken, requeued_rising h.rising hpending hnot hbehind, fun x hx => ?_, fun x hx => ?_⟩
  · have hx : x ∈ w.flying ++ requeued w victim := hx
    rcases mem_requeued.mp hx with hx | ⟨rfl, hneeded⟩
    · exact h.within x hx
    · exact hsub x hneeded
  · show x ∈ w.flying ++ requeued w victim ∨ (RamTier.evict s victim w).table.contains x = true
    rw [mem_requeued, contains_evict]
    rcases h.cover x hx with hx' | hthere
    · exact .inl (.inl hx')
    · by_cases heq : x = victim
      · rcases hshadow x hx with hneeded | hfree
        · exact .inl (.inr ⟨heq, heq ▸ hneeded⟩)
        · rw [hthere] at hfree
          cases hfree
      · exact .inr ⟨heq, hthere⟩

theorem Issuing.evict {victim : Nat} {rest : List Nat} (h : Issuing s table other due w₀ w) (hsub : ∀ x ∈ w₀.later, x ∈ due)
    (hpending : w.pending = e :: rest) (hvictim : w.table.contains victim = true) (hnot : victim ∉ w.queue)
    (hbehind : victim ∈ w.later → e ≤ victim) (hpos : 0 < s.ramSlots) :
    Issuing s table other due w₀ { RamTier.evict s victim w with pending := requeued w victim } := by
  obtain ⟨hevict, hlen⟩ := evict_sound h.sound hvictim
  have hsound : Sound s table other { RamTier.evict s victim w with pending := requeued w victim } := by
    apply hevict.requeue (requeued_nodup h.sound.distinct hnot)
    intro x hx
    rw [← Bool.not_eq_true, contains_evict]
    rintro ⟨hother, hthere⟩
    rcases mem_requeued.mp hx with hx | ⟨heq, _⟩
    · rw [h.sound.apart x hx] at hthere
      cases hthere
    · exact hother heq
  refine ⟨hsound, ?_, h.needed, h.later, fun x hx => ?_, h.flying, h.asked, h.failed⟩
  · rcases h.phase with hrunning | hstopped
    · exact .inl (hrunning.evict (fun x hx => hsub x (h.later ▸ hx)) h.shadow hpending hnot hbehind)
    · refine .inr ⟨hstopped.refused, fun _ => ?_, hstopped.limit⟩
      have hlt := hstopped.room hpos
      show (RamTier.evict s victim w).table.len + w.inFlight.length < s.ramSlots
      omega
  · refine (h.shadow x hx).imp_right fun hfree => ?_
    show (RamTier.evict s victim w).table.contains x = false
    rw [← Bool.not_eq_true, contains_evict, hfree]
    simp

theorem Issuing.request {rest : List Nat} (h : Issuing s table other due w₀ w) (hpending : w.pending = e :: rest)
    (hroom : 0 < s.ramSlots → w.table.len + w.inFlight.length < s.ramSlots) (hlimit : w.inFlight.length < s.limit) :
    Issuing s table other due w₀ (RamTier.request s e { w with pending := rest }) := by
  obtain ⟨hneeded, hcursor, htable, _, hflying, hasked, hfailed, _⟩ := request_frame s e { w with pending := rest }
  have hlater : (RamTier.request s e { w with pending := rest }).later = w.later := by
    rw [Pass.later, hneeded, hcursor]
    rfl
  refine ⟨request_sound h.sound hpending hroom, request_phase h.phase hpending hroom hlimit, hneeded.trans h.needed,
    hlater.trans h.later, fun x hx => ?_, h.flying.trans hflying, h.asked.trans hasked, fun hsome => hfailed (h.failed hsome)⟩
  rw [hlater, htable]
  exact h.shadow x hx

theorem issueStep_spec (hsub : ∀ x ∈ w₀.later, x ∈ due) (w w' : Pass) (h : Issuing s table other due w₀ w)
    (hstep : issueStep s w = some w') : Issuing s table other due w₀ w' := by
  obtain ⟨e, rest, hpending, hlimit, ⟨hroom, rfl⟩ | ⟨hpos, victim, hvictim, hbehind, rfl⟩⟩ := issueStep_cases hstep
  · exact h.request hpending hroom hlimit
  · have hnot : victim ∉ w.queue := fun hmem => by
      have happart := h.sound.apart victim hmem
      rw [hvictim] at happart
      cases happart
    obtain ⟨hslots, _, _⟩ := bounded_moment.mp h.sound.now
    have hfull := hslots hpos
    have hlen := (evict_sound h.sound hvictim).2
    have hroom : (evict s victim w).table.len + w.inFlight.length < s.ramSlots := by omega
    exact (h.evict hsub hpending hvictim hnot hbehind hpos).request (requeued_eq hpending hnot hbehind) (fun _ => hroom) hlimit

theorem issue_spec (hsub : ∀ x ∈ w₀.later, x ∈ due) (h : Issuing s table other due w₀ w₀) :
    ∃ w, issue s w₀ = some w ∧ Issuing s table other due w₀ w := by
  obtain ⟨w, hw⟩ := Option.isSome_iff_exists.mp (issue_isSome s w₀)
  exact ⟨w, hw, Rounds.rounds_keeps (issueStep_spec hsub) h hw⟩

/-! ## The steps -/

/-- Between two calls of `next`, where the experts of `due` are still to come. -/
structure Between (s : ExpertStore) (table : SlotTable) (other : Nat) (due : List Nat) (w : Pass) : Prop where
  sound : Sound s table other w
  phase : Running s due w ∧ w.later = due ∨ Stopped s w ∧ ∃ passed, w.later = passed ++ due
  rising : w.needed.Pairwise (· < ·)

/-- What a step gives for the expert that is due, and leaves. -/
def Given (s : ExpertStore) (table : SlotTable) (other : Nat) (due : List Nat) (e : Nat) (w : Pass)
    (step : Option (Except CucaError Nat × Pass)) : Prop :=
  ∃ result w', step = some (result, w') ∧ Between s table other due w' ∧ Delivered s table w'.asked e result ∧
    w.asked <+: w'.asked

theorem issue_given {value : Nat} (h : Sound s table other w) (hphase : Running s due w ∨ Stopped s w) (hlater : w.later = due)
    (hrising : w.needed.Pairwise (· < ·)) (hvalue : Delivered s table w.asked e (.ok value)) :
    Given s table other due e w ((issue s w).map (.ok value, ·)) := by
  obtain ⟨w', hissue, h'⟩ := issue_spec (fun x hx => hlater ▸ hx) (.start h hphase fun x hx => .inl (hlater ▸ hx))
  refine ⟨.ok value, w', by rw [hissue, Option.map_some], ⟨h'.sound, ?_, h'.needed ▸ hrising⟩, hvalue.mono h'.asked, h'.asked⟩
  rcases h'.phase with hrunning | hstopped
  · exact .inl ⟨hrunning, h'.later.trans hlater⟩
  · exact .inr ⟨hstopped, [], h'.later.trans hlater⟩

theorem flying_eraseP (w : Pass) (e : Nat) : (w.inFlight.eraseP (·.1 == e)).map Prod.fst = w.flying.erase e := by
  rw [Pass.flying, List.erase_eq_eraseP]
  generalize w.inFlight = inFlight
  induction inFlight with
  | nil => rfl
  | cons entry rest ih =>
    rw [List.map_cons, List.eraseP_cons, List.eraseP_cons]
    by_cases he : entry.1 = e
    · simp [he]
    · have hne : ¬ e = entry.1 := fun heq => he heq.symm
      rw [beq_false_of_ne he, beq_false_of_ne hne, cond_false, cond_false, List.map_cons, ih]

theorem land_spec (h : Sound s table other w) (hphase : Running s (e :: due) w ∨ Stopped s w) (hdue : ∀ x ∈ due, e < x)
    (he : e ∈ w.flying) : Sound s table other (land e w) ∧ (Running s due (land e w) ∨ Stopped s (land e w)) ∧
      (land e w).inFlight.length + 1 = w.inFlight.length ∧ e ∉ (land e w).queue := by
  have hqueue : (land e w).queue = w.queue.erase e := by
    rw [Pass.queue, Pass.queue, List.erase_append_left _ he, ← flying_eraseP]
    rfl
  have hlength : (w.inFlight.eraseP (·.1 == e)).length + 1 = w.inFlight.length := by
    have hflying := congrArg List.length (flying_eraseP w e)
    rw [List.length_map, List.length_erase_of_mem he, Pass.flying, List.length_map] at hflying
    have hpos : 0 < w.flying.length := List.length_pos_of_mem he
    rw [Pass.flying, List.length_map] at hpos
    omega
  have hnot : e ∉ w.queue.erase e := List.Nodup.not_mem_erase h.distinct
  obtain ⟨hslots, hnone, hbytes⟩ := bounded_moment.mp h.now
  refine ⟨?_, ?_, hlength, hqueue ▸ hnot⟩
  · apply Sound.seen
    constructor
    · rw [bounded_moment]
      refine ⟨fun hpos => ?_, hnone, hbytes⟩
      have hle := hslots hpos
      show w.table.len + (w.inFlight.eraseP (·.1 == e)).length ≤ s.ramSlots
      omega
    · exact hqueue ▸ h.distinct.erase e
    · intro x hx
      have hx : x ∈ (land e w).queue := hx
      rw [hqueue] at hx
      exact h.apart x (List.mem_of_mem_erase hx)
    · exact h.failed
    · exact h.resident
    · exact fun x reply hx => h.reads x reply (List.mem_of_mem_eraseP hx)
    · exact h.moments
    · exact h.asked
  · rcases hphase with hrunning | hstopped
    · refine .inl ⟨hrunning.taken, hqueue ▸ hrunning.rising.sublist List.erase_sublist, fun x hx => ?_, fun x hx => ?_⟩
      · rw [hqueue] at hx
        have hne : x ≠ e := fun heq => hnot (heq ▸ hx)
        exact (List.mem_cons.mp (hrunning.within x (List.mem_of_mem_erase hx))).resolve_left hne
      · have hne : x ≠ e := Nat.ne_of_gt (hdue x hx)
        rw [hqueue]
        exact (hrunning.cover x (List.mem_cons_of_mem _ hx)).imp_left fun hmem => (List.mem_erase_of_ne hne).mpr hmem
    · refine .inr ⟨hstopped.refused, fun hpos => ?_, ?_⟩
      · have hlt := hstopped.room hpos
        show w.table.len + (w.inFlight.eraseP (·.1 == e)).length < s.ramSlots
        omega
      · have hlt := hstopped.limit
        show (w.inFlight.eraseP (·.1 == e)).length < s.limit
        omega

theorem arrived {value bytes : Nat} (h : Sound s table other w) (hphase : Running s due w ∨ Stopped s w)
    (hroom : 0 < s.ramSlots → w.table.len + w.inFlight.length < s.ramSlots)
    (hspare : Stopped s w → 0 < s.ramSlots → w.table.len + w.inFlight.length + 1 < s.ramSlots) (hnot : e ∉ w.queue)
    (hnew : w.table.contains e = false) (hread : Answers s w.asked e (.ok (value, bytes))) :
    Sound s table other (arrive s e value bytes w) ∧
      (Running s due (arrive s e value bytes w) ∨ Stopped s (arrive s e value bytes w)) := by
  obtain ⟨_, hnone, hbytes⟩ := bounded_moment.mp h.now
  rw [arrive]
  by_cases hpos : 0 < s.ramSlots
  · have hlen : (w.table.insert e value).len = w.table.len + 1 := SlotTable.len_insert (SlotTable.slotOf_eq_none.mpr hnew)
    have hlt := hroom hpos
    rw [if_pos hpos]
    constructor
    · apply Sound.seen
      constructor
      · rw [bounded_moment]
        refine ⟨fun _ => ?_, fun hzero => absurd hzero (Nat.ne_of_gt hpos), ?_⟩
        · show (w.table.insert e value).len + w.inFlight.length ≤ s.ramSlots
          omega
        · show w.shared.ramResidentBytes + s.storedBytes = other + s.storedBytes * (w.table.insert e value).len
          rw [hlen, Nat.mul_succ]
          omega
      · exact h.distinct
      · intro x hx
        show (w.table.insert e value).contains x = false
        rw [← Bool.not_eq_true, SlotTable.contains_insert, h.apart x hx]
        rintro (rfl | hthere)
        · exact hnot hx
        · cases hthere
      · exact h.failed
      · intro x value' hx
        have hx : (w.table.insert e value).slotOf x = some value' := hx
        rw [SlotTable.slotOf_insert] at hx
        split at hx
        case isTrue heq =>
          obtain rfl := Option.some.inj hx
          exact .inr ⟨bytes, heq ▸ hread⟩
        case isFalse => exact h.resident x value' hx
      · exact h.reads
      · exact h.moments
      · exact h.asked
    · rcases hphase with hrunning | hstopped
      · refine .inl ⟨hrunning.taken, hrunning.rising, hrunning.within, fun x hx => ?_⟩
        exact (hrunning.cover x hx).imp_right fun hthere => SlotTable.contains_insert.mpr (.inr hthere)
      · refine .inr ⟨hstopped.refused, fun _ => ?_, hstopped.limit⟩
        have hlt' := hspare hstopped hpos
        show (w.table.insert e value).len + w.inFlight.length < s.ramSlots
        omega
  · rw [if_neg hpos]
    constructor
    · apply Sound.seen
      constructor
      · rw [bounded_moment]
        exact ⟨fun hpos' => absurd hpos' hpos, hnone, hbytes⟩
      · exact h.distinct
      · exact h.apart
      · exact h.failed
      · exact h.resident
      · exact h.reads
      · exact h.moments
      · exact h.asked
    · rcases hphase with hrunning | hstopped
      · exact .inl ⟨hrunning.taken, hrunning.rising, hrunning.within, hrunning.cover⟩
      · exact .inr ⟨hstopped.refused, fun hpos' => absurd hpos' hpos, hstopped.limit⟩

theorem lookup_flying (h : e ∈ w.flying) : ∃ reply, w.inFlight.lookup e = some reply ∧ (e, reply) ∈ w.inFlight := by
  rw [Pass.flying] at h
  generalize w.inFlight = inFlight at h
  induction inFlight with
  | nil => cases h
  | cons entry rest ih =>
    obtain ⟨x, reply⟩ := entry
    rw [List.lookup_cons]
    by_cases heq : e = x
    · subst heq
      exact ⟨reply, by rw [beq_self_eq_true], List.mem_cons_self⟩
    · obtain ⟨reply', hlookup, hmem⟩ := ih ((List.mem_cons.mp h).resolve_left heq)
      exact ⟨reply', by rw [beq_false_of_ne heq]; exact hlookup, List.mem_cons_of_mem _ hmem⟩

theorem arrive_frame (value bytes : Nat) (w : Pass) : (arrive s e value bytes w).asked = w.asked ∧
    (arrive s e value bytes w).later = w.later ∧ (arrive s e value bytes w).needed = w.needed := by
  rw [arrive]
  split <;> exact ⟨rfl, rfl, rfl⟩

theorem receive_given (h : Sound s table other w) (hphase : Running s (e :: due) w ∨ Stopped s w) (hlater : w.later = due)
    (hrising : w.needed.Pairwise (· < ·)) (hdue : ∀ x ∈ due, e < x) (he : e ∈ w.flying) :
    Given s table other due e w (receive s e w) := by
  obtain ⟨reply, hlookup, hmem⟩ := lookup_flying he
  obtain ⟨hsound, hphase', hlength, hnot⟩ := land_spec h hphase hdue he
  have hread := h.reads e reply hmem
  rw [receive, hlookup]
  dsimp only
  rcases reply with error | ⟨value, bytes⟩
  · refine ⟨.error error, _, rfl, ⟨hsound, ?_, hrising⟩, .inl hread, List.prefix_refl _⟩
    exact hphase'.imp (fun hrunning => ⟨hrunning, hlater⟩) fun hstopped => ⟨hstopped, [], hlater⟩
  · obtain ⟨hslots, _, _⟩ := bounded_moment.mp h.now
    have hnew : (land e w).table.contains e = false := h.apart e (List.mem_append_left _ he)
    have hroom : 0 < s.ramSlots → (land e w).table.len + (land e w).inFlight.length < s.ramSlots := fun hpos => by
      have hle : (land e w).table.len + w.inFlight.length ≤ s.ramSlots := hslots hpos
      omega
    have hspare : Stopped s (land e w) → 0 < s.ramSlots →
        (land e w).table.len + (land e w).inFlight.length + 1 < s.ramSlots := fun hstopped hpos => by
      rcases hphase with hrunning | hstopped'
      · exact absurd hstopped.refused hrunning.taken
      · have hlt : (land e w).table.len + w.inFlight.length < s.ramSlots := hstopped'.room hpos
        omega
    obtain ⟨hasked, hlater', hneeded⟩ := arrive_frame (s := s) (e := e) value bytes (land e w)
    obtain ⟨harrived, hphased⟩ := arrived hsound hphase' hroom hspare hnot hnew hread
    have hgiven := issue_given harrived hphased (hlater'.trans hlater) (hneeded ▸ hrising) (.inr ⟨bytes, hasked ▸ hread⟩)
    obtain ⟨result, w', hstep, hbetween, hdelivered, hpre⟩ := hgiven
    exact ⟨result, w', hstep, hbetween, hdelivered, hasked ▸ hpre⟩

theorem issueStep_due (hphase : Running s (e :: due) w ∨ Stopped s w) (hlater : w.later = due)
    (hdue : ∀ x ∈ due, e < x) {rest : List Nat} (hpending : w.pending = e :: rest) : ∃ w', issueStep s w = some w' := by
  have hflying : Running s (e :: due) w → w.inFlight = [] := by
    intro hrunning
    rcases hfirst : w.inFlight with _ | ⟨entry, more⟩
    · rfl
    · -- what is in flight is before what is pending, and nothing that is due is before `e`
      have hmem : entry.1 ∈ w.flying := by rw [Pass.flying, hfirst]; exact List.mem_cons_self
      obtain ⟨_, _, hcross⟩ := List.pairwise_append.mp hrunning.rising
      have hlt := hcross entry.1 hmem e (hpending ▸ List.mem_cons_self)
      rcases List.mem_cons.mp (hrunning.within entry.1 (List.mem_append_left _ hmem)) with heq | hmem'
      · omega
      · have hlt' := hdue entry.1 hmem'
        omega
  have hlimit : w.inFlight.length < s.limit := by
    rcases hphase with hrunning | hstopped
    · rw [hflying hrunning]
      exact limit_pos
    · exact hstopped.limit
  rw [ExpertStore.limit] at hlimit
  rw [issueStep, hpending]
  dsimp only
  split
  case isTrue hzero =>
    rw [if_pos hzero] at hlimit
    exact ⟨_, if_pos hlimit⟩
  case isFalse hpos =>
    rw [if_neg hpos] at hlimit
    rw [if_neg (Nat.not_le_of_lt hlimit)]
    split
    case isFalse => exact ⟨_, rfl⟩
    case isTrue hfull =>
      have hpos := Nat.pos_of_ne_zero hpos
      have hlen : 0 < w.table.len := by
        rcases hphase with hrunning | hstopped
        · rw [hflying hrunning] at hfull
          exact Nat.lt_of_lt_of_le hpos hfull
        · have hlt := hstopped.room hpos
          omega
      obtain ⟨victim, hvictim⟩ := SlotTable.victim_isSome s.heat w.later hlen
      have hgoes : ¬ (victim ∈ w.later ∧ victim < e) := by
        rintro ⟨hneeded, hlt⟩
        have hlt' := hdue victim (hlater ▸ hneeded)
        omega
      rw [hvictim]
      exact ⟨_, if_neg hgoes⟩

theorem issue_due (h : Sound s table other w) (hphase : Running s (e :: due) w ∨ Stopped s w) (hlater : w.later = due)
    (hdue : ∀ x ∈ due, e < x) {rest : List Nat} (hpending : w.pending = e :: rest) :
    ∃ w', issue s w = some w' ∧ Issuing s table other (e :: due) w w' ∧ (e ∈ w'.flying ∨ w'.failed.isSome) := by
  have hsub : ∀ x ∈ w.later, x ∈ e :: due := fun x hx => List.mem_cons_of_mem _ (hlater ▸ hx)
  have hshadow : ∀ x ∈ e :: due, x ∈ w.later ∨ w.table.contains x = false := by
    intro x hx
    rcases List.mem_cons.mp hx with rfl | hx
    · exact .inr (h.apart x (List.mem_append_right _ (hpending ▸ List.mem_cons_self)))
    · exact .inl (hlater ▸ hx)
  have hissuing : Issuing s table other (e :: due) w w := .start h hphase hshadow
  obtain ⟨w₁, hfirst⟩ := issueStep_due hphase hlater hdue hpending
  obtain ⟨w', hissue⟩ := Option.isSome_iff_exists.mp (issue_isSome s w)
  have hissuing₁ := issueStep_spec hsub w w₁ hissuing hfirst
  have hrequested : e ∈ w₁.flying ∨ w₁.failed.isSome := by
    obtain ⟨e', rest', hpending', _, ⟨_, rfl⟩ | ⟨_, victim, _, _, rfl⟩⟩ := issueStep_cases hfirst
    · rw [hpending] at hpending'
      obtain ⟨rfl, _⟩ := List.cons.inj hpending'
      exact (request_frame s e _).2.2.2.2.2.2.2
    · rw [hpending] at hpending'
      obtain ⟨rfl, _⟩ := List.cons.inj hpending'
      exact (request_frame s e _).2.2.2.2.2.2.2
  -- the rounds that follow keep it in flight
  have hbound : w.pending.length + w.table.len = rest.length + w.table.len + 1 := by
    rw [hpending, List.length_cons]
    omega
  rw [issue, hbound, Rounds.rounds_some hfirst] at hissue
  have hkept : Issuing s table other (e :: due) w₁ w' :=
    Rounds.rounds_keeps (issueStep_spec fun x hx => hsub x (hissuing₁.later ▸ hx))
      (.start hissuing₁.sound hissuing₁.phase hissuing₁.shadow) hissue
  refine ⟨w', by rw [issue, hbound, Rounds.rounds_some hfirst, hissue], hissuing₁.trans hkept, ?_⟩
  exact hrequested.imp (fun he => hkept.flying.subset he) hkept.failed

theorem Running.due_first (h : Running s (e :: due) w) (hdue : ∀ x ∈ due, e < x) (he : e ∉ w.flying)
    (hnew : w.table.contains e = false) : e :: w.pending.erase e = w.pending := by
  have hmem : e ∈ w.pending := by
    rcases h.cover e List.mem_cons_self with hmem | hthere
    · exact (List.mem_append.mp hmem).resolve_left he
    · rw [hnew] at hthere
      cases hthere
  obtain ⟨_, hsorted, _⟩ := List.pairwise_append.mp h.rising
  rcases hfirst : w.pending with _ | ⟨x, rest⟩
  · rw [hfirst] at hmem
    cases hmem
  · rw [hfirst] at hmem hsorted
    have heq : x = e := by
      rcases List.mem_cons.mp (h.within x (List.mem_append_right _ (hfirst ▸ List.mem_cons_self))) with heq | hx
      · exact heq
      · have hlt := hdue x hx
        rcases List.mem_cons.mp hmem with heq | hmem
        · exact heq.symm
        · have hlt' := (List.pairwise_cons.mp hsorted).1 e hmem
          omega
    rw [heq, List.erase_cons_head]

theorem fetch_given (h : Sound s table other w) (hphase : Running s (e :: due) w ∨ Stopped s w) (hlater : w.later = due)
    (hrising : w.needed.Pairwise (· < ·)) (hdue : ∀ x ∈ due, e < x) (hnew : w.table.contains e = false) :
    Given s table other due e w (fetch s e w) := by
  rw [fetch]
  by_cases he : e ∈ w.flying
  · rw [if_pos he]
    exact receive_given h hphase hlater hrising hdue he
  · rw [if_neg he]
    have hdistinct := h.distinct
    rw [Pass.queue, List.nodup_append] at hdistinct
    obtain ⟨hflying, hpending, hcross⟩ := hdistinct
    have hhead : Sound s table other { w with pending := e :: w.pending.erase e } := by
      apply h.requeue
      · refine List.nodup_append.mpr ⟨hflying, List.nodup_cons.mpr ⟨hpending.not_mem_erase, hpending.erase e⟩, ?_⟩
        intro x hx y hy
        rcases List.mem_cons.mp hy with rfl | hy
        · exact fun heq => he (heq ▸ hx)
        · exact hcross x hx y (List.mem_of_mem_erase hy)
      · intro x hx
        rcases List.mem_append.mp hx with hx | hx
        · exact h.apart x (List.mem_append_left _ hx)
        · rcases List.mem_cons.mp hx with rfl | hx
          · exact hnew
          · exact h.apart x (List.mem_append_right _ (List.mem_of_mem_erase hx))
    have hphase' : Running s (e :: due) { w with pending := e :: w.pending.erase e } ∨
        Stopped s { w with pending := e :: w.pending.erase e } := by
      rcases hphase with hrunning | hstopped
      · rw [hrunning.due_first hdue he hnew]
        exact .inl hrunning
      · exact .inr ⟨hstopped.refused, hstopped.room, hstopped.limit⟩
    obtain ⟨w', hissue, hissued, hrequested⟩ := issue_due hhead hphase' hlater hdue rfl
    have hlater' : w'.later = due := hissued.later.trans hlater
    have hrising' : w'.needed.Pairwise (· < ·) := hissued.needed ▸ hrising
    rw [hissue, Option.bind_some]
    rcases hfailed : w'.failed with _ | error
    · have he' : e ∈ w'.flying := hrequested.resolve_right fun hsome => by
        rw [hfailed] at hsome
        cases hsome
      obtain ⟨result, w'', hstep, hbetween, hdelivered, hpre⟩ :=
        receive_given hissued.sound hissued.phase hlater' hrising' hdue he'
      exact ⟨result, w'', hstep, hbetween, hdelivered, hissued.asked.trans hpre⟩
    · obtain ⟨hstopped, hrefused⟩ := hissued.sound.failed error hfailed
      refine ⟨.error error, { w' with failed := none }, rfl, ⟨?_, ?_, hrising'⟩, .inr ⟨hstopped, hrefused⟩, hissued.asked⟩
      · exact { hissued.sound with failed := fun _ herror => absurd herror (by simp) }
      · rcases hissued.phase with hrunning | hstopped'
        · exact absurd hrefused hrunning.taken
        · exact .inr ⟨⟨hrefused, hstopped'.room, hstopped'.limit⟩, [], hlater'⟩

theorem findIdx?_due {passed : List Nat} (h : (passed ++ e :: due).Pairwise (· < ·)) :
    (passed ++ e :: due).findIdx? (· == e) = some passed.length := by
  rw [List.findIdx?_append]
  have hnone : passed.findIdx? (· == e) = none := by
    rw [List.findIdx?_eq_none_iff]
    intro x hx
    have hlt := (List.pairwise_append.mp h).2.2 x hx e List.mem_cons_self
    exact beq_false_of_ne (Nat.ne_of_lt hlt)
  rw [hnone, List.findIdx?_cons, beq_self_eq_true]
  simp

theorem Sound.get (h : Sound s table other w) (e : Nat) (shared : TierShared)
    (hbytes : shared.ramResidentBytes = w.shared.ramResidentBytes) :
    Sound s table other { w with table := (w.table.get e).2, shared := shared } where
  now := by
    have hnow := bounded_moment.mp h.now
    rw [bounded_moment]
    show (_ → (w.table.get e).2.len + _ ≤ _) ∧ (_ → (w.table.get e).2.len = 0) ∧
      shared.ramResidentBytes = other + s.storedBytes * (w.table.get e).2.len
    rw [SlotTable.len_get, hbytes]
    exact hnow
  distinct := h.distinct
  apart := by
    intro x hx
    show (w.table.get e).2.contains x = false
    rw [SlotTable.contains_get]
    exact h.apart x hx
  failed := h.failed
  resident := by
    intro x value hx
    have hx : (w.table.get e).2.slotOf x = some value := hx
    rw [SlotTable.slotOf_get] at hx
    exact h.resident x value hx
  reads := h.reads
  moments := h.moments
  asked := h.asked

theorem phase_get (h : Running s due w ∨ Stopped s w) (e : Nat) (shared : TierShared) :
    Running s due { w with table := (w.table.get e).2, shared := shared } ∨
      Stopped s { w with table := (w.table.get e).2, shared := shared } := by
  rcases h with hrunning | hstopped
  · refine .inl ⟨hrunning.taken, hrunning.rising, hrunning.within, fun x hx => ?_⟩
    show x ∈ w.queue ∨ (w.table.get e).2.contains x = true
    rw [SlotTable.contains_get]
    exact hrunning.cover x hx
  · refine .inr ⟨hstopped.refused, fun hpos => ?_, hstopped.limit⟩
    show (w.table.get e).2.len + w.inFlight.length < s.ramSlots
    rw [SlotTable.len_get]
    exact hstopped.room hpos

theorem Running.passed (h : Running s (e :: due) w) (hsound : Sound s table other w) (hthere : w.table.contains e = true) :
    Running s due w := by
  refine ⟨h.taken, h.rising, fun x hx => ?_, fun x hx => h.cover x (List.mem_cons_of_mem _ hx)⟩
  rcases List.mem_cons.mp (h.within x hx) with rfl | hx'
  · rw [hsound.apart x hx] at hthere
    cases hthere
  · exact hx'

theorem Sound.advance (h : Sound s table other w) (cursor : Nat) : Sound s table other { w with cursor := cursor } :=
  ⟨h.now, h.distinct, h.apart, h.failed, h.resident, h.reads, h.moments, h.asked⟩

theorem Running.advance (h : Running s due w) (cursor : Nat) : Running s due { w with cursor := cursor } :=
  ⟨h.taken, h.rising, h.within, h.cover⟩

theorem Stopped.advance (h : Stopped s w) (cursor : Nat) : Stopped s { w with cursor := cursor } :=
  ⟨h.refused, h.room, h.limit⟩

theorem next_given (h : Between s table other (e :: due) w) : Given s table other due e w (next s e w) := by
  obtain ⟨passed, hlater⟩ : ∃ passed, w.later = passed ++ e :: due := by
    rcases h.phase with ⟨_, hlater⟩ | ⟨_, hlater⟩
    · exact ⟨[], hlater⟩
    · exact hlater
  have hsorted : (passed ++ e :: due).Pairwise (· < ·) := hlater ▸ h.rising.sublist (List.drop_sublist _ _)
  have hdue : ∀ x ∈ due, e < x := (List.pairwise_cons.mp (List.pairwise_append.mp hsorted).2.1).1
  rw [next]
  rcases hfailed : w.failed with _ | error
  · dsimp only
    rw [hlater, findIdx?_due hsorted]
    dsimp only
    have hlater' : Pass.later { w with cursor := w.cursor + (passed.length + 1) } = due := by
      have hdrop : w.needed.drop w.cursor = passed ++ e :: due := hlater
      show w.needed.drop (w.cursor + (passed.length + 1)) = due
      rw [← List.drop_drop, hdrop]
      simp
    have hsound := h.sound.advance (w.cursor + (passed.length + 1))
    have hphase : Running s (e :: due) { w with cursor := w.cursor + (passed.length + 1) } ∨
        Stopped s { w with cursor := w.cursor + (passed.length + 1) } :=
      h.phase.imp (fun hrunning => hrunning.1.advance _) fun hstopped => hstopped.1.advance _
    rw [hfailed] at hsound hphase
    split
    case isTrue hpos =>
      have hget : w.table.get e = (w.table.slotOf e, (w.table.get e).2) := Prod.ext SlotTable.get_fst rfl
      rw [hget]
      dsimp only
      rcases hhit : w.table.slotOf e with _ | value
      · apply fetch_given (hsound.get e _ rfl) (phase_get hphase e _) hlater' h.rising hdue
        show (w.table.get e).2.contains e = false
        rw [SlotTable.contains_get]
        exact SlotTable.slotOf_eq_none.mp hhit
      · have hthere : w.table.contains e = true := SlotTable.contains_iff.mpr (hhit ▸ rfl)
        have hphase' := hphase.imp_left fun hrunning => hrunning.passed hsound hthere
        exact issue_given (hsound.get e _ rfl) (phase_get hphase' e _) hlater' h.rising (h.sound.resident e value hhit)
    case isFalse hzero =>
      have hempty := (bounded_moment.mp h.sound.now).2.1 (Nat.eq_zero_of_not_pos hzero)
      exact fetch_given hsound hphase hlater' h.rising hdue (SlotTable.contains_of_len_eq_zero hempty)
  · obtain ⟨hstopped, hrefused⟩ := h.sound.failed error hfailed
    refine ⟨.error error, { w with failed := none }, rfl, ⟨?_, ?_, h.rising⟩, .inr ⟨hstopped, hrefused⟩, List.prefix_refl _⟩
    · exact { h.sound with failed := fun _ herror => absurd herror (by simp) }
    · rcases h.phase with ⟨hrunning, _⟩ | ⟨hstopped', _⟩
      · exact absurd hrefused hrunning.taken
      · refine .inr ⟨⟨hrefused, hstopped'.room, hstopped'.limit⟩, passed ++ [e], ?_⟩
        rw [List.append_assoc]
        exact hlater

/-! ## A whole pass -/

theorem nextAll_spec (h : Between s table other due w) : ∃ results w', nextAll s due w = some (results, w') ∧
    Between s table other [] w' ∧ List.Forall₂ (Delivered s table w'.asked) due results ∧ w.asked <+: w'.asked := by
  induction due generalizing w with
  | nil => exact ⟨[], w, rfl, h, .nil, List.prefix_refl _⟩
  | cons e due ih =>
    obtain ⟨result, w', hstep, hbetween, hdelivered, hpre⟩ := next_given h
    obtain ⟨results, w'', hrest, hbetween', hall, hpre'⟩ := ih hbetween
    refine ⟨result :: results, w'', ?_, hbetween', .cons (hdelivered.mono hpre') hall, hpre.trans hpre'⟩
    rw [nextAll, hstep, Option.bind_some]
    dsimp only
    rw [hrest, Option.map_some]

theorem not_refused_nil : ¬ Refused s [] := by
  rintro ⟨k, hk, _⟩
  exact Nat.not_lt_zero k hk

theorem opening_between {needed : List Nat} {shared : TierShared} (hneeded : needed.Pairwise (· < ·))
    (hslots : table.len ≤ s.ramSlots) (hbytes : shared.ramResidentBytes = other + s.storedBytes * table.len) :
    Sound s table other (opening s needed table shared) ∧ Running s needed (opening s needed table shared) := by
  have hpending : (opening s needed table shared).queue = needed.filter fun e => !table.contains e := by
    show (if s.ramSlots = 0 then needed else needed.filter fun e => !table.contains e) = _
    split
    case isTrue hzero =>
      have hempty : table.len = 0 := by omega
      refine (List.filter_eq_self.mpr fun e _ => ?_).symm
      rw [SlotTable.contains_of_len_eq_zero hempty]
      rfl
    case isFalse => rfl
  constructor
  · apply Sound.seen
    constructor
    · rw [bounded_moment]
      exact ⟨fun _ => hslots, fun hzero => Nat.le_zero.mp (hzero ▸ hslots), hbytes⟩
    · show (opening s needed table shared).queue.Nodup
      rw [hpending]
      exact (hneeded.imp Nat.ne_of_lt).filter _
    · show ∀ e ∈ (opening s needed table shared).queue, table.contains e = false
      rw [hpending]
      intro e he
      simpa using (List.mem_filter.mp he).2
    · exact fun _ herror => absurd herror (by simp)
    · exact fun _ _ hthere => .inl hthere
    · exact fun _ _ hmem => absurd hmem List.not_mem_nil
    · exact fun _ hmem => absurd hmem List.not_mem_nil
    · exact fun _ hmem => absurd hmem List.not_mem_nil
  · refine ⟨not_refused_nil, ?_, ?_, ?_⟩
    · rw [hpending]
      exact hneeded.filter _
    · rw [hpending]
      exact fun e he => List.mem_of_mem_filter he
    · rw [hpending]
      intro e he
      show _ ∨ table.contains e = true
      by_cases hthere : table.contains e = true
      · exact .inr hthere
      · exact .inl (List.mem_filter.mpr ⟨he, by simpa using hthere⟩)

theorem neverRequested_ne_stopped (e : Nat) : neverRequested s e ≠ stoppedError := by
  intro h
  rw [neverRequested, stoppedError, err, err, CucaError.provider.injEq] at h
  have hends := congrArg (fun text : String => text.toList.reverse.take 4) h.2
  rw [String.toList_append, List.reverse_append, List.take_append_of_le_length (by decide)] at hends
  exact absurd hends (by decide)

/-- **The RAM tier**: over every ascending list of experts, and whatever the reads give, the requests of a pass end; the
resident experts and those in flight fit the slots, and the bytes are counted; nothing is requested that is resident or in
flight; and each expert is given once, or the error of a read of its own. Only threads that have stopped refuse it, and the
pass never waits for an expert that it has not requested. -/
theorem walk_sound {needed : List Nat} {shared : TierShared} (hneeded : needed.Pairwise (· < ·))
    (hslots : table.len ≤ s.ramSlots) (hbytes : shared.ramResidentBytes = other + s.storedBytes * table.len) :
    (∀ w, (issue s w).isSome) ∧
      ∃ results w, walk s needed table shared = some (results, w) ∧
        (∀ m ∈ w.moments, m.Bounded s other) ∧
        (∀ q ∈ w.asked, q.1 ∉ q.2.resident ∧ q.1 ∉ q.2.inFlight) ∧
        List.Forall₂ (Delivered s table w.asked) needed results ∧
        ∀ e, .error (neverRequested s e) ∈ results → ∃ k e', s.loader.reply k e' = .error (neverRequested s e) := by
  obtain ⟨hsound, hrunning⟩ := opening_between hneeded hslots hbytes
  have hlater : (opening s needed table shared).later = needed := rfl
  obtain ⟨w, hissue, hissued⟩ := issue_spec (fun x hx => hlater ▸ hx) (.start hsound (.inl hrunning) fun x hx => .inl hx)
  have hbetween : Between s table other needed w := by
    refine ⟨hissued.sound, ?_, hissued.needed ▸ hneeded⟩
    rcases hissued.phase with hrunning | hstopped
    · exact .inl ⟨hrunning, hissued.later.trans hlater⟩
    · exact .inr ⟨hstopped, [], hissued.later.trans hlater⟩
  obtain ⟨results, w', hnext, hbetween', hall, _⟩ := nextAll_spec hbetween
  refine ⟨issue_isSome s, results, w', ?_, hbetween'.sound.moments, hbetween'.sound.asked, hall, fun e he => ?_⟩
  · rw [walk, pass, hissue, Option.bind_some, hnext]
  · obtain ⟨i, hi⟩ := List.mem_iff_getElem?.mp he
    obtain ⟨x, _, hx⟩ := Pointwise.getElem? hall hi
    rcases hx with ⟨k, _, _, _, hreply⟩ | ⟨hstopped, _⟩
    · exact ⟨k, x, hreply⟩
    · exact absurd hstopped (neverRequested_ne_stopped e)

def twoSlots : ExpertStore :=
  ⟨0, 2, 1, 100, [3, 0, 5], ⟨fun k e => if k = 1 then .error (.io "truncated GGUF?") else .ok (10 * k + e, 7), none⟩⟩

def zeroAndFive : SlotTable := (SlotTable.new.insert 5 105).insert 0 100

theorem walk_two_slots : ∃ w, walk twoSlots [0, 1, 2, 5, 6] zeroAndFive ⟨0, 0, 0, 200⟩ =
    some ([.ok 100, .ok 1, .error (.io "truncated GGUF?"), .ok 25, .ok 36], w) ∧ ∀ m ∈ w.moments, m.Bounded twoSlots 0 := by
  obtain ⟨_, results, w, hwalk, hmoments, _⟩ := @walk_sound twoSlots zeroAndFive 0 [0, 1, 2, 5, 6] ⟨0, 0, 0, 200⟩
    (by decide) (by decide) (by decide)
  have hresults : (walk twoSlots [0, 1, 2, 5, 6] zeroAndFive ⟨0, 0, 0, 200⟩).map Prod.fst =
    some [.ok 100, .ok 1, .error (.io "truncated GGUF?"), .ok 25, .ok 36] := by decide
  rw [hwalk] at hresults
  obtain rfl := Option.some.inj hresults
  exact ⟨w, hwalk, hmoments⟩

end Cuca.Local.RamTier
