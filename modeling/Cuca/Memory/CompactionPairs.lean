import Cuca.Memory.CompactionSurvives

/-!
# Tool calls and their results under compaction

A result outside the most recent User message has its call in front of it, and a call whose results are gone is gone.
The closed set sees to the first for the messages a strategy picks, and for these only.

* `Follows`, `Paired` : the pairing of a prompt, and of one that is compacted;
* `KeepsPairs` : a step that takes no call, and no last result, of a pair of which it leaves the other half;
* `step_paired_iff` : just such steps keep the pairing;
* `pairs_kept_iff` : over a whole compaction.
-/

namespace Cuca.Memory.Compaction
open Removal Transition

def Follows (messages : List UnifiedMessage) : Prop :=
  ∀ i m, messages[i]? = some m → ∀ id ∈ resultIds m, ∃ h ∈ messages.take i, id ∈ callIds h

theorem follows_iff {messages : List UnifiedMessage} : Follows messages ↔
    ∀ i (h : i < messages.length), ∀ id ∈ resultIds messages[i], ∃ h ∈ messages.take i, id ∈ callIds h := by
  refine ⟨fun hfollows i h => hfollows i _ (List.getElem?_eq_getElem h), fun hfollows i m hm => ?_⟩
  obtain ⟨hlt, rfl⟩ := List.getElem?_eq_some_iff.mp hm
  exact hfollows i hlt

instance (messages : List UnifiedMessage) : Decidable (Follows messages) := decidable_of_iff' _ follows_iff

/-- The pairing of what is left of the original messages. -/
structure Paired (original messages : List UnifiedMessage) : Prop where
  /-- A result outside the most recent User message has its call in front of it. -/
  results : ∀ i m, messages[i]? = some m → rposition isUser messages ≠ some i → ∀ id ∈ resultIds m,
    ∃ h ∈ messages.take i, id ∈ callIds h
  /-- A call that is left, and had a result, has one. -/
  calls : ∀ id, (∃ m ∈ original, id ∈ resultIds m) → (∃ m ∈ messages, id ∈ callIds m) → ∃ m ∈ messages, id ∈ resultIds m

theorem Follows.paired {messages : List UnifiedMessage} (h : Follows messages) : Paired messages messages :=
  ⟨fun i m hm _ => h i m hm, fun _ hresult _ => hresult⟩

def NoNewResults (original messages : List UnifiedMessage) : Prop :=
  ∀ id, (∃ m ∈ messages, id ∈ resultIds m) → ∃ m ∈ original, id ∈ resultIds m

namespace MemoryPlugin
variable {F W : Type} (p : MemoryPlugin F W)

/-- A message other than the most recent User message that carries the result of a call in a picked message. -/
def Carries (messages : List UnifiedMessage) (strategy : CompactionStrategy) (i : Nat) : Prop :=
  rposition isUser messages ≠ some i ∧ ∃ m, messages[i]? = some m ∧
    ∃ id ∈ resultIds m, ∃ j ∈ p.picks messages strategy, ∃ h, messages[j]? = some h ∧ id ∈ callIds h

def Goes (messages : List UnifiedMessage) (strategy : CompactionStrategy) (i : Nat) : Prop :=
  i ∈ p.picks messages strategy ∨ strategy ≠ .dropObservations ∧ p.Carries messages strategy i

def GoesUnclosed (messages : List UnifiedMessage) (strategy : CompactionStrategy) (i : Nat) : Prop :=
  p.Goes messages strategy i ∧ (i ∉ p.picks messages strategy ∨ strategy = .dropObservations)

/-- A strategy that removes messages halves no pair. -/
structure HalvesNone (messages : List UnifiedMessage) (strategy : CompactionStrategy) : Prop where
  /-- A call that goes unclosed has no result that stays, or an earlier message that stays has the call too. -/
  calls : ∀ i m, messages[i]? = some m → ¬ p.Goes messages strategy i → rposition isUser messages ≠ some i →
    ∀ id ∈ resultIds m, (∃ j f, (messages.take i)[j]? = some f ∧ p.GoesUnclosed messages strategy j ∧ id ∈ callIds f) →
      ∃ j h, (messages.take i)[j]? = some h ∧ ¬ p.Goes messages strategy j ∧ id ∈ callIds h
  /-- A result that goes has no call in a message that stays, or another result of that call stays. -/
  results : ∀ j g, messages[j]? = some g → p.Goes messages strategy j → ∀ id ∈ resultIds g,
    (∃ i h, messages[i]? = some h ∧ ¬ p.Goes messages strategy i ∧ id ∈ callIds h) →
      ∃ i m, messages[i]? = some m ∧ ¬ p.Goes messages strategy i ∧ id ∈ resultIds m
  /-- A summary behind the most recent User message, which then is one like the others, finds the calls of its results in
  front of it. -/
  summary : ∀ turns, strategy = .summarize turns → ∀ i m, rposition isUser messages = some i → messages[i]? = some m →
    (∀ j, p.Goes messages strategy j → i < j) → ∀ id ∈ resultIds m, ∃ h ∈ messages.take i, id ∈ callIds h

def KeepsPairs (s : Prompt W) (strategy : CompactionStrategy) : Prop :=
  p.Removes s strategy → p.HalvesNone s.messages strategy

/-! ## What a removal leaves of the pairs -/

def HeldOutside (exempt : Nat → Prop) (messages : List UnifiedMessage) : Prop :=
  ∀ i m, messages[i]? = some m → ¬ exempt i → ∀ id ∈ resultIds m, ∃ h ∈ messages.take i, id ∈ callIds h

variable {p}

theorem mem_taken_iff {messages : List UnifiedMessage} {strategy : CompactionStrategy} {i : Nat} :
    i ∈ p.taken messages strategy ↔ p.Goes messages strategy i := by
  have hclosed : i ∈ closedIdxs messages (p.picks messages strategy) ↔
      i ∈ p.picks messages strategy ∨ p.Carries messages strategy i := by
    rw [mem_closedIdxs]
    constructor
    · rintro ⟨hlt, hpicked | ⟨hother, m, hm, hcarries⟩⟩
      · exact .inl hpicked
      · obtain ⟨id, hheld, hid⟩ := carriesResult_iff.mp hcarries
        exact .inr ⟨hother, m, hm, id, hid, mem_heldIds.mp hheld⟩
    · rintro (hpicked | ⟨hother, m, hm, id, hid, hheld⟩)
      · exact ⟨p.lt_of_mem_picks hpicked, .inl hpicked⟩
      · have hlt : i < messages.length := (List.getElem?_eq_some_iff.mp hm).1
        exact ⟨hlt, .inr ⟨hother, m, hm, carriesResult_iff.mpr ⟨id, mem_heldIds.mpr hheld, hid⟩⟩⟩
  rcases eq_or_ne strategy .dropObservations with rfl | hclosing
  · show i ∈ p.picks messages .dropObservations ↔ _
    simp [Goes]
  · have htaken : p.taken messages strategy = closedIdxs messages (p.picks messages strategy) := by
      unfold taken
      split
      · exact absurd rfl hclosing
      · rfl
    rw [htaken, hclosed, Goes, and_iff_right hclosing]

theorem mem_left_iff {messages : List UnifiedMessage} {strategy : CompactionStrategy} {m : UnifiedMessage} :
    m ∈ p.left messages strategy ↔ ∃ i, messages[i]? = some m ∧ ¬ p.Goes messages strategy i := by
  rw [left, mem_removing]
  simp only [decide_eq_false_iff_not, mem_taken_iff]

theorem closed_of_picked {messages : List UnifiedMessage} {strategy : CompactionStrategy} {i j : Nat}
    {m h : UnifiedMessage} {id : String} (hm : messages[i]? = some m) (hresult : id ∈ resultIds m)
    (hh : messages[j]? = some h) (hcall : id ∈ callIds h) (hpicked : j ∈ p.picks messages strategy)
    (hclosing : strategy ≠ .dropObservations) (hstays : ¬ p.Goes messages strategy i) :
    rposition isUser messages = some i := by
  by_contra hother
  exact hstays (.inr ⟨hclosing, hother, m, hm, id, hresult, j, hpicked, h, hh, hcall⟩)

theorem left_held_iff {messages : List UnifiedMessage} (strategy : CompactionStrategy)
    (hpaired : HeldOutside (fun i => rposition isUser messages = some i) messages) :
    HeldOutside (fun k => rposition isUser (p.left messages strategy) = some k) (p.left messages strategy) ↔
      ∀ i m, messages[i]? = some m → ¬ p.Goes messages strategy i → rposition isUser messages ≠ some i →
        ∀ id ∈ resultIds m,
          (∃ j f, (messages.take i)[j]? = some f ∧ p.GoesUnclosed messages strategy j ∧ id ∈ callIds f) →
          ∃ j h, (messages.take i)[j]? = some h ∧ ¬ p.Goes messages strategy j ∧ id ∈ callIds h := by
  have huser (i : Nat) (hi : rposition isUser messages = some i) : decide (i ∈ p.taken messages strategy) = false :=
    decide_eq_false (p.taken_spares_user hi)
  have hdecide (i : Nat) : decide (i ∈ p.taken messages strategy) = false ↔ ¬ p.Goes messages strategy i := by
    rw [decide_eq_false_iff_not, mem_taken_iff]
  constructor
  · intro hleft i m hm hstays hother id hid _
    have hdrop := (hdecide i).mpr hstays
    have hother' : rposition isUser (p.left messages strategy) ≠
        some (removing (fun j => decide (j ∈ p.taken messages strategy)) (messages.take i)).length := by
      rwa [left, Ne, rposition_removing huser hm hdrop]
    obtain ⟨h, hmem, hcall⟩ := hleft _ m (getElem?_removing_length hm hdrop) hother' id hid
    rw [left, take_removing hm hdrop] at hmem
    obtain ⟨j, hj, hkept⟩ := (mem_removing _).mp hmem
    exact ⟨j, h, hj, (hdecide j).mp hkept, hcall⟩
  · intro hcalls k m hm hother id hid
    obtain ⟨i, hi, hdrop, rfl⟩ := getElem?_removing hm
    replace hother : rposition isUser messages ≠ some i := fun heq =>
      hother ((rposition_removing huser hi hdrop).mpr heq)
    rw [left, take_removing hi hdrop]
    have hstays := (hdecide i).mp hdrop
    obtain ⟨h, hmem, hcall⟩ := hpaired i m hi hother id hid
    obtain ⟨j, hj⟩ := List.mem_iff_getElem?.mp hmem
    by_cases hgoes : p.Goes messages strategy j
    case neg => exact ⟨h, (mem_removing _).mpr ⟨j, hj, (hdecide j).mpr hgoes⟩, hcall⟩
    have hunclosed : p.GoesUnclosed messages strategy j := by
      refine ⟨hgoes, ?_⟩
      by_contra hpicked
      push Not at hpicked
      have hjm : messages[j]? = some h := by
        rw [List.getElem?_take] at hj
        exact (Option.ite_none_right_eq_some.mp hj).2
      exact hother (closed_of_picked hi hid hjm hcall hpicked.1 hpicked.2 hstays)
    obtain ⟨j', h', hj', hstays', hcall'⟩ := hcalls i m hi hstays hother id hid ⟨j, h, hj, hunclosed, hcall⟩
    exact ⟨h', (mem_removing _).mpr ⟨j', hj', (hdecide j').mpr hstays'⟩, hcall'⟩

/-- A message put into a prompt, with no call and no result: the places behind it move up by one, and those before it
are not exempt any more when it is a User message. -/
theorem inserted_held_iff (pre rest : List UnifiedMessage) {m : UnifiedMessage} (huser : isUser m)
    (hcalls : callIds m = []) (hresults : resultIds m = []) :
    HeldOutside (fun k => rposition isUser (pre ++ m :: rest) = some k) (pre ++ m :: rest) ↔
      HeldOutside (fun k => pre.length ≤ k ∧ rposition isUser (pre ++ rest) = some k) (pre ++ rest) := by
  have hexempt (k : Nat) : rposition isUser (pre ++ m :: rest) = some (k + 1) ∧ pre.length ≤ k ↔
      pre.length ≤ k ∧ rposition isUser (pre ++ rest) = some k := by
    rw [rposition_insert huser, rposition_append]
    rcases hrest : rposition isUser rest with _ | r
    · have hpre : ¬ (pre.length ≤ k ∧ rposition isUser pre = some k) := fun ⟨hge, hat⟩ =>
        Nat.not_lt.mpr hge (rposition_lt hat)
      have hat : ¬ (some pre.length = some (k + 1) ∧ pre.length ≤ k) := fun ⟨heq, hge⟩ => by
        have := Option.some.inj heq
        omega
      exact iff_of_false hat hpre
    · simp
      omega
  have hearly (k : Nat) (hk : k < pre.length) : rposition isUser (pre ++ m :: rest) ≠ some k := by
    rw [rposition_insert huser]
    rcases rposition isUser rest with _ | r
    · simp
      omega
    · simp
      omega
  have hlater (n : Nat) : (pre ++ m :: rest)[pre.length + n + 1]? = (pre ++ rest)[pre.length + n]? := by
    rw [Nat.add_assoc, List.getElem?_append_right (Nat.le_add_right ..), List.getElem?_append_right (Nat.le_add_right ..)]
    simp
  have hbefore (n : Nat) (id : String) : (∃ h ∈ (pre ++ m :: rest).take (pre.length + n + 1), id ∈ callIds h) ↔
      ∃ h ∈ (pre ++ rest).take (pre.length + n), id ∈ callIds h := by
    rw [Nat.add_assoc, List.take_length_add_append, List.take_length_add_append, List.take_succ_cons]
    simp [hcalls, or_and_right, exists_or]
  have hsame (k : Nat) (hk : k < pre.length) : (pre ++ m :: rest)[k]? = (pre ++ rest)[k]? ∧
      (pre ++ m :: rest).take k = (pre ++ rest).take k := by
    rw [List.getElem?_append_left hk, List.getElem?_append_left hk, List.take_append_of_le_length (Nat.le_of_lt hk),
      List.take_append_of_le_length (Nat.le_of_lt hk)]
    exact ⟨rfl, rfl⟩
  constructor
  · intro hheld k x hx hother id hid
    rcases Nat.lt_or_ge k pre.length with hlt | hge
    · obtain ⟨hget, htake⟩ := hsame k hlt
      rw [← htake]
      exact hheld k x (hget.trans hx) (hearly k hlt) id hid
    · obtain ⟨n, rfl⟩ := Nat.exists_eq_add_of_le hge
      rw [← hbefore]
      exact hheld _ x ((hlater n).trans hx) (fun heq => hother ((hexempt _).mp ⟨heq, hge⟩)) id hid
  · intro hheld k x hx hother id hid
    rcases Nat.lt_trichotomy k pre.length with hlt | rfl | hgt
    · obtain ⟨hget, htake⟩ := hsame k hlt
      rw [htake]
      exact hheld k x (hget.symm.trans hx) (fun ⟨hge, _⟩ => Nat.not_lt.mpr hge hlt) id hid
    · obtain rfl : m = x := by simpa using hx
      rw [hresults] at hid
      exact absurd hid List.not_mem_nil
    · obtain ⟨n, rfl⟩ : ∃ n, k = pre.length + n + 1 := ⟨k - pre.length - 1, by omega⟩
      rw [hbefore]
      exact hheld _ x ((hlater n).symm.trans hx) (fun hat => hother ((hexempt _).mpr hat).1) id hid

theorem left_calls_iff {original messages : List UnifiedMessage} (strategy : CompactionStrategy)
    (hpaired : Paired original messages) (hresults : NoNewResults original messages) :
    (∀ id, (∃ m ∈ original, id ∈ resultIds m) → (∃ m ∈ p.left messages strategy, id ∈ callIds m) →
        ∃ m ∈ p.left messages strategy, id ∈ resultIds m) ↔
      ∀ j g, messages[j]? = some g → p.Goes messages strategy j → ∀ id ∈ resultIds g,
        (∃ i h, messages[i]? = some h ∧ ¬ p.Goes messages strategy i ∧ id ∈ callIds h) →
          ∃ i m, messages[i]? = some m ∧ ¬ p.Goes messages strategy i ∧ id ∈ resultIds m := by
  have hstays (id : String) (ids : UnifiedMessage → List String) : (∃ m ∈ p.left messages strategy, id ∈ ids m) ↔
      ∃ i m, messages[i]? = some m ∧ ¬ p.Goes messages strategy i ∧ id ∈ ids m := by
    constructor
    · rintro ⟨m, hm, hid⟩
      obtain ⟨i, hi, hgoes⟩ := mem_left_iff.mp hm
      exact ⟨i, m, hi, hgoes, hid⟩
    · rintro ⟨i, m, hi, hgoes, hid⟩
      exact ⟨m, mem_left_iff.mpr ⟨i, hi, hgoes⟩, hid⟩
  simp only [hstays]
  constructor
  · intro hleft j g hg _ id hid
    exact hleft id (hresults id ⟨g, List.mem_of_getElem? hg, hid⟩)
  · rintro hgoes id horiginal ⟨i, h, hh, hstay, hcall⟩
    obtain ⟨m, hm, hid⟩ := hpaired.calls id horiginal ⟨h, List.mem_of_getElem? hh, hcall⟩
    obtain ⟨j, hj⟩ := List.mem_iff_getElem?.mp hm
    by_cases hgoesToo : p.Goes messages strategy j
    · exact hgoes j m hj hgoesToo id hid ⟨i, h, hh, hstay, hcall⟩
    · exact ⟨j, m, hj, hgoesToo, hid⟩

theorem left_exempt_iff {messages pre behind rest : List UnifiedMessage} {strategy : CompactionStrategy}
    (hmessages : messages = pre ++ behind) (hpre : p.Goes messages strategy pre.length)
    (hfirst : ∀ j, p.Goes messages strategy j → pre.length ≤ j) (hleft : p.left messages strategy = pre ++ rest) :
    HeldOutside (fun k => pre.length ≤ k ∧ rposition isUser (p.left messages strategy) = some k)
        (p.left messages strategy) ↔
      HeldOutside (fun k => rposition isUser (p.left messages strategy) = some k) (p.left messages strategy) ∧
        ∀ i m, rposition isUser messages = some i → messages[i]? = some m → (∀ j, p.Goes messages strategy j → i < j) →
          ∀ id ∈ resultIds m, ∃ h ∈ messages.take i, id ∈ callIds h := by
  have hearly (k : Nat) (hk : k < pre.length) : messages[k]? = (p.left messages strategy)[k]? ∧
      messages.take k = (p.left messages strategy).take k := by
    rw [hleft, hmessages, List.getElem?_append_left hk, List.getElem?_append_left hk,
      List.take_append_of_le_length (Nat.le_of_lt hk), List.take_append_of_le_length (Nat.le_of_lt hk)]
    exact ⟨rfl, rfl⟩
  have huser (k : Nat) (m : UnifiedMessage) (hk : k < pre.length) (hm : messages[k]? = some m) :
      rposition isUser (p.left messages strategy) = some k ↔ rposition isUser messages = some k := by
    have hstays : ∀ j ≤ k, decide (j ∈ p.taken messages strategy) = false := fun j hj => decide_eq_false fun hmem => by
      have := hfirst j (mem_taken_iff.mp hmem)
      omega
    have hlength : (removing (fun j => decide (j ∈ p.taken messages strategy)) (messages.take k)).length = k := by
      rw [removing_eq_self fun j hj => hstays j (Nat.le_of_lt (Nat.lt_of_lt_of_le hj (List.length_take_le ..)))]
      exact List.length_take_of_le (Nat.le_of_lt (List.getElem?_eq_some_iff.mp hm).1)
    have hiff := rposition_removing (fun i hi => decide_eq_false (p.taken_spares_user hi)) hm (hstays k (Nat.le_refl k))
    rwa [hlength] at hiff
  constructor
  · intro hheld
    refine ⟨fun k x hx hother id hid => hheld k x hx (fun hat => hother hat.2) id hid, ?_⟩
    intro i m hi hm hbehind id hid
    have hlt : i < pre.length := hbehind _ hpre
    rw [(hearly i hlt).2]
    exact hheld i m ((hearly i hlt).1.symm.trans hm) (fun hat => Nat.not_lt.mpr hat.1 hlt) id hid
  · rintro ⟨hheld, hbehind⟩ k x hx hother id hid
    by_cases hat : rposition isUser (p.left messages strategy) = some k
    case neg => exact hheld k x hx hat id hid
    have hlt : k < pre.length := by
      by_contra hge
      exact hother ⟨Nat.le_of_not_lt hge, hat⟩
    have hm : messages[k]? = some x := (hearly k hlt).1.trans hx
    rw [← (hearly k hlt).2]
    exact hbehind k x ((huser k x hlt hm).mp hat) hm (fun j hj => Nat.lt_of_lt_of_le hlt (hfirst j hj)) id hid

/-! ## One step -/

theorem Paired.trimmed {strategies : List CompactionStrategy} {original messages messages' : List UnifiedMessage}
    (h : Paired original messages) (hedit : List.Forall₂ (Trimmed p strategies) messages messages') :
    Paired original messages' := by
  have hcall (id : String) (m m' : UnifiedMessage) (htrimmed : Trimmed p strategies m m') (hid : id ∈ callIds m) :
      id ∈ callIds m' := by rwa [htrimmed.callIds]
  have hresult (id : String) (m m' : UnifiedMessage) (htrimmed : Trimmed p strategies m m') (hid : id ∈ resultIds m) :
      id ∈ resultIds m' := by rwa [htrimmed.resultIds]
  refine ⟨fun i m' hm' hother id hid => ?_, fun id horiginal hcalled => ?_⟩
  · obtain ⟨m, hm, htrimmed⟩ := Pointwise.getElem? hedit hm'
    rw [Pointwise.rposition (p := isUser) (fun _ _ => Trimmed.isUser) hedit] at hother
    rw [htrimmed.resultIds] at hid
    exact Pointwise.exists_mem (hcall id) (List.forall₂_take i hedit) (h.results i m hm hother id hid)
  · obtain ⟨m', hm', hid⟩ := hcalled
    obtain ⟨i, hi⟩ := List.mem_iff_getElem?.mp hm'
    obtain ⟨m, hm, htrimmed⟩ := Pointwise.getElem? hedit hi
    rw [htrimmed.callIds] at hid
    exact Pointwise.exists_mem (hresult id) hedit (h.calls id horiginal ⟨m, List.mem_of_getElem? hm, hid⟩)

theorem noNewResults_step {original : List UnifiedMessage} (s : Prompt W) (strategy : CompactionStrategy)
    (h : NoNewResults original s.messages) : NoNewResults original (p.step s strategy).messages := by
  rintro id ⟨m', hm', hid⟩
  rcases p.mem_step hm' with ⟨m, hm, htrimmed⟩ | ⟨summary, rfl⟩
  · rw [htrimmed.resultIds] at hid
    exact h id ⟨m, hm, hid⟩
  · exact absurd hid List.not_mem_nil

/-- **One step** keeps the pairing just when it halves no pair. -/
theorem step_paired_iff {original : List UnifiedMessage} {s : Prompt W} {strategy : CompactionStrategy}
    (h : Paired original s.messages) (hresults : NoNewResults original s.messages) :
    Paired original (p.step s strategy).messages ↔ p.KeepsPairs s strategy := by
  have hheld := left_held_iff (p := p) strategy h.results
  have hcalls := left_calls_iff (p := p) strategy h hresults
  rcases p.step_effect s strategy with ⟨hnone, hedit⟩ | ⟨hremoves, hother, hleft⟩ | ⟨summary, hremoves, hsummarize, hleft⟩
  · exact iff_of_true (Paired.trimmed h hedit) fun hremoves => absurd hremoves hnone
  · rw [hleft]
    constructor
    · intro hpaired _
      exact ⟨hheld.mp hpaired.results, hcalls.mp hpaired.calls, fun turns hsummarize => absurd hsummarize (hother turns)⟩
    · intro hkeeps
      have hhalves := hkeeps hremoves
      exact ⟨hheld.mpr hhalves.calls, hcalls.mpr hhalves.results⟩
  · obtain ⟨pre, first, post, hmessages, hpre, hfirst, heq, hinsert⟩ := p.left_eq_append hremoves.1
    have hexempt := left_exempt_iff hmessages (mem_taken_iff.mp hpre) (fun j hj => hfirst j (mem_taken_iff.mpr hj)) heq
    have hinserted := inserted_held_iff pre
      (removing (fun i => decide (pre.length + 1 + i ∈ p.taken s.messages strategy)) post)
      (m := UnifiedMessage.user summary) rfl rfl rfl
    have hmem (id : String) (ids : UnifiedMessage → List String) (hnone : ids (UnifiedMessage.user summary) = []) :
        (∃ m ∈ pre ++ UnifiedMessage.user summary ::
          removing (fun i => decide (pre.length + 1 + i ∈ p.taken s.messages strategy)) post, id ∈ ids m) ↔
        ∃ m ∈ p.left s.messages strategy, id ∈ ids m := by
      rw [heq]
      simp [hnone, or_and_right, exists_or]
    rw [← heq] at hinserted
    rw [hleft, hinsert]
    constructor
    · intro hpaired _
      obtain ⟨hfirstHalf, hbehind⟩ := hexempt.mp (hinserted.mp hpaired.results)
      refine ⟨hheld.mp hfirstHalf, hcalls.mp fun id horiginal hcalled => ?_, fun _ _ => hbehind⟩
      exact (hmem id resultIds rfl).mp (hpaired.calls id horiginal ((hmem id callIds rfl).mpr hcalled))
    · intro hkeeps
      have hhalves := hkeeps hremoves
      have hbehind := hhalves.summary _ hsummarize
      refine ⟨hinserted.mpr (hexempt.mpr ⟨hheld.mpr hhalves.calls, hbehind⟩), fun id horiginal hcalled => ?_⟩
      exact (hmem id resultIds rfl).mpr (hcalls.mpr hhalves.results id horiginal ((hmem id callIds rfl).mp hcalled))

/-! ## A compaction -/

/-- **The pairs of a compaction**: it leaves the pairing whole, at every stage, just when none of its steps halves a
pair. -/
theorem pairs_kept_iff (p : MemoryPlugin F W) (budget : Budget) (s : Prompt W) (h : Follows s.messages) :
    (Throughout p.step (fun t => Paired s.messages t.messages) s (p.ran budget s) ↔
        Along p.step p.KeepsPairs s (p.ran budget s)) ∧
      (Along p.step p.KeepsPairs s (p.ran budget s) → Paired s.messages (p.compressInner budget s).2.messages) := by
  have hresults : Throughout p.step (fun t => NoNewResults s.messages t.messages) s (p.ran budget s) :=
    throughout_invariant (fun t strategy ht => noNewResults_step t strategy ht) (fun _ hid => hid) _
  have hboth : Throughout p.step (fun t => Paired s.messages t.messages ∧ NoNewResults s.messages t.messages) s
      (p.ran budget s) ↔ Along p.step p.KeepsPairs s (p.ran budget s) := throughout_iff_along
    (fun t strategy ht => ⟨fun hnext => (step_paired_iff ht.1 ht.2).mp hnext.1,
      fun hkeeps => ⟨(step_paired_iff ht.1 ht.2).mpr hkeeps, noNewResults_step t strategy ht.2⟩⟩)
    ⟨h.paired, fun _ hid => hid⟩ (p.ran budget s)
  have hiff : Throughout p.step (fun t => Paired s.messages t.messages) s (p.ran budget s) ↔
      Along p.step p.KeepsPairs s (p.ran budget s) :=
    ⟨fun hpaired => hboth.mp (hpaired.and hresults), fun halong => (hboth.mpr halong).imp fun _ ht => ht.1⟩
  refine ⟨hiff, fun halong => ?_⟩
  rw [compressInner_run]
  exact (hiff.mpr halong).last

def asks (id : String) : MessageContentBlock := .toolCall id "search" .null

def answers (id : String) : MessageContentBlock := .toolResult id "found"

theorem pairs_kept_iff_search :
    let p := summarizing [.dropTurns]
    let s : Prompt Unit := ⟨(), [⟨.assistant, [asks "a"], none, none⟩, ⟨.tool, [answers "a"], none, none⟩,
      said .user "question"]⟩
    Follows s.messages ∧
      (Throughout p.step (fun t => Paired s.messages t.messages) s (p.ran .unlimited s) ↔
        Along p.step p.KeepsPairs s (p.ran .unlimited s)) := by
  intro p s
  have hfollows : Follows s.messages := by decide
  exact ⟨hfollows, (pairs_kept_iff p .unlimited s hfollows).1⟩

/-- A result left without its call, which followed another call out, and a call left without its result, which shared a
message with the result of a call that was dropped. -/
theorem pairs_halved :
    let p := summarizing [.dropTurns]
    let chain := [⟨.assistant, [asks "a"], none, none⟩, ⟨.assistant, [answers "a", asks "b"], none, none⟩,
      ⟨.assistant, [answers "b"], none, none⟩, said .user "question"]
    let shared := [⟨.assistant, [asks "a"], none, none⟩, ⟨.assistant, [asks "b"], none, none⟩,
      ⟨.user, [answers "a", answers "b"], none, none⟩, said .user "question"]
    (Follows chain ∧ ¬ Paired chain (p.compress ⟨(), chain⟩).2.messages) ∧
      Follows shared ∧ ¬ Paired shared (p.compress ⟨(), shared⟩).2.messages := by
  intro p chain shared
  refine ⟨⟨by decide, fun hpaired => ?_⟩, by decide, fun hpaired => ?_⟩
  · have hout : (p.compress ⟨(), chain⟩).2.messages =
        [⟨.assistant, [answers "b"], none, none⟩, said .user "question"] := rfl
    rw [hout] at hpaired
    obtain ⟨h, hmem, _⟩ := hpaired.results 0 _ rfl (by decide) "b" (by decide)
    exact List.not_mem_nil hmem
  · have hout : (p.compress ⟨(), shared⟩).2.messages =
        [⟨.assistant, [asks "b"], none, none⟩, said .user "question"] := rfl
    rw [hout] at hpaired
    obtain ⟨m, hmem, hid⟩ := hpaired.calls "b" ⟨⟨.user, [answers "a", answers "b"], none, none⟩, by simp [shared], by decide⟩
      ⟨⟨.assistant, [asks "b"], none, none⟩, by simp, by decide⟩
    have hnone : ∀ m ∈ [⟨.assistant, [asks "b"], none, none⟩, said .user "question"], "b" ∉ resultIds m := by decide
    exact hnone m hmem hid

end MemoryPlugin
end Cuca.Memory.Compaction
