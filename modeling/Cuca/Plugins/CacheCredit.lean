import Cuca.Plugins.CostBalance

/-!
# What the cache correction credits

A request is charged for all its prompt tokens at the input rate. When the response reports how many of them the provider had in its
cache, these are counted, their price at the input rate is taken back and their price at the cache rate goes on. The counter is
clamped to all prompt tokens the bucket was ever charged, not to those that were not credited before.

* `Turn`, `Account` : a charge and a commit, and a tally of each bucket beside the ledger;
* `Credited` : no more is credited than was charged;
* `Uncredited` : the turn reads tokens, and takes back spend, that are still there;
* `credited_iff` : no more is credited throughout a run if and only if each turn is so.
-/

namespace Cuca.Cost
open Buckets Transition

/-! ## One bucket at a time -/

namespace CostLedger

section
variable {l l' : CostLedger} {key : String} {taken added : Field → Nat}

/-- The bucket of the key loses and gains this much, short of saturation; the others stay. -/
structure MovesAt (l l' : CostLedger) (key : String) (taken added : Field → Nat) : Prop where
  here : ∀ f, (l.bucket key).get f - taken f + added f < u64Max →
    (l'.bucket key).get f = (l.bucket key).get f - taken f + added f
  there : ∀ other, other ≠ key → l'.bucket other = l.bucket other

theorem bucket_le (l : CostLedger) (hbalanced : l.Balanced) (key : String) (f : Field) :
    (l.bucket key).get f ≤ l.totals.entry.get f := by
  rw [← hbalanced f]
  exact valueAt_le_total (f := fun e : CostEntry => e.get f) (CostEntry.get_zero f) (fun _ => Nat.zero_le _) key

theorem MovesAt.exact (hat : MovesAt l l' key taken added) (h : Moves l l' key taken added) (hbelow : l'.Below)
    (hbalanced : l.Balanced) (f : Field) : (l'.bucket key).get f = (l.bucket key).get f - taken f + added f := by
  have hlow := hbelow f
  have htotals := h.totals f hlow
  have hle := bucket_le l hbalanced key f
  apply hat.here
  omega

theorem movesAt_charge (l : CostLedger) (model : String) (maxTracked : Nat) (charge : RequestCharge) :
    MovesAt l (l.chargeRequest model maxTracked charge) (l.keyFor model maxTracked).1 (fun _ => 0) charge.entry.get := by
  unfold chargeRequest addToBucket
  dsimp only
  generalize (l.keyFor model maxTracked).1 = key
  rcases hlookup : l.perModel.lookup key with _ | e
  · refine ⟨fun f _ => ?_, fun other hne => valueAt_insert_ne _ _ _ _ hne⟩
    rw [bucket_of_none hlookup, bucket, valueAt_insert_self, CostEntry.get_zero, Nat.sub_zero, Nat.zero_add]
  · refine ⟨fun f hroom => ?_, fun other hne => valueAt_insert_ne _ _ _ _ hne⟩
    rw [bucket_of_lookup hlookup, Nat.sub_zero] at hroom ⊢
    rw [bucket, valueAt_insert_self, CostEntry.get_add, satAdd_eq hroom]

theorem movesAt_commit (l : CostLedger) (model : String) (maxTracked : Nat) (delta : CostEntry) (micros : Nat) :
    MovesAt l (l.commitResponse model maxTracked delta micros) (l.keyFor model maxTracked).1 (ofSpend micros) delta.get := by
  unfold commitResponse
  rcases l.keyFor model maxTracked with ⟨key, folded⟩
  dsimp only
  rcases hlookup : l.perModel.lookup key with _ | e
  · refine ⟨fun f hroom => ?_, fun other hne => valueAt_insert_ne _ _ _ _ hne⟩
    rw [bucket_of_none hlookup] at hroom ⊢
    rw [bucket, valueAt_insert_self, CostEntry.get_commit, satAdd_eq hroom]
  · refine ⟨fun f hroom => ?_, fun other hne => valueAt_insert_ne _ _ _ _ hne⟩
    rw [bucket_of_lookup hlookup] at hroom ⊢
    rw [bucket, valueAt_insert_self, CostEntry.get_commit, satAdd_eq hroom]

end

end CostLedger

/-! ## Turns -/

/-- A request and its response, each with what the resolver answers then. -/
structure Turn where
  req : UnifiedRequest
  requestRates : Option ModelRates
  res : UnifiedResponse
  responseRates : Option ModelRates

/-- What a bucket was charged for prompts, what was taken back of it, and the completion and cache prices committed. -/
structure Tally where
  promptSpend : Nat
  refunded : Nat
  committed : Nat
  deriving DecidableEq

def Tally.zero : Tally := ⟨0, 0, 0⟩

/-- The ledger, and the tally of each bucket. -/
structure Account where
  ledger : CostLedger
  tallies : AList fun _ : String => Tally

namespace Account

def new : Account := ⟨.new, ∅⟩

def tally (a : Account) (key : String) : Tally := valueAt .zero a.tallies key

/-- The bucket's tally, with what is added to it. -/
def post (a : Account) (key : String) (added : Tally) : AList fun _ : String => Tally :=
  a.tallies.insert key
    ⟨(a.tally key).promptSpend + added.promptSpend, (a.tally key).refunded + added.refunded,
      (a.tally key).committed + added.committed⟩

section
variable (enc : Encoder) (config : CostConfig)

/-- The request is charged, unless it is refused. -/
def charge (a : Account) (t : Turn) : Option Account :=
  match onRequest enc config t.requestRates t.req a.ledger with
  | .error _ => none
  | .ok (charge, ledger) =>
    some ⟨ledger, a.post (a.ledger.keyFor t.req.model config.maxTrackedModels).1 ⟨charge.entry.spentMicros, 0, 0⟩⟩

/-- The response is committed. -/
def commit (a : Account) (t : Turn) : Account :=
  let (delta, refundMicros) := responseDelta enc config t.responseRates t.res a.ledger
  ⟨onResponseComplete enc config t.responseRates t.res a.ledger,
    a.post (a.ledger.keyFor t.res.model config.maxTrackedModels).1 ⟨0, refundMicros, delta.spentMicros⟩⟩

/-- One turn; there is no response to a request that is refused. -/
def turn (a : Account) (t : Turn) : Account :=
  match a.charge enc config t with
  | none => a
  | some charged => charged.commit enc config t

end

/-! ## Credits -/

def Within (e : CostEntry) (t : Tally) : Prop :=
  e.cacheReadTokens ≤ e.promptTokens ∧ t.refunded ≤ t.promptSpend ∧ t.committed ≤ e.spentMicros

/-- No more is credited than was charged, in the totals and in every bucket. -/
def Credited (a : Account) : Prop :=
  (a.ledger.totals.entry.cacheReadTokens ≤ a.ledger.totals.entry.promptTokens ∧
    total Tally.refunded a.tallies ≤ total Tally.promptSpend a.tallies ∧
    total Tally.committed a.tallies ≤ a.ledger.totals.entry.spentMicros) ∧
  ∀ key, Within (a.ledger.bucket key) (a.tally key)

/-- The tallies account for what is spent. -/
structure Books (a : Account) : Prop where
  balanced : a.ledger.Balanced
  spent : ∀ key, (a.ledger.bucket key).spentMicros + (a.tally key).refunded =
    (a.tally key).promptSpend + (a.tally key).committed
  allSpent : a.ledger.totals.entry.spentMicros + total Tally.refunded a.tallies =
    total Tally.promptSpend a.tallies + total Tally.committed a.tallies
  credited : ∀ key, Within (a.ledger.bucket key) (a.tally key)

theorem Books.all {a : Account} (h : Books a) : Credited a := by
  have hrefunded : total Tally.refunded a.tallies ≤ total Tally.promptSpend a.tallies :=
    total_le_total Tally.zero fun key => (h.credited key).2.1
  have hread : total CostEntry.cacheReadTokens a.ledger.perModel ≤ total CostEntry.promptTokens a.ledger.perModel :=
    total_le_total CostEntry.zero fun key => (h.credited key).1
  have hreadAll : total CostEntry.cacheReadTokens a.ledger.perModel = a.ledger.totals.entry.cacheReadTokens :=
    h.balanced .cacheReadTokens
  have hpromptAll : total CostEntry.promptTokens a.ledger.perModel = a.ledger.totals.entry.promptTokens :=
    h.balanced .promptTokens
  have hspent := h.allSpent
  refine ⟨⟨?_, hrefunded, ?_⟩, h.credited⟩
  · rwa [hreadAll, hpromptAll] at hread
  · omega

theorem new_books : Books new where
  balanced := CostLedger.new_balanced
  spent := fun _ => rfl
  allSpent := rfl
  credited := fun _ => ⟨Nat.le_refl _, Nat.le_refl _, Nat.le_refl _⟩

/-! ## Postings -/

section
variable {a : Account} {key : String}

theorem total_post (a : Account) (key : String) (added : Tally) (f : Tally → Nat) (hzero : f .zero = 0)
    (hadd : ∀ t : Tally, f ⟨t.promptSpend + added.promptSpend, t.refunded + added.refunded, t.committed + added.committed⟩ =
      f t + f added) : total f (a.post key added) = total f a.tallies + f added := by
  have hsplit := total_eq f a.tallies key hzero
  rw [post, total_insert, hadd, tally, hsplit]
  omega

theorem tally_post_self (a : Account) (ledger : CostLedger) (key : String) (added : Tally) :
    tally ⟨ledger, a.post key added⟩ key = ⟨(a.tally key).promptSpend + added.promptSpend,
      (a.tally key).refunded + added.refunded, (a.tally key).committed + added.committed⟩ :=
  valueAt_insert_self _ _ _ _

theorem tally_post_ne (a : Account) (ledger : CostLedger) (key : String) (added : Tally) {other : String} (h : other ≠ key) :
    tally ⟨ledger, a.post key added⟩ other = a.tally other := valueAt_insert_ne _ _ _ _ h

/-- **A posting** that finds what it takes in the bucket, and reads no more tokens than it has left, keeps the books. -/
theorem Books.posted (h : Books a) {ledger : CostLedger} (delta : CostEntry) {added : Tally}
    (hmoves : a.ledger.Moves ledger key (ofSpend added.refunded) delta.get)
    (hat : a.ledger.MovesAt ledger key (ofSpend added.refunded) delta.get) (hbelow : ledger.Below)
    (hdelta : delta.spentMicros = added.promptSpend + added.committed)
    (htaken : added.refunded ≤ (a.ledger.bucket key).spentMicros)
    (hread : (a.ledger.bucket key).cacheReadTokens + delta.cacheReadTokens ≤
      (a.ledger.bucket key).promptTokens + delta.promptTokens)
    (hrefund : (a.tally key).refunded + added.refunded ≤ (a.tally key).promptSpend + added.promptSpend) :
    Books ⟨ledger, a.post key added⟩ := by
  have hexact := hat.exact hmoves hbelow h.balanced
  have hspentKey := h.spent key
  -- the three fields of the bucket
  have hspent : (ledger.bucket key).spentMicros = (a.ledger.bucket key).spentMicros - added.refunded + delta.spentMicros :=
    hexact .spentMicros
  have hprompt : (ledger.bucket key).promptTokens = (a.ledger.bucket key).promptTokens - 0 + delta.promptTokens :=
    hexact .promptTokens
  have hcache : (ledger.bucket key).cacheReadTokens = (a.ledger.bucket key).cacheReadTokens - 0 + delta.cacheReadTokens :=
    hexact .cacheReadTokens
  refine ⟨?_, fun other => ?_, ?_, fun other => ?_⟩
  · refine (hmoves.keeps_iff hbelow h.balanced).mpr fun f => .inl ?_
    cases f with
    | spentMicros => exact htaken
    | _ => exact Nat.zero_le _
  · rcases eq_or_ne other key with rfl | hne
    · rw [tally_post_self]
      dsimp only
      omega
    · rw [tally_post_ne a ledger key added hne]
      dsimp only
      rw [hat.there other hne]
      exact h.spent other
  · have hall : ledger.totals.entry.spentMicros = a.ledger.totals.entry.spentMicros - added.refunded + delta.spentMicros :=
      hmoves.totals .spentMicros (hbelow .spentMicros)
    have hroom : (a.ledger.bucket key).spentMicros ≤ a.ledger.totals.entry.spentMicros :=
      a.ledger.bucket_le h.balanced key .spentMicros
    have hsum := h.allSpent
    dsimp only
    rw [total_post a key added Tally.refunded rfl fun _ => rfl, total_post a key added Tally.promptSpend rfl fun _ => rfl,
      total_post a key added Tally.committed rfl fun _ => rfl]
    omega
  · rcases eq_or_ne other key with rfl | hne
    · rw [tally_post_self]
      refine ⟨?_, hrefund, ?_⟩
      · dsimp only
        omega
      · dsimp only
        omega
    · rw [tally_post_ne a ledger key added hne]
      dsimp only
      rw [hat.there other hne]
      exact h.credited other

end

/-! ## Steps -/

section
variable (enc : Encoder) (config : CostConfig)

/-- The cached prompt tokens that a response is counted for: no more than its bucket was ever charged. -/
def clampedRead (res : UnifiedResponse) (l : CostLedger) : Nat :=
  match res.promptCacheUsage with
  | none => 0
  | some cache => min cache.readTokens (l.chargedPromptTokens res.model config.maxTrackedModels)

/-- What the response of the turn is counted for, and takes back, was not credited before. -/
def Uncredited (a : Account) (t : Turn) : Prop :=
  ∀ charged, a.charge enc config t = some charged →
    let key := (charged.ledger.keyFor t.res.model config.maxTrackedModels).1
    (charged.ledger.bucket key).cacheReadTokens + clampedRead config t.res charged.ledger ≤
        (charged.ledger.bucket key).promptTokens ∧
      (charged.tally key).refunded + cacheRefund config t.responseRates t.res charged.ledger ≤ (charged.tally key).promptSpend

def StaysBelow (a : Account) (t : Turn) : Prop :=
  ∀ charged, a.charge enc config t = some charged → charged.ledger.Below ∧ (charged.commit enc config t).ledger.Below

theorem responseDelta_tokens (resolved : Option ModelRates) (res : UnifiedResponse) (l : CostLedger) :
    (responseDelta enc config resolved res l).1.promptTokens = 0 ∧
      (responseDelta enc config resolved res l).1.cacheReadTokens = clampedRead config res l := by
  unfold responseDelta clampedRead
  rcases res.promptCacheUsage with _ | cache
  · exact ⟨rfl, rfl⟩
  · rcases ratesFor config resolved res.model with _ | r
    · exact ⟨rfl, rfl⟩
    · exact ⟨rfl, rfl⟩

theorem requestCharge_entry {resolved : Option ModelRates} {req : UnifiedRequest} {charge : RequestCharge}
    (h : requestCharge enc config resolved req = .ok charge) :
    charge.entry = ⟨charge.entry.promptTokens, 0, 0, 0, charge.entry.spentMicros, 0⟩ := by
  unfold requestCharge at h
  dsimp only at h
  split at h
  · exact nomatch h
  · obtain rfl := Except.ok.inj h
    rfl

theorem charge_some {a charged : Account} {t : Turn} (h : a.charge enc config t = some charged) :
    ∃ charge, requestCharge enc config t.requestRates t.req = .ok charge ∧
      charged = ⟨a.ledger.chargeRequest t.req.model config.maxTrackedModels charge,
        a.post (a.ledger.keyFor t.req.model config.maxTrackedModels).1 ⟨charge.entry.spentMicros, 0, 0⟩⟩ := by
  unfold Account.charge onRequest at h
  rcases hcharge : requestCharge enc config t.requestRates t.req with e | charge
  · rw [hcharge] at h
    exact nomatch h
  · rw [hcharge] at h
    dsimp only at h
    rcases hcaps : checkCaps config a.ledger charge with e | _
    · rw [hcaps] at h
      exact nomatch h
    · rw [hcaps] at h
      exact ⟨charge, rfl, (Option.some.inj h).symm⟩

theorem charge_books {a charged : Account} {t : Turn} (hbooks : Books a) (h : a.charge enc config t = some charged)
    (hbelow : charged.ledger.Below) : Books charged := by
  obtain ⟨charge, hcharge, rfl⟩ := charge_some enc config h
  have hentry := requestCharge_entry enc config hcharge
  have hread : charge.entry.cacheReadTokens = 0 := by rw [hentry]
  have hnone : ofSpend 0 = fun _ => 0 := by
    funext f
    cases f with
    | _ => rfl
  refine hbooks.posted charge.entry ?_ ?_ hbelow rfl (Nat.zero_le _) ?_ ?_
  · rw [hnone]
    exact CostLedger.moves_charge a.ledger t.req.model config.maxTrackedModels charge
  · rw [hnone]
    exact CostLedger.movesAt_charge a.ledger t.req.model config.maxTrackedModels charge
  · have hwithin := (hbooks.credited (a.ledger.keyFor t.req.model config.maxTrackedModels).1).1
    omega
  · have hwithin := (hbooks.credited (a.ledger.keyFor t.req.model config.maxTrackedModels).1).2.1
    dsimp only
    omega

theorem commit_eq (a : Account) (t : Turn) : a.commit enc config t =
    ⟨a.ledger.commitResponse t.res.model config.maxTrackedModels (responseDelta enc config t.responseRates t.res a.ledger).1
        (cacheRefund config t.responseRates t.res a.ledger),
      a.post (a.ledger.keyFor t.res.model config.maxTrackedModels).1 ⟨0, cacheRefund config t.responseRates t.res a.ledger,
        (responseDelta enc config t.responseRates t.res a.ledger).1.spentMicros⟩⟩ := by
  rw [← responseDelta_refund enc]
  rfl

/-- **A commit** that credits no more than was charged is of an `Uncredited` turn. -/
theorem commit_credited {a : Account} {t : Turn} (hbooks : Books a) (hbelow : (a.commit enc config t).ledger.Below)
    (h : Credited (a.commit enc config t)) :
    (a.ledger.bucket (a.ledger.keyFor t.res.model config.maxTrackedModels).1).cacheReadTokens +
        clampedRead config t.res a.ledger ≤
      (a.ledger.bucket (a.ledger.keyFor t.res.model config.maxTrackedModels).1).promptTokens ∧
    (a.tally (a.ledger.keyFor t.res.model config.maxTrackedModels).1).refunded +
        cacheRefund config t.responseRates t.res a.ledger ≤
      (a.tally (a.ledger.keyFor t.res.model config.maxTrackedModels).1).promptSpend := by
  obtain ⟨hprompt, hread⟩ := responseDelta_tokens enc config t.responseRates t.res a.ledger
  rw [commit_eq] at hbelow h
  have hmoves := CostLedger.moves_commit a.ledger t.res.model config.maxTrackedModels
    (responseDelta enc config t.responseRates t.res a.ledger).1 (cacheRefund config t.responseRates t.res a.ledger)
  have hexact := (CostLedger.movesAt_commit a.ledger t.res.model config.maxTrackedModels
    (responseDelta enc config t.responseRates t.res a.ledger).1
    (cacheRefund config t.responseRates t.res a.ledger)).exact hmoves hbelow hbooks.balanced
  have hwithin := h.2 (a.ledger.keyFor t.res.model config.maxTrackedModels).1
  rw [tally_post_self] at hwithin
  dsimp only at hwithin
  generalize (a.ledger.keyFor t.res.model config.maxTrackedModels).1 = key at *
  obtain ⟨htokens, hrefund, -⟩ := hwithin
  have hpromptAfter := hexact .promptTokens
  have hreadAfter := hexact .cacheReadTokens
  dsimp only [CostEntry.get, ofSpend] at hpromptAfter hreadAfter htokens hrefund
  omega

theorem commit_books {a : Account} {t : Turn} (hbooks : Books a) (hbelow : (a.commit enc config t).ledger.Below)
    (hread : (a.ledger.bucket (a.ledger.keyFor t.res.model config.maxTrackedModels).1).cacheReadTokens +
        clampedRead config t.res a.ledger ≤
      (a.ledger.bucket (a.ledger.keyFor t.res.model config.maxTrackedModels).1).promptTokens)
    (hrefund : (a.tally (a.ledger.keyFor t.res.model config.maxTrackedModels).1).refunded +
        cacheRefund config t.responseRates t.res a.ledger ≤
      (a.tally (a.ledger.keyFor t.res.model config.maxTrackedModels).1).promptSpend) :
    Books (a.commit enc config t) := by
  obtain ⟨hprompt, hcounted⟩ := responseDelta_tokens enc config t.responseRates t.res a.ledger
  have hspent := hbooks.spent (a.ledger.keyFor t.res.model config.maxTrackedModels).1
  rw [commit_eq] at hbelow ⊢
  refine hbooks.posted _ (CostLedger.moves_commit ..) (CostLedger.movesAt_commit ..) hbelow ?_ ?_ ?_ hrefund
  · exact (Nat.zero_add _).symm
  · dsimp only
    omega
  · rwa [hprompt, hcounted]

/-- **Every run**: while no total reaches the maximum, no more is credited than was charged, in the totals and in every bucket and
after every commit, if and only if each turn reads tokens, and takes back spend, that were not credited before. -/
theorem credited_iff (turns : List Turn) (hbelow : Along (turn enc config) (StaysBelow enc config) new turns) :
    Throughout (turn enc config) Credited new turns ↔ Along (turn enc config) (Uncredited enc config) new turns := by
  refine throughout_iff_along_carried (J := Books) (fun _ => Books.all) (fun a t hstays hbooks h => ?_)
    (fun a t hstays hbooks h => ?_) new_books hbelow
  · intro charged hcharged
    obtain ⟨hcharge, hcommit⟩ := hstays charged hcharged
    rw [turn, hcharged] at h
    exact commit_credited enc config (charge_books enc config hbooks hcharged hcharge) hcommit h
  · rw [turn]
    rcases hcharged : a.charge enc config t with _ | charged
    · exact hbooks
    · obtain ⟨hcharge, hcommit⟩ := hstays charged hcharged
      obtain ⟨hread, hrefund⟩ := h charged hcharged
      exact commit_books enc config (charge_books enc config hbooks hcharged hcharge) hcommit hread hrefund

end

/-! ## Two turns of one model -/

def allCached : Turn := ⟨asking "a", some oneMicro, { cached with promptCacheUsage := some ⟨2, 0⟩ }, some oneMicro⟩

def moreCached : Turn := ⟨asking "a", some oneMicro, cached, some oneMicro⟩

instance (a : Account) (t : Turn) : Decidable (StaysBelow oneToken oneSlot a t) :=
  match h : a.charge oneToken oneSlot t with
  | none => isTrue fun _ hcharged => nomatch h.symm.trans hcharged
  | some charged =>
    decidable_of_iff (charged.ledger.Below ∧ (charged.commit oneToken oneSlot t).ledger.Below)
      ⟨fun hboth _ hother => Option.some.inj (h.symm.trans hother) ▸ hboth, fun hall => hall charged h⟩

theorem credited_iff_twice :
    Throughout (turn oneToken oneSlot) Credited new [allCached, allCached] ↔
      Along (turn oneToken oneSlot) (Uncredited oneToken oneSlot) new [allCached, allCached] :=
  credited_iff oneToken oneSlot [allCached, allCached] (by decide)

/-- The second turn reads as many tokens as the bucket was charged in both, two of which were credited in the first. -/
theorem credited_twice :
    Along (turn oneToken oneSlot) (StaysBelow oneToken oneSlot) new [moreCached, moreCached] ∧
      ¬ Throughout (turn oneToken oneSlot) Credited new [moreCached, moreCached] := by
  refine ⟨by decide, fun h => ?_⟩
  have hlast := h.2.2.1.1
  revert hlast
  decide

end Account

end Cuca.Cost
