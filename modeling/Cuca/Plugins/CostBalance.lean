import Cuca.Plugins.Cost

/-!
# Where the buckets add up to the totals

A model's bucket is looked up again when a charge is refunded or a response committed, in the map as it is then. What is taken from
it may not be there: the charge went to the shared bucket, or the cached tokens were charged at another price. Subtraction
saturates, so the bucket and the totals then lose different amounts.

* `Balanced` : the buckets add up to the totals;
* `Covers`, `Covered` : the bucket has what is taken, or it is all there is;
* `balanced_step_iff`, `buckets_add_up` : the ledger stays balanced if and only if each step is covered;
* `fits_step` : the bound on the buckets, which always holds.
-/

namespace Cuca.Cost
open Buckets Transition

/-! ## Fields -/

inductive Field where
  | promptTokens
  | completionTokens
  | cacheReadTokens
  | cacheWriteTokens
  | spentMicros
  | turns

def CostEntry.get (e : CostEntry) : Field → Nat
  | .promptTokens => e.promptTokens
  | .completionTokens => e.completionTokens
  | .cacheReadTokens => e.cacheReadTokens
  | .cacheWriteTokens => e.cacheWriteTokens
  | .spentMicros => e.spentMicros
  | .turns => e.turns

/-- This much of the spend. -/
def ofSpend (micros : Nat) : Field → Nat
  | .spentMicros => micros
  | _ => 0

namespace CostEntry
variable (e delta : CostEntry) (micros : Nat) (f : Field)

@[simp] theorem get_zero : zero.get f = 0 := by cases f <;> rfl

@[simp] theorem get_add : (e.add delta).get f = satAdd (e.get f) (delta.get f) := by cases f <;> rfl

@[simp] theorem get_sub : (e.sub delta).get f = e.get f - delta.get f := by cases f <;> rfl

@[simp] theorem get_commit : (e.commit delta micros).get f = satAdd (e.get f - ofSpend micros f) (delta.get f) := by
  cases f <;> rfl

end CostEntry

theorem satAdd_eq {a b : Nat} (h : a + b < u64Max) : satAdd a b = a + b := by
  rw [satAdd]
  omega

theorem satAdd_eq_of_lt {a b : Nat} (h : satAdd a b < u64Max) : satAdd a b = a + b := by
  rw [satAdd] at h ⊢
  omega

/-! ## Balance -/

namespace CostLedger

def bucket (l : CostLedger) (key : String) : CostEntry := valueAt .zero l.perModel key

def Balanced (l : CostLedger) : Prop := ∀ f, total (·.get f) l.perModel = l.totals.entry.get f

def Below (l : CostLedger) : Prop := ∀ f, l.totals.entry.get f < u64Max

def Covers (l : CostLedger) (key : String) (taken : Field → Nat) : Prop :=
  ∀ f, taken f ≤ (l.bucket key).get f ∨ (l.bucket key).get f = l.totals.entry.get f

section
variable {l l' : CostLedger} {key : String} {taken added : Field → Nat}

theorem total_bucket (l : CostLedger) (key : String) (f : Field) :
    total (·.get f) l.perModel = (l.bucket key).get f + total (·.get f) (l.perModel.erase key) :=
  total_eq (fun e : CostEntry => e.get f) l.perModel key (CostEntry.get_zero f)

theorem bucket_of_lookup {e : CostEntry} (h : l.perModel.lookup key = some e) : l.bucket key = e := by
  rw [bucket, valueAt, h, Option.getD_some]

theorem bucket_of_none (h : l.perModel.lookup key = none) : l.bucket key = .zero := by
  rw [bucket, valueAt, h, Option.getD_none]

/-- The totals and one bucket lose and gain the same, short of saturation. -/
structure Moves (l l' : CostLedger) (key : String) (taken added : Field → Nat) : Prop where
  totals : ∀ f, l'.totals.entry.get f < u64Max → l'.totals.entry.get f = l.totals.entry.get f - taken f + added f
  buckets : ∀ f, (l.bucket key).get f - taken f + added f < u64Max → total (·.get f) l'.perModel =
    (l.bucket key).get f - taken f + added f + total (·.get f) (l.perModel.erase key)

/-- **A move** keeps the balance if and only if it is covered. -/
theorem Moves.keeps_iff (h : Moves l l' key taken added) (hbelow : l'.Below) (hbalanced : l.Balanced) :
    l'.Balanced ↔ l.Covers key taken := by
  apply forall_congr'
  intro f
  have hsplit := total_bucket l key f
  rw [hbalanced f] at hsplit
  have hlow := hbelow f
  have htotals := h.totals f hlow
  rw [htotals, h.buckets f (by omega)]
  omega

/-! ## The operations -/

theorem moves_charge (l : CostLedger) (model : String) (maxTracked : Nat) (charge : RequestCharge) :
    Moves l (l.chargeRequest model maxTracked charge) (l.keyFor model maxTracked).1 (fun _ => 0) charge.entry.get := by
  unfold chargeRequest addToBucket
  dsimp only
  generalize (l.keyFor model maxTracked).1 = key
  rcases hlookup : l.perModel.lookup key with _ | e
  · refine ⟨fun f hlow => ?_, fun f _ => ?_⟩
    · dsimp only at hlow ⊢
      rw [CostEntry.get_add] at hlow ⊢
      exact satAdd_eq_of_lt hlow
    · rw [total_insert, bucket_of_none hlookup, CostEntry.get_zero, Nat.sub_zero, Nat.zero_add]
  · refine ⟨fun f hlow => ?_, fun f hroom => ?_⟩
    · dsimp only at hlow ⊢
      rw [CostEntry.get_add] at hlow ⊢
      exact satAdd_eq_of_lt hlow
    · rw [bucket_of_lookup hlookup, Nat.sub_zero] at hroom ⊢
      rw [total_insert, CostEntry.get_add, satAdd_eq hroom]

theorem moves_refund (l : CostLedger) (model : String) (maxTracked : Nat) (charge : RequestCharge) :
    Moves l (l.refundRequest model maxTracked charge) (l.keyFor model maxTracked).1 charge.entry.get (fun _ => 0) := by
  unfold refundRequest
  dsimp only
  generalize (l.keyFor model maxTracked).1 = key
  rcases hlookup : l.perModel.lookup key with _ | e
  · refine ⟨fun f _ => CostEntry.get_sub _ _ f, fun f _ => ?_⟩
    show total (·.get f) l.perModel = _
    rw [total_bucket l key, bucket_of_none hlookup, CostEntry.get_zero, Nat.zero_sub]
  · by_cases hzero : e.sub charge.entry = .zero
    · simp only [if_pos hzero]
      refine ⟨fun f _ => CostEntry.get_sub _ _ f, fun f _ => ?_⟩
      have hget : e.get f - charge.entry.get f = 0 := by rw [← CostEntry.get_sub, hzero, CostEntry.get_zero]
      rw [bucket_of_lookup hlookup, hget, Nat.zero_add]
    · simp only [if_neg hzero]
      refine ⟨fun f _ => CostEntry.get_sub _ _ f, fun f _ => ?_⟩
      rw [total_insert, CostEntry.get_sub, bucket_of_lookup hlookup, Nat.add_zero]

theorem moves_commit (l : CostLedger) (model : String) (maxTracked : Nat) (delta : CostEntry) (micros : Nat) :
    Moves l (l.commitResponse model maxTracked delta micros) (l.keyFor model maxTracked).1 (ofSpend micros) delta.get := by
  unfold commitResponse
  rcases l.keyFor model maxTracked with ⟨key, folded⟩
  dsimp only
  rcases hlookup : l.perModel.lookup key with _ | e
  · refine ⟨fun f hlow => ?_, fun f hroom => ?_⟩
    · dsimp only at hlow ⊢
      rw [CostEntry.get_commit] at hlow ⊢
      exact satAdd_eq_of_lt hlow
    · rw [bucket_of_none hlookup] at hroom ⊢
      rw [total_insert, CostEntry.get_commit, satAdd_eq hroom]
  · refine ⟨fun f hlow => ?_, fun f hroom => ?_⟩
    · dsimp only at hlow ⊢
      rw [CostEntry.get_commit] at hlow ⊢
      exact satAdd_eq_of_lt hlow
    · rw [bucket_of_lookup hlookup] at hroom ⊢
      rw [total_insert, CostEntry.get_commit, satAdd_eq hroom]

/-! ## Slots -/

def Fits (l : CostLedger) (maxTracked : Nat) : Prop := others l.perModel overflowModel ≤ maxTracked

/-- **A charge finds a slot**: writing to the key of a model adds no tracked model beyond the bound. -/
theorem fits_keyFor (l : CostLedger) {maxTracked : Nat} (h : l.Fits maxTracked) (model : String) (value : CostEntry) :
    others (l.perModel.insert (l.keyFor model maxTracked).1 value) overflowModel ≤ maxTracked := by
  unfold keyFor
  by_cases hmem : model ∈ l.perModel
  · rw [if_pos hmem, others_insert_of_mem _ _ _ _ hmem]
    exact h
  · rw [if_neg hmem]
    dsimp only
    rw [← others_eq]
    by_cases hfull : others l.perModel overflowModel ≥ maxTracked
    · rw [if_pos hfull, others_insert_self]
      exact h
    · rw [if_neg hfull]
      have hone : others (l.perModel.insert model value) overflowModel ≤ others l.perModel overflowModel + 1 :=
        others_insert_le l.perModel overflowModel model value
      exact hone.trans (Nat.lt_of_not_ge hfull)

theorem fits_charge {l : CostLedger} {maxTracked : Nat} (h : l.Fits maxTracked) (model : String) (charge : RequestCharge) :
    (l.chargeRequest model maxTracked charge).Fits maxTracked := by
  have hslot := fits_keyFor l h model
  unfold chargeRequest addToBucket
  dsimp only
  rcases l.perModel.lookup (l.keyFor model maxTracked).1 with _ | e
  · exact hslot _
  · exact hslot _

theorem fits_refund {l : CostLedger} {maxTracked : Nat} (h : l.Fits maxTracked) (model : String) (charge : RequestCharge) :
    (l.refundRequest model maxTracked charge).Fits maxTracked := by
  have hslot := fits_keyFor l h model
  unfold refundRequest
  dsimp only
  rcases l.perModel.lookup (l.keyFor model maxTracked).1 with _ | e
  · exact h
  · by_cases hzero : e.sub charge.entry = .zero
    · simp only [if_pos hzero]
      exact (others_erase_le _ _ _).trans h
    · simp only [if_neg hzero]
      exact hslot _

theorem fits_commit {l : CostLedger} {maxTracked : Nat} (h : l.Fits maxTracked) (model : String) (delta : CostEntry) (micros : Nat) :
    (l.commitResponse model maxTracked delta micros).Fits maxTracked := by
  have hslot := fits_keyFor l h model
  unfold commitResponse
  dsimp only
  rcases l.perModel.lookup (l.keyFor model maxTracked).1 with _ | e
  · exact hslot _
  · exact hslot _

end

theorem new_balanced : new.Balanced := fun f => (CostEntry.get_zero f).symm

theorem new_fits (maxTracked : Nat) : new.Fits maxTracked := Nat.zero_le maxTracked

end CostLedger

/-! ## Runs -/

section
variable (enc : Encoder) (config : CostConfig)

/-- What the cached prompt tokens of a response take back: their price at the input rate, for as many tokens as the bucket of the
model was charged. -/
def cacheRefund (resolved : Option ModelRates) (res : UnifiedResponse) (l : CostLedger) : Nat :=
  match res.promptCacheUsage, ratesFor config resolved res.model with
  | some cache, some r =>
    priceMicros (min cache.readTokens (l.chargedPromptTokens res.model config.maxTrackedModels)) r.inputMicrosPerMtok
  | _, _ => 0

theorem responseDelta_refund (resolved : Option ModelRates) (res : UnifiedResponse) (l : CostLedger) :
    (responseDelta enc config resolved res l).2 = cacheRefund config resolved res l := by
  unfold responseDelta cacheRefund
  rcases res.promptCacheUsage with _ | cache
  · rfl
  · rcases ratesFor config resolved res.model with _ | r
    · rfl
    · rfl

/-- What a step takes from the bucket its model now goes to is there. -/
def Covered (s : CostState) : Event → Prop
  | .request _ _ => True
  | .refund index => ∀ turn, s.pending[index]? = some turn →
      s.ledger.Covers (s.ledger.keyFor turn.1 config.maxTrackedModels).1 turn.2.entry.get
  | .response resolved res =>
    s.ledger.Covers (s.ledger.keyFor res.model config.maxTrackedModels).1 (ofSpend (cacheRefund config resolved res s.ledger))
  | .reset => True

/-! What a step does to the ledger. -/

theorem step_request (s : CostState) (resolved : Option ModelRates) (req : UnifiedRequest) :
    (s.step enc config (.request resolved req)).ledger = s.ledger ∨ ∃ charge,
      (s.step enc config (.request resolved req)).ledger = s.ledger.chargeRequest req.model config.maxTrackedModels charge := by
  rw [CostState.step, onRequest]
  rcases requestCharge enc config resolved req with e | charge
  · exact .inl rfl
  · dsimp only
    rcases checkCaps config s.ledger charge with e | _
    · exact .inl rfl
    · exact .inr ⟨charge, rfl⟩

theorem step_refund_none {s : CostState} {index : Nat} (h : s.pending[index]? = none) :
    s.step enc config (.refund index) = s := by
  rw [CostState.step, h]

theorem step_refund_some {s : CostState} {index : Nat} {turn : String × RequestCharge} (h : s.pending[index]? = some turn) :
    (s.step enc config (.refund index)).ledger = s.ledger.refundRequest turn.1 config.maxTrackedModels turn.2 := by
  rw [CostState.step, h]

theorem step_response (s : CostState) (resolved : Option ModelRates) (res : UnifiedResponse) :
    (s.step enc config (.response resolved res)).ledger = s.ledger.commitResponse res.model config.maxTrackedModels
      (responseDelta enc config resolved res s.ledger).1 (cacheRefund config resolved res s.ledger) := by
  rw [← responseDelta_refund enc]
  rfl

/-- **One step** keeps the balance if and only if it is covered. -/
theorem balanced_step_iff (s : CostState) (event : Event) (hbelow : (s.step enc config event).ledger.Below)
    (hbalanced : s.ledger.Balanced) : (s.step enc config event).ledger.Balanced ↔ Covered config s event := by
  cases event with
  | request resolved req =>
    apply iff_of_true _ trivial
    rcases step_request enc config s resolved req with hsame | ⟨charge, hcharged⟩
    · rw [hsame]
      exact hbalanced
    · rw [hcharged] at hbelow ⊢
      have hmoves := CostLedger.moves_charge s.ledger req.model config.maxTrackedModels charge
      exact (hmoves.keeps_iff hbelow hbalanced).mpr fun f => .inl (Nat.zero_le _)
  | refund index =>
    rw [Covered]
    rcases hturn : s.pending[index]? with _ | turn
    · rw [step_refund_none enc config hturn]
      exact iff_of_true hbalanced fun turn h => nomatch h
    · rw [step_refund_some enc config hturn] at hbelow ⊢
      have hmoves := CostLedger.moves_refund s.ledger turn.1 config.maxTrackedModels turn.2
      rw [hmoves.keeps_iff hbelow hbalanced]
      exact ⟨fun h other hother => Option.some.inj hother ▸ h, fun h => h turn rfl⟩
  | response resolved res =>
    rw [step_response] at hbelow ⊢
    exact (CostLedger.moves_commit s.ledger res.model config.maxTrackedModels _ _).keeps_iff hbelow hbalanced
  | reset => exact iff_of_true CostLedger.new_balanced trivial

theorem fits_step (s : CostState) (event : Event) (h : s.ledger.Fits config.maxTrackedModels) :
    (s.step enc config event).ledger.Fits config.maxTrackedModels := by
  cases event with
  | request resolved req =>
    rcases step_request enc config s resolved req with hsame | ⟨charge, hcharged⟩
    · rw [hsame]
      exact h
    · rw [hcharged]
      exact CostLedger.fits_charge h req.model charge
  | refund index =>
    rcases hturn : s.pending[index]? with _ | turn
    · rw [step_refund_none enc config hturn]
      exact h
    · rw [step_refund_some enc config hturn]
      exact CostLedger.fits_refund h turn.1 turn.2
  | response resolved res =>
    rw [step_response]
    exact CostLedger.fits_commit h res.model _ _
  | reset => exact CostLedger.new_fits config.maxTrackedModels

/-- **Every run**: there are at most `max_tracked_models + 1` buckets in every state, and while no total reaches the maximum, the
buckets add up to the totals in every state if and only if each step is covered. -/
theorem buckets_add_up (events : List Event)
    (hbelow : Throughout (CostState.step enc config) (fun s => s.ledger.Below) CostState.new events) :
    Throughout (CostState.step enc config) (fun s => s.ledger.perModel.keys.length ≤ config.maxTrackedModels + 1)
        CostState.new events ∧
      (Throughout (CostState.step enc config) (fun s => s.ledger.Balanced) CostState.new events ↔
        Along (CostState.step enc config) (Covered config) CostState.new events) := by
  constructor
  · have hfits : Throughout (CostState.step enc config) (fun s => s.ledger.Fits config.maxTrackedModels) CostState.new events :=
      throughout_invariant (fits_step enc config) (CostLedger.new_fits config.maxTrackedModels) events
    exact hfits.imp fun s h => (length_keys_le _ overflowModel).trans (Nat.succ_le_succ h)
  · exact throughout_iff_along_within (I := fun s : CostState => s.ledger.Balanced) (balanced_step_iff enc config)
      CostLedger.new_balanced hbelow

end

/-! ## Two turns and one slot -/

theorem forall_field_iff {p : Field → Prop} : (∀ f, p f) ↔ p .promptTokens ∧ p .completionTokens ∧ p .cacheReadTokens ∧
    p .cacheWriteTokens ∧ p .spentMicros ∧ p .turns := by
  constructor
  · exact fun h => ⟨h _, h _, h _, h _, h _, h _⟩
  · rintro ⟨hprompt, hcompletion, hread, hwrite, hspent, hturns⟩ f
    cases f with
    | promptTokens => exact hprompt
    | completionTokens => exact hcompletion
    | cacheReadTokens => exact hread
    | cacheWriteTokens => exact hwrite
    | spentMicros => exact hspent
    | turns => exact hturns

instance {p : Field → Prop} [DecidablePred p] : Decidable (∀ f, p f) := decidable_of_iff _ forall_field_iff.symm

instance (l : CostLedger) : Decidable l.Below := inferInstanceAs (Decidable (∀ f, l.totals.entry.get f < u64Max))

instance (l : CostLedger) : Decidable l.Balanced :=
  inferInstanceAs (Decidable (∀ f, total (·.get f) l.perModel = l.totals.entry.get f))

/-- A message of two tokens, to this model. -/
def asking (model : String) : UnifiedRequest where
  model := model
  provider := .anthropic
  messages := [⟨.user, [.text "hi"], none, none⟩]
  temperature := none
  maxTokens := none
  stream := true
  thinking := none
  tools := []
  promptCache := .disabled

def oneToken : Encoder := ⟨fun _ => 1, fun _ => "null"⟩

def oneSlot : CostConfig := ⟨∅, none, none, 1, .countTokensOnly⟩

def refundedInTurn : List Event := [.request none (asking "a"), .request none (asking "b"), .refund 1, .refund 0]

theorem buckets_add_up_refunded :
    Throughout (CostState.step oneToken oneSlot) (fun s => s.ledger.perModel.keys.length ≤ 1 + 1) CostState.new refundedInTurn ∧
      (Throughout (CostState.step oneToken oneSlot) (fun s => s.ledger.Balanced) CostState.new refundedInTurn ↔
        Along (CostState.step oneToken oneSlot) (Covered oneSlot) CostState.new refundedInTurn) :=
  buckets_add_up oneToken oneSlot refundedInTurn (by decide)

/-- The turns are refunded in their order: the first refund frees the slot, so the second does not find the shared bucket. -/
theorem refunds_unbalanced :
    Throughout (CostState.step oneToken oneSlot) (fun s => s.ledger.Below) CostState.new
        [.request none (asking "a"), .request none (asking "b"), .refund 0, .refund 0] ∧
      ¬ Throughout (CostState.step oneToken oneSlot) (fun s => s.ledger.Balanced) CostState.new
        [.request none (asking "a"), .request none (asking "b"), .refund 0, .refund 0] := by
  decide

def cached : UnifiedResponse := ⟨"a", .anthropic, 0, 0, 0, none, [], some ⟨4, 0⟩, none⟩

def oneMicro : ModelRates := ⟨1000000, 0, 0, 0⟩

/-- No turn is refunded, but the second response takes back the price of four tokens, two of which were taken back before. -/
example : ¬ Throughout (CostState.step oneToken { oneSlot with maxTrackedModels := 2 }) (fun s => s.ledger.Balanced) CostState.new
    [.request (some oneMicro) (asking "b"), .request (some oneMicro) (asking "a"), .response (some oneMicro) cached,
      .request (some oneMicro) (asking "a"), .response (some oneMicro) cached] := by
  decide

end Cuca.Cost
