import Cuca.Lib.Transition
import Cuca.Types

/-!
# Approvals

A tool call of high risk waits for an approver. The ruling is then recorded: under the lock of the audit log the plugin looks up who
issued the last decision, and appends an entry. Any number of calls are under way at once.

The text of a JSON value is a parameter.

* `requestOf` : the request a block makes, if it is gated;
* `Gate.step` : a call's next step;
* `Gate.Recorded` : the log has an entry for every call that passed or was replaced;
* `Gate.Attributed` : and each entry names the approver of its own call;
* `audit_sound` : the first in every run, the second where no other approver decides between a decision and its lookup.
-/

namespace Cuca.Hitl

/-! ## Requests -/

inductive Risk where
  | low
  | high
  deriving DecidableEq, Repr

/-- `window.eq_ignore_ascii_case` for some window. -/
def containsIgnoreAsciiCase (haystack needle : String) : Bool :=
  haystack.toList.tails.any fun window => (needle.toList.map Char.toLower).isPrefixOf (window.map Char.toLower)

/-- `HIGH_KEYWORDS` -/
def highKeywords : List String :=
  ["shell", "exec", "bash", "run_command", "terminal", "write", "edit", "delete", "remove", "rm_", "mv_", "move", "create_file",
    "http_post", "http_put", "http_delete", "api_write", "post_", "put_", "delete_"]

def classifyToolCall (name : String) : Risk := if highKeywords.any (containsIgnoreAsciiCase name) then .high else .low

def classifyAction (name : String) : Option String :=
  let has := containsIgnoreAsciiCase name
  if ["shell", "exec", "bash", "run_command", "terminal"].any has then some "shell_exec"
  else if ["write", "edit", "delete", "remove", "rm_", "mv_", "move", "create_file"].any has then some "file_write"
  else if ["http_post", "http_put", "http_delete", "api_write", "post_", "put_", "delete_"].any has then some "external_api_write"
  else none

structure ApprovalRequest where
  toolCallId : String
  action : String
  detail : String
  deriving DecidableEq, Repr

inductive ApprovalDecision where
  | approved
  | denied
  deriving DecidableEq, Repr

def ApprovalDecision.status : ApprovalDecision → String
  | approved => "approved"
  | denied => "denied"

structure HitlAuditEntry where
  actionRequested : String
  approverId : Option String
  status : String
  timestampMs : Nat
  deriving DecidableEq, Repr

/-- At most 200 characters. -/
def truncatedJson (jsonText : Value → String) (value : Value) : String :=
  let s := jsonText value
  if s.length ≤ 200 then s else String.ofList (s.toList.take 200) ++ "…"

/-- The request of a block, if it is a call of high risk. -/
def requestOf (jsonText : Value → String) : MessageContentBlock → Option ApprovalRequest
  | .toolCall id name arguments =>
    if classifyToolCall name = .low then none
    else some ⟨id, (classifyAction name).getD "tool_execution", name ++ " " ++ truncatedJson jsonText arguments⟩
  | _ => none

/-- What becomes of a block. -/
def ruledBlock (block : MessageContentBlock) (req : ApprovalRequest) : ApprovalDecision → MessageContentBlock
  | .approved => block
  | .denied => .toolResult req.toolCallId "denied by approver"

def auditFull (stored maxAuditEntries : Nat) : PluginError :=
  .internal (s!"hitl audit log full: {stored} of {maxAuditEntries} entries stored; drain it with " ++
    "audit_log() or raise max_audit_entries")

/-! ## Calls under way -/

/-- Where a call is in `on_stream_chunk`. -/
inductive Phase where
  | waiting
  | asking (req : ApprovalRequest)
  | ruled (req : ApprovalRequest) (decision : ApprovalDecision)
  /-- It holds the lock of the log, which has room. -/
  | locked (req : ApprovalRequest) (decision : ApprovalDecision)
  | looked (req : ApprovalRequest) (decision : ApprovalDecision) (approverId : Option String)
  | returned (result : Except PluginError MessageContentBlock)

/-- The plugin, its channel, and the calls. -/
structure Gate (C : Type) where
  maxAuditEntries : Nat
  /-- The log, with the call each entry is of, which the plugin does not store. -/
  audit : List (C × HitlAuditEntry)
  /-- The call that holds the lock of the log. -/
  holder : Option C
  /-- What `approver_id` reports: who issued the last decision. -/
  approverId : Option String
  calls : C → Phase
  /-- The decisions, and who issued them. -/
  rulings : C → Option (ApprovalDecision × Option String)

inductive Event (C : Type) where
  | arrive (c : C)
  /-- The channel answers a request. -/
  | decide (c : C) (decision : ApprovalDecision) (approver : Option String)
  /-- `record_audit` takes the lock, and returns if the log is full. -/
  | lock (c : C)
  | look (c : C)
  | append (c : C) (nowMs : Nat)

namespace Gate
open Transition
variable {C : Type} [DecidableEq C] (jsonText : Value → String) (chunk : C → MessageContentBlock)

def init (C : Type) (maxAuditEntries : Nat) : Gate C := ⟨maxAuditEntries, [], none, none, fun _ => .waiting, fun _ => none⟩

def withMaxAuditEntries (C : Type) (maxAuditEntries : Nat) : Except PluginError (Gate C) :=
  if maxAuditEntries = 0 then .error (.validation "max_audit_entries" "max_audit_entries must be non-zero") else .ok (init C maxAuditEntries)

def moveTo (s : Gate C) (c : C) (phase : Phase) : Gate C := { s with calls := Function.update s.calls c phase }

/-- The next step of a call; a call that is elsewhere, or waits for the lock, stays. -/
def step (s : Gate C) : Event C → Gate C
  | .arrive c =>
    match s.calls c with
    | .waiting =>
      match requestOf jsonText (chunk c) with
      | none => s.moveTo c (.returned (.ok (chunk c)))
      | some req => s.moveTo c (.asking req)
    | _ => s
  | .decide c decision approver =>
    match s.calls c with
    | .asking req =>
      { s.moveTo c (.ruled req decision) with
        approverId := approver
        rulings := Function.update s.rulings c (some (decision, approver)) }
    | _ => s
  | .lock c =>
    match s.calls c, s.holder with
    | .ruled req decision, none =>
      if s.audit.length ≥ s.maxAuditEntries then s.moveTo c (.returned (.error (auditFull s.audit.length s.maxAuditEntries)))
      else { s.moveTo c (.locked req decision) with holder := some c }
    | _, _ => s
  | .look c =>
    match s.calls c with
    | .locked req decision => s.moveTo c (.looked req decision s.approverId)
    | _ => s
  | .append c nowMs =>
    match s.calls c with
    | .looked req decision approverId =>
      { s.moveTo c (.returned (.ok (ruledBlock (chunk c) req decision))) with
        holder := none
        audit := s.audit ++ [(c, ⟨req.action, approverId, decision.status, nowMs⟩)] }
    | _ => s

/-! ## What is wanted of the log -/

def recorded (s : Gate C) : List C := s.audit.map Prod.fst

/-- The log keeps to its bound, and no call has two entries; a gated call that is through has an entry of its own, with its action and
its status, and one without an entry was refused. -/
def Recorded (s : Gate C) : Prop :=
  s.audit.length ≤ s.maxAuditEntries ∧ s.recorded.Nodup ∧
    ∀ c req, requestOf jsonText (chunk c) = some req →
      (s.calls c = .returned (.ok (chunk c)) → ∃ entry, (c, entry) ∈ s.audit ∧ entry.actionRequested = req.action ∧ entry.status = "approved") ∧
      (∀ block, s.calls c = .returned (.ok block) → block ≠ chunk c → block = .toolResult req.toolCallId "denied by approver" ∧
        ∃ entry, (c, entry) ∈ s.audit ∧ entry.actionRequested = req.action ∧ entry.status = "denied") ∧
      (∀ result, s.calls c = .returned result → c ∉ s.recorded → ∃ stored, result = .error (auditFull stored s.maxAuditEntries))

/-- Action, status and approver of an entry are those of one request. -/
def Attributed (s : Gate C) : Prop :=
  ∀ c entry, (c, entry) ∈ s.audit → ∃ req decision, requestOf jsonText (chunk c) = some req ∧
    s.rulings c = some (decision, entry.approverId) ∧ entry.actionRequested = req.action ∧ entry.status = decision.status

def Pending (s : Gate C) (c : C) : Prop := (∃ req decision, s.calls c = .ruled req decision) ∨ ∃ req decision, s.calls c = .locked req decision

/-- While a decision waits for its lookup, only its approver decides. -/
def InOrder (s : Gate C) : Event C → Prop
  | .decide c _ approver => ∀ c', c' ≠ c → s.Pending c' → approver = s.approverId
  | _ => True

omit [DecidableEq C] in
theorem mem_recorded {s : Gate C} {c : C} : c ∈ s.recorded ↔ ∃ entry, (c, entry) ∈ s.audit := by
  rw [recorded, List.mem_map]
  constructor
  · rintro ⟨⟨c', entry⟩, hmem, rfl⟩
    exact ⟨entry, hmem⟩
  · rintro ⟨entry, hmem⟩
    exact ⟨(c, entry), hmem, rfl⟩

/-! ## Invariants -/

/-- What is known of a call, by where it is. -/
def Told (s : Gate C) (c : C) : Phase → Prop
  | .waiting => c ∉ s.recorded
  | .asking req => requestOf jsonText (chunk c) = some req ∧ c ∉ s.recorded
  | .ruled req decision => requestOf jsonText (chunk c) = some req ∧ (∃ approver, s.rulings c = some (decision, approver)) ∧ c ∉ s.recorded
  | .locked req decision => requestOf jsonText (chunk c) = some req ∧ (∃ approver, s.rulings c = some (decision, approver)) ∧ c ∉ s.recorded
  | .looked req decision _ =>
    requestOf jsonText (chunk c) = some req ∧ (∃ approver, s.rulings c = some (decision, approver)) ∧ c ∉ s.recorded
  | .returned result => ∀ req, requestOf jsonText (chunk c) = some req →
      ((∃ stored, result = .error (auditFull stored s.maxAuditEntries)) ∧ c ∉ s.recorded) ∨
        ∃ decision entry, result = .ok (ruledBlock (chunk c) req decision) ∧ (c, entry) ∈ s.audit ∧
          entry.actionRequested = req.action ∧ entry.status = decision.status

structure Inv (s : Gate C) : Prop where
  nodup : s.recorded.Nodup
  bound : s.audit.length ≤ s.maxAuditEntries
  room : s.holder.isSome = true → s.audit.length < s.maxAuditEntries
  locked : ∀ c req decision, s.calls c = .locked req decision → s.holder = some c
  looked : ∀ c req decision approverId, s.calls c = .looked req decision approverId → s.holder = some c
  told : ∀ c, Told jsonText chunk s c (s.calls c)

variable {jsonText chunk}

omit [DecidableEq C] in
theorem Told.mono {s s' : Gate C} {c : C} {phase : Phase} (h : Told jsonText chunk s c phase)
    (hbound : s'.maxAuditEntries = s.maxAuditEntries) (hrulings : s'.rulings c = s.rulings c)
    (haudit : ∀ entry, (c, entry) ∈ s'.audit ↔ (c, entry) ∈ s.audit) : Told jsonText chunk s' c phase := by
  have hrecorded : c ∈ s'.recorded ↔ c ∈ s.recorded := by
    rw [mem_recorded, mem_recorded]
    exact exists_congr haudit
  cases phase with
  | waiting => exact fun hmem => h (hrecorded.mp hmem)
  | asking req => exact ⟨h.1, fun hmem => h.2 (hrecorded.mp hmem)⟩
  | ruled req decision => exact ⟨h.1, hrulings ▸ h.2.1, fun hmem => h.2.2 (hrecorded.mp hmem)⟩
  | locked req decision => exact ⟨h.1, hrulings ▸ h.2.1, fun hmem => h.2.2 (hrecorded.mp hmem)⟩
  | looked req decision approverId => exact ⟨h.1, hrulings ▸ h.2.1, fun hmem => h.2.2 (hrecorded.mp hmem)⟩
  | returned result =>
    intro req hreq
    rcases h req hreq with ⟨herror, hmem⟩ | ⟨decision, entry, hresult, hmem, hrest⟩
    · rw [hbound]
      exact .inl ⟨herror, fun h => hmem (hrecorded.mp h)⟩
    · exact .inr ⟨decision, entry, hresult, (haudit entry).mpr hmem, hrest⟩

theorem Inv.moveTo {s s' : Gate C} (hs : Inv jsonText chunk s) {c : C} {phase : Phase} (hcalls : s'.calls = Function.update s.calls c phase)
    (hbound : s'.maxAuditEntries = s.maxAuditEntries) (haudit : s'.audit = s.audit) (hrulings : ∀ c', c' ≠ c → s'.rulings c' = s.rulings c')
    (hroom : s'.holder.isSome = true → s.audit.length < s.maxAuditEntries)
    (hkeeps : ∀ c', c' ≠ c → s.holder = some c' → s'.holder = some c')
    (hholds : (∃ req decision, phase = .locked req decision) ∨ (∃ req decision approverId, phase = .looked req decision approverId) →
      s'.holder = some c)
    (htold : Told jsonText chunk s' c phase) : Inv jsonText chunk s' where
  nodup := by
    rw [recorded, haudit]
    exact hs.nodup
  bound := by
    rw [haudit, hbound]
    exact hs.bound
  room h := by
    rw [haudit, hbound]
    exact hroom h
  locked c' req decision h := by
    rw [hcalls] at h
    by_cases hc : c' = c
    · subst hc
      rw [Function.update_self] at h
      exact hholds (.inl ⟨req, decision, h⟩)
    · rw [Function.update_of_ne hc] at h
      exact hkeeps c' hc (hs.locked c' req decision h)
  looked c' req decision approverId h := by
    rw [hcalls] at h
    by_cases hc : c' = c
    · subst hc
      rw [Function.update_self] at h
      exact hholds (.inr ⟨req, decision, approverId, h⟩)
    · rw [Function.update_of_ne hc] at h
      exact hkeeps c' hc (hs.looked c' req decision approverId h)
  told c' := by
    rw [hcalls]
    by_cases hc : c' = c
    · subst hc
      rw [Function.update_self]
      exact htold
    · rw [Function.update_of_ne hc]
      exact (hs.told c').mono hbound (hrulings c' hc) fun entry => by rw [haudit]

theorem Inv.step {s : Gate C} (hs : Inv jsonText chunk s) (event : Event C) : Inv jsonText chunk (s.step jsonText chunk event) := by
  cases event with
  | arrive c =>
    rw [Gate.step]
    split
    · rename_i hphase
      have htold := hs.told c
      rw [hphase] at htold
      have hholds (phase : Phase) (hphase : (∃ req decision, phase = .locked req decision) ∨
          (∃ req decision approverId, phase = .looked req decision approverId) → False) : Inv jsonText chunk s → Told jsonText chunk s c phase →
          Inv jsonText chunk (s.moveTo c phase) := fun hs h =>
        hs.moveTo rfl rfl rfl (fun _ _ => rfl) hs.room (fun _ _ h => h) (fun h => (hphase h).elim) (h.mono rfl rfl fun _ => Iff.rfl)
      split
      · rename_i hnone
        refine hholds _ (by rintro (⟨_, _, h⟩ | ⟨_, _, _, h⟩) <;> cases h) hs fun req hreq => ?_
        exact nomatch hnone.symm.trans hreq
      · rename_i req hsome
        exact hholds _ (by rintro (⟨_, _, h⟩ | ⟨_, _, _, h⟩) <;> cases h) hs ⟨hsome, htold⟩
    · exact hs
  | decide c decision approver =>
    rw [Gate.step]
    split
    · rename_i req hphase
      have htold := hs.told c
      rw [hphase] at htold
      refine hs.moveTo rfl rfl rfl (fun c' hc => Function.update_of_ne hc _ _) hs.room (fun _ _ h => h) ?_ ?_
      · rintro (⟨_, _, h⟩ | ⟨_, _, _, h⟩) <;> cases h
      · exact ⟨htold.1, ⟨approver, Function.update_self ..⟩, htold.2⟩
    · exact hs
  | lock c =>
    rw [Gate.step]
    split
    · rename_i req decision hphase hfree
      have htold := hs.told c
      rw [hphase] at htold
      split
      · refine hs.moveTo rfl rfl rfl (fun _ _ => rfl) hs.room (fun _ _ h => h) ?_ fun req' _ => .inl ⟨⟨_, rfl⟩, htold.2.2⟩
        rintro (⟨_, _, h⟩ | ⟨_, _, _, h⟩) <;> cases h
      · rename_i hroom
        refine hs.moveTo rfl rfl rfl (fun _ _ => rfl) (fun _ => Nat.lt_of_not_le hroom) (fun c' _ h => ?_) (fun _ => rfl)
          ⟨htold.1, htold.2.1, htold.2.2⟩
        exact nomatch hfree.symm.trans h
    · exact hs
  | look c =>
    rw [Gate.step]
    split
    · rename_i req decision hphase
      have htold := hs.told c
      rw [hphase] at htold
      exact hs.moveTo rfl rfl rfl (fun _ _ => rfl) hs.room (fun _ _ h => h) (fun _ => hs.locked c req decision hphase)
        ⟨htold.1, htold.2.1, htold.2.2⟩
    · exact hs
  | append c nowMs =>
    rw [Gate.step]
    split
    · rename_i req decision approverId hphase
      obtain ⟨hreq, hruling, hfresh⟩ := (hphase ▸ hs.told c : Told jsonText chunk s c (.looked req decision approverId))
      have hholder := hs.looked c req decision approverId hphase
      have hroom := hs.room (by rw [hholder]; rfl)
      -- nobody else holds the lock
      have hothers (c' : C) (hc : c' ≠ c) (h : s.holder = some c') : False := hc (Option.some.inj (h.symm.trans hholder))
      have hreturned (phase : Phase) (c' : C) (h : Function.update s.calls c (.returned (.ok (ruledBlock (chunk c) req decision))) c' = phase)
          (hphase : s.calls c' = phase → s.holder = some c') (hne : ∀ result, phase ≠ .returned result) : False := by
        by_cases hc : c' = c
        · rw [hc, Function.update_self] at h
          exact hne _ h.symm
        · rw [Function.update_of_ne hc] at h
          exact hothers c' hc (hphase h)
      refine ⟨?_, ?_, nofun, ?_, ?_, fun c' => ?_⟩
      · show ((s.audit ++ [_]).map Prod.fst).Nodup
        rw [List.map_append, List.map_singleton, List.nodup_append]
        refine ⟨hs.nodup, List.pairwise_singleton _ _, fun a ha b hb heq => hfresh ?_⟩
        obtain rfl : b = c := List.mem_singleton.mp hb
        exact heq ▸ ha
      · show (s.audit ++ [_]).length ≤ _
        rw [List.length_append]
        exact hroom
      · exact fun c' req' decision' h => (hreturned _ c' h (hs.locked c' req' decision') fun _ => nofun).elim
      · exact fun c' req' decision' a h => (hreturned _ c' h (hs.looked c' req' decision' a) fun _ => nofun).elim
      · show Told jsonText chunk _ c' (Function.update s.calls c _ c')
        by_cases hc : c' = c
        · subst hc
          rw [Function.update_self]
          intro req' hreq'
          obtain rfl := Option.some.inj (hreq.symm.trans hreq')
          exact .inr ⟨decision, _, rfl, List.mem_append_right _ (List.mem_singleton.mpr rfl), rfl, rfl⟩
        · rw [Function.update_of_ne hc]
          refine (hs.told c').mono rfl rfl fun entry => ?_
          rw [List.mem_append, List.mem_singleton, Prod.mk.injEq]
          exact ⟨fun h => h.elim id fun h => absurd h.1 hc, .inl⟩
    · exact hs

variable (jsonText chunk) in
theorem inv_init (maxAuditEntries : Nat) : Inv jsonText chunk (init C maxAuditEntries) :=
  ⟨List.nodup_nil, Nat.zero_le _, nofun, fun _ _ _ => nofun, fun _ _ _ _ => nofun, fun _ => List.not_mem_nil⟩

omit [DecidableEq C] in
theorem Inv.recorded {s : Gate C} (hs : Inv jsonText chunk s) : Recorded jsonText chunk s := by
  refine ⟨hs.bound, hs.nodup, fun c req hreq => ⟨fun hreturned => ?_, fun block hreturned hne => ?_, fun result hreturned hmem => ?_⟩⟩
  all_goals
    have htold := hs.told c
    rw [hreturned] at htold
    rcases htold req hreq with ⟨⟨stored, herror⟩, hfresh⟩ | ⟨decision, entry, hresult, hentry, haction, hstatus⟩
  · exact nomatch herror
  · cases decision with
    | approved => exact ⟨entry, hentry, haction, hstatus⟩
    | denied =>
      have hblock : chunk c = .toolResult req.toolCallId "denied by approver" := Except.ok.inj hresult
      rw [hblock] at hreq
      exact nomatch hreq
  · exact nomatch herror
  · cases decision with
    | approved => exact absurd (Except.ok.inj hresult) hne
    | denied => exact ⟨Except.ok.inj hresult, entry, hentry, haction, hstatus⟩
  · exact ⟨stored, herror⟩
  · exact absurd (mem_recorded.mpr ⟨entry, hentry⟩) hmem

/-! ## Approvers -/

variable (jsonText chunk) in
/-- What the channel reports is still the approver of each decision that waits for its lookup. -/
structure Fair (s : Gate C) : Prop where
  pending : ∀ c, s.Pending c → ∀ decision approver, s.rulings c = some (decision, approver) → s.approverId = approver
  looked : ∀ c req decision approverId, s.calls c = .looked req decision approverId → s.rulings c = some (decision, approverId)
  attributed : Attributed jsonText chunk s

theorem Fair.moveTo {s s' : Gate C} (hs : Fair jsonText chunk s) {c : C} {phase : Phase} (hcalls : s'.calls = Function.update s.calls c phase)
    (hrulings : s'.rulings = s.rulings) (happrover : s'.approverId = s.approverId) (haudit : s'.audit = s.audit)
    (hpending : (∃ req decision, phase = .ruled req decision) ∨ (∃ req decision, phase = .locked req decision) → s.Pending c)
    (hlooked : ∀ req decision approverId, phase = .looked req decision approverId → s.rulings c = some (decision, approverId)) :
    Fair jsonText chunk s' where
  pending c' h decision approver hruling := by
    rw [happrover]
    rw [hrulings] at hruling
    rw [Pending, hcalls] at h
    by_cases hc : c' = c
    · subst hc
      rw [Function.update_self] at h
      exact hs.pending c' (hpending h) decision approver hruling
    · rw [Function.update_of_ne hc] at h
      exact hs.pending c' h decision approver hruling
  looked c' req decision approverId h := by
    rw [hcalls] at h
    rw [hrulings]
    by_cases hc : c' = c
    · subst hc
      rw [Function.update_self] at h
      exact hlooked req decision approverId h
    · rw [Function.update_of_ne hc] at h
      exact hs.looked c' req decision approverId h
  attributed c' entry hmem := by
    rw [haudit] at hmem
    rw [hrulings]
    exact hs.attributed c' entry hmem

theorem Fair.step {s : Gate C} (hs : Fair jsonText chunk s) (hinv : Inv jsonText chunk s) {event : Event C} (horder : s.InOrder event) :
    Fair jsonText chunk (s.step jsonText chunk event) := by
  cases event with
  | arrive c =>
    rw [Gate.step]
    split
    · split
      · refine hs.moveTo rfl rfl rfl rfl ?_ fun _ _ _ => nofun
        rintro (⟨_, _, h⟩ | ⟨_, _, h⟩) <;> cases h
      · refine hs.moveTo rfl rfl rfl rfl ?_ fun _ _ _ => nofun
        rintro (⟨_, _, h⟩ | ⟨_, _, h⟩) <;> cases h
    · exact hs
  | decide c decision approver =>
    rw [Gate.step]
    split
    · rename_i req hphase
      obtain ⟨hreq, hfresh⟩ := (hphase ▸ hinv.told c : Told jsonText chunk s c (.asking req))
      refine ⟨fun c' hpending decision' approver' hruling => ?_, fun c' req' decision' approverId h => ?_, fun c' entry hmem => ?_⟩
      · change Function.update s.rulings c _ c' = _ at hruling
        by_cases hc : c' = c
        · rw [hc, Function.update_self] at hruling
          exact (Prod.mk.inj (Option.some.inj hruling)).2
        · rw [Function.update_of_ne hc] at hruling
          have hpending' : s.Pending c' := by
            change (∃ req decision, Function.update s.calls c _ c' = _) ∨ ∃ req decision, Function.update s.calls c _ c' = _ at hpending
            rw [Function.update_of_ne hc] at hpending
            exact hpending
          exact (horder c' hc hpending').trans (hs.pending c' hpending' decision' approver' hruling)
      · change Function.update s.calls c _ c' = _ at h
        show Function.update s.rulings c _ c' = _
        by_cases hc : c' = c
        · rw [hc, Function.update_self] at h
          cases h
        · rw [Function.update_of_ne hc] at h ⊢
          exact hs.looked c' req' decision' approverId h
      · show ∃ req decision, _ ∧ Function.update s.rulings c _ c' = _ ∧ _
        have hc : c' ≠ c := fun hc => hfresh (hc ▸ mem_recorded.mpr ⟨entry, hmem⟩)
        rw [Function.update_of_ne hc]
        exact hs.attributed c' entry hmem
    · exact hs
  | lock c =>
    rw [Gate.step]
    split
    · rename_i req decision hphase _
      split
      · refine hs.moveTo rfl rfl rfl rfl ?_ fun _ _ _ => nofun
        rintro (⟨_, _, h⟩ | ⟨_, _, h⟩) <;> cases h
      · exact hs.moveTo rfl rfl rfl rfl (fun _ => .inl ⟨req, decision, hphase⟩) fun _ _ _ => nofun
    · exact hs
  | look c =>
    rw [Gate.step]
    split
    · rename_i req decision hphase
      obtain ⟨-, ⟨approver, hruling⟩, -⟩ := (hphase ▸ hinv.told c : Told jsonText chunk s c (.locked req decision))
      refine hs.moveTo rfl rfl rfl rfl ?_ fun req' decision' approverId h => ?_
      · rintro (⟨_, _, h⟩ | ⟨_, _, h⟩) <;> cases h
      · obtain ⟨rfl, rfl, rfl⟩ := Phase.looked.inj h
        rw [hs.pending c (.inr ⟨req, decision, hphase⟩) decision approver hruling]
        exact hruling
    · exact hs
  | append c nowMs =>
    rw [Gate.step]
    split
    · rename_i req decision approverId hphase
      obtain ⟨hreq, -, -⟩ := (hphase ▸ hinv.told c : Told jsonText chunk s c (.looked req decision approverId))
      have hmoved : Fair jsonText chunk (s.moveTo c (.returned (.ok (ruledBlock (chunk c) req decision)))) := by
        refine hs.moveTo rfl rfl rfl rfl ?_ fun _ _ _ => nofun
        rintro (⟨_, _, h⟩ | ⟨_, _, h⟩) <;> cases h
      refine ⟨hmoved.pending, hmoved.looked, fun c' entry hmem => ?_⟩
      rcases List.mem_append.mp hmem with hold | hnew
      · exact hs.attributed c' entry hold
      · obtain ⟨rfl, rfl⟩ := Prod.mk.inj (List.mem_singleton.mp hnew)
        exact ⟨req, decision, hreq, hs.looked c' req decision approverId hphase, rfl, rfl⟩
    · exact hs

variable (jsonText chunk) in
/-- **The audit log**: in every run, it keeps to its bound and has an entry for each gated call that passed or was replaced; and each entry
names the approver of its own request, where no other approver decides while a decision waits for its lookup. -/
theorem audit_sound (maxAuditEntries : Nat) (events : List (Event C)) :
    Throughout (Gate.step jsonText chunk) (Recorded jsonText chunk) (init C maxAuditEntries) events ∧
      (Along (Gate.step jsonText chunk) InOrder (init C maxAuditEntries) events →
        Throughout (Gate.step jsonText chunk) (Attributed jsonText chunk) (init C maxAuditEntries) events) := by
  have hinit := inv_init jsonText chunk maxAuditEntries
  refine ⟨(throughout_invariant (fun s event hs => hs.step event) hinit events).imp fun s hs => hs.recorded, fun horder => ?_⟩
  have hfair : Fair jsonText chunk (init C maxAuditEntries) :=
    ⟨fun c h => h.elim (fun ⟨_, _, h⟩ => (nomatch h)) (fun ⟨_, _, h⟩ => (nomatch h)), fun _ _ _ _ => nofun, fun _ _ => nofun⟩
  refine (throughout_induction (I := fun s => Inv jsonText chunk s ∧ Fair jsonText chunk s) (fun s event h hs => ?_) ⟨hinit, hfair⟩
    horder).imp fun s hs => hs.2.attributed
  exact ⟨hs.1.step event, hs.2.step hs.1 h⟩

theorem alone_attributed : Throughout (Gate.step (fun _ => "") fun _ : Unit => .toolCall "1" "shell" .null)
    (Attributed (fun _ => "") fun _ => .toolCall "1" "shell" .null) (init Unit 2)
    [.arrive (), .decide () .approved (some "alice"), .lock (), .look (), .append () 0] :=
  (audit_sound (fun _ => "") (fun _ => .toolCall "1" "shell" .null) 2 _).2
    ⟨trivial, fun c hc => absurd rfl hc, trivial, trivial, trivial, trivial⟩

/-- Two calls of a shell; the second is ruled on while the ruling on the first is still to be recorded. -/
def crossed : List (Event Bool) :=
  [.arrive false, .arrive true, .decide false .approved (some "alice"), .decide true .denied (some "bob"), .lock false, .look false,
    .append false 0]

/-- The entry of the first names the approver of the second. -/
theorem crossed_misattributed : ¬ ∀ (jsonText : Value → String) (chunk : Bool → MessageContentBlock) (maxAuditEntries : Nat)
    (events : List (Event Bool)), Throughout (Gate.step jsonText chunk) (Attributed jsonText chunk) (init Bool maxAuditEntries) events := by
  intro h
  have hlast := (h (fun _ => "") (fun _ => .toolCall "1" "shell" .null) 2 crossed).last
  have hentry : (false, (⟨"shell_exec", some "bob", "approved", 0⟩ : HitlAuditEntry)) ∈
      (run (Gate.step (fun _ => "") fun _ => .toolCall "1" "shell" .null) (init Bool 2) crossed).audit := by decide
  obtain ⟨_, decision, -, hruling, -⟩ := hlast false _ hentry
  have hissued : (run (Gate.step (fun _ => "") fun _ => .toolCall "1" "shell" .null) (init Bool 2) crossed).rulings false =
      some (.approved, some "alice") := by decide
  exact absurd (hissued.symm.trans hruling) (by simp)

end Gate

end Cuca.Hitl
