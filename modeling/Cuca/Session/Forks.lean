import Cuca.Session.Log
import Cuca.Session.Torn

/-!
# What a fork leaves

* `ForkKept` : a fork that succeeds adds a branch under a new name and one record to the original; a fork that fails leaves
  every session as it was;
* `Disk.Whole` : no file ends within a frame;
* `inMemory_fork_iff`, `file_fork_iff` : where that is so.
-/

namespace Cuca.Session
open Postcard Canonical

/-- What is replayed of each session. -/
abbrev View := String → Except PluginError (List SessionRecord)

/-- The contract of a fork at a point, the first of the original with that id. -/
def ForkKept (view view' : View) (sessionId pointId : String) (now : Nat) : Except PluginError String → Prop
  | .ok newId => view newId = .ok [] ∧ ∃ records index, view sessionId = .ok records ∧
      (records.findIdx? fun r => r.pointId == pointId) = some index ∧
      (∃ branch, view' newId = .ok branch ∧
        List.Forall₂ (SessionRecord.Related Value.Reordered) (relabelled (records.take (index + 1)) newId) branch) ∧
      view' sessionId = .ok (records ++ [auditRecord sessionId pointId newId records.length now]) ∧
      ∀ other, other ≠ newId → other ≠ sessionId → view' other = view other
  | .error _ => view' = view

theorem BlockRelated.refl (b : MessageContentBlock) : BlockRelated Value.Reordered b b := by
  cases b with
  | toolCall => exact ⟨rfl, rfl, .refl _⟩
  | _ => exact Eq.refl _

theorem SessionRecord.Related.refl (r : SessionRecord) : r.Related Value.Reordered r := by
  refine ⟨rfl, rfl, rfl, ?_⟩
  cases r.event with
  | message => exact ⟨rfl, Pointwise.refl BlockRelated.refl _⟩
  | toolCall => exact ⟨rfl, rfl, .refl _⟩
  | _ => exact Eq.refl _

/-! ## In memory -/

namespace InMemoryBackend

def view (s : InMemoryStore) : View := fun id => (replay s id).1

theorem inMemory_fork_iff (b : InMemoryBackend) (s : InMemoryStore) (id pointId : String) (now index : Nat)
    (hindex : ((records s id).findIdx? fun r => r.pointId == pointId) = some index) :
    ForkKept (view s) (view (b.fork s id pointId now).2) id pointId now (b.fork s id pointId now).1 ↔
      (s.total + (index + 2) > b.maxRecords ∨ records s s!"{id}:fork:{pointId}:{s.forkCounter}" = []) := by
  have hne := newId_ne id pointId s.forkCounter
  rw [fork]
  dsimp only
  rw [hindex]
  dsimp only
  split
  case isTrue hfull => exact iff_of_true rfl (.inl hfull)
  case isFalse hroom =>
    obtain ⟨hlt, _, _⟩ := List.findIdx?_eq_some_iff_getElem.mp hindex
    obtain ⟨v, hv⟩ : ∃ v, s.sessions.lookup id = some v := by
      rcases hlookup : s.sessions.lookup id with _ | v
      · rw [records, hlookup] at hlt
        exact absurd hlt (Nat.not_lt_zero _)
      · exact ⟨v, rfl⟩
    have hrecords : records s id = v := by rw [records, hv, Option.getD_some]
    rw [AList.lookup_insert_ne hne.symm, hv, or_iff_right hroom]
    dsimp only [ForkKept, view, replay]
    rw [records_insert, records_insert, hrecords]
    constructor
    · exact fun h => Except.ok.inj h.1
    · intro hnew
      refine ⟨congrArg Except.ok hnew, v, index, rfl, hrecords ▸ hindex, ⟨_, ?_, Pointwise.refl SessionRecord.Related.refl _⟩,
        ?_, fun other hother hother' => ?_⟩
      · rw [Function.update_of_ne hne, Function.update_self]
      · rw [Function.update_self]
      · rw [Function.update_of_ne hother', Function.update_of_ne hother]
        rfl

end InMemoryBackend

/-! ## In files -/

namespace FileBackend
variable (b : FileBackend)

def view (disk : Disk) : View := fun id => b.replay disk none id

/-- Every file holds whole frames, behind a header. -/
def Whole (disk : Disk) : Prop :=
  ∀ id content, disk.logs id = some content → content = [] ∨ ∃ records : List SessionRecord,
    content = header ++ records.flatMap b.format.encode

def started (content : Bytes) : Bytes := if content.isEmpty then header else content

variable {b}

theorem append_scratch (content : Bytes) (record : SessionRecord) :
    content ++ b.scratch content record = started content ++ b.format.encode record := by
  unfold scratch started
  split
  case isTrue h => rw [List.isEmpty_iff.mp h, List.nil_append]
  case isFalse => rw [List.nil_append]

variable {disk : Disk}

theorem append_done {record : SessionRecord} (hsafe : isSafe record.sessionId = true) :
    b.append disk .done record = (.ok (), setLog disk record.sessionId
      (started ((disk.logs record.sessionId).getD []) ++ b.format.encode record)) := by
  rw [append, checkSafeId, if_pos hsafe]
  dsimp only
  rw [append_scratch]

theorem started_ne_nil (content : Bytes) : started content ≠ [] := by
  unfold started
  split
  · exact List.cons_ne_nil _ _
  · rename_i h
    exact fun hnil => h (List.isEmpty_iff.mpr hnil)

theorem started_of_ne_nil {content : Bytes} (h : content ≠ []) : started content = content := by
  rw [started, if_neg]
  rwa [List.isEmpty_iff]

theorem view_congr {disk disk' : Disk} {id : String} (hlogs : disk'.logs id = disk.logs id)
    (hlegacy : disk'.legacy = disk.legacy) : b.view disk' id = b.view disk id := by
  unfold view replay
  rw [hlogs, hlegacy]

theorem view_nil {id : String} (hsafe : isSafe id = true) (h : disk.logs id = some []) :
    b.view disk id = .ok [] := by
  rw [view, replay, checkSafeId, if_pos hsafe]
  dsimp only
  rw [h]
  rfl

theorem isSafe_of_view {id : String} {found : List SessionRecord} (h : b.view disk id = .ok found) :
    isSafe id = true := by
  by_contra hsafe
  rw [view, replay, checkSafeId, if_neg hsafe] at h
  cases h

theorem started_of_view (hwhole : b.Whole disk) {id : String} {found : List SessionRecord}
    (h : b.view disk id = .ok found) :
    ∃ records, ReadAs b.format records found ∧
      started ((disk.logs id).getD []) = header ++ records.flatMap b.format.encode ∧
      ((disk.logs id).getD [] = [] → records = []) := by
  have hsafe := isSafe_of_view h
  rcases hlog : disk.logs id with _ | content
  · rw [view, replay, checkSafeId, if_pos hsafe] at h
    dsimp only at h
    rw [hlog] at h
    dsimp only at h
    split at h
    · cases h
    · obtain rfl := Except.ok.inj h
      exact ⟨[], .nil, (List.append_nil _).symm, fun _ => rfl⟩
  · rcases hwhole id content hlog with rfl | ⟨records, rfl⟩
    · rw [view_nil hsafe hlog] at h
      obtain rfl := Except.ok.inj h
      exact ⟨[], .nil, (List.append_nil _).symm, fun _ => rfl⟩
    · rw [view, replay_log hsafe hlog (Format.header_append_ne_nil _), Format.decodeFrames_header] at h
      obtain ⟨read, hread, rfl⟩ := (Format.readFrames_ok_iff (b.path id) records [] found).mp h
      refine ⟨records, hread, started_of_ne_nil (Format.header_append_ne_nil _), fun hnil => ?_⟩
      exact absurd hnil (Format.header_append_ne_nil _)

theorem view_changed {disk disk' : Disk} (hwhole : b.Whole disk) {id : String} {found : List SessionRecord}
    (h : b.view disk id = .ok found) {tail : Bytes} (htail : tail ≠ [])
    (hlog : disk'.logs id = some (started ((disk.logs id).getD []) ++ tail)) : b.view disk' id ≠ b.view disk id := by
  obtain ⟨records, hread, hstarted, _⟩ := started_of_view hwhole h
  rw [hstarted] at hlog
  rw [h]
  intro hsame
  rcases (replay_tail (isSafe_of_view h) hread hlog).2 htail with ⟨more, hmore, hok⟩ | ⟨index, e, _, herror⟩
  · exact hmore (List.append_right_eq_self.mp (Except.ok.inj (hok.symm.trans hsame)))
  · exact nomatch herror.symm.trans hsame

/-! ## The appends of a fork -/

theorem setLog_setLog (disk : Disk) (id : String) (content content' : Bytes) :
    setLog (setLog disk id content) id content' = setLog disk id content' := by
  unfold setLog
  dsimp only
  rw [Function.update_idem]

theorem append_ok {io : AppendIo} {record : SessionRecord} (h : (b.append disk io record).1 = .ok ()) :
    io = .done := by
  unfold append at h
  split at h
  · exact nomatch h
  · cases io with
    | done => rfl
    | _ => exact nomatch h

theorem appendAll_done {id : String} (hsafe : isSafe id = true) {appends : Nat → AppendIo} {records : List SessionRecord}
    (hnonempty : records ≠ []) (hlabel : ∀ r ∈ records, r.sessionId = id) (disk : Disk) (k : Nat)
    (hdone : ∀ j < records.length, appends (k + j) = .done) :
    b.appendAll disk appends k records = (.ok (), setLog disk id
      (started ((disk.logs id).getD []) ++ records.flatMap b.format.encode)) := by
  induction records generalizing disk k with
  | nil => exact absurd rfl hnonempty
  | cons r records ih =>
    have hfirst := hdone 0 (Nat.succ_pos _)
    have hr := hlabel r List.mem_cons_self
    rw [Nat.add_zero] at hfirst
    rw [appendAll, hfirst, append_done (by rwa [hr]), hr]
    dsimp only
    rcases eq_or_ne records [] with rfl | hrest
    · rw [appendAll, List.flatMap_singleton]
    · rw [ih hrest (fun r' hr' => hlabel r' (List.mem_cons_of_mem _ hr'))]
      · have hstarted : started (started ((disk.logs id).getD []) ++ b.format.encode r) =
            started ((disk.logs id).getD []) ++ b.format.encode r :=
          started_of_ne_nil fun hnil => started_ne_nil _ (List.append_eq_nil_iff.mp hnil).1
        rw [setLog_setLog, setLog_logs, if_pos rfl, Option.getD_some, hstarted, List.flatMap_cons, List.append_assoc]
      · intro j hj
        have hnext := hdone (j + 1) (Nat.succ_lt_succ hj)
        rwa [Nat.add_assoc, Nat.add_comm 1 j]

theorem appendAll_keeps (appends : Nat → AppendIo) (records : List SessionRecord) {id : String}
    {content : Bytes} (k : Nat) (h : ∃ tail, disk.logs id = some (content ++ tail)) :
    ∃ tail, (b.appendAll disk appends k records).2.logs id = some (content ++ tail) := by
  induction records generalizing disk k with
  | nil => exact h
  | cons r records ih =>
    obtain ⟨tail, htail⟩ := h
    have hnext := b.append_keeps disk (appends k, r) htail
    rw [appendAll]
    split
    case h_1 happend => rwa [happend] at hnext
    case h_2 happend =>
      rw [happend] at hnext
      exact ih (k + 1) hnext

theorem appendAll_ok {appends : Nat → AppendIo} {records : List SessionRecord} {k : Nat}
    (h : (b.appendAll disk appends k records).1 = .ok ()) : ∀ j < records.length, appends (k + j) = .done := by
  induction records generalizing disk k with
  | nil => exact fun j hj => absurd hj (Nat.not_lt_zero _)
  | cons r records ih =>
    rw [appendAll] at h
    split at h
    case h_1 => exact nomatch h
    case h_2 disk' happend =>
      intro j hj
      rcases j with _ | j
      · exact append_ok (congrArg Prod.fst happend)
      · have hrest := ih h j (Nat.lt_of_succ_lt_succ hj)
        rwa [Nat.add_assoc, Nat.add_comm 1 j] at hrest

/-! ## A fork -/

/-- A first append that fails before it writes any byte of a frame. -/
def WritesNothing (content : Bytes) : AppendIo → Prop
  | .done => False
  | .openFails _ => True
  | .metadataFails _ => True
  | .writeFails written _ => written = 0 ∨ content = [] ∧ written = headerLen

/-- Where a fork in files keeps the contract: the original cannot be read or the new id maps to no file; or all is written,
under a new name, of arguments that are read back; or nothing is. -/
def Keeps (b : FileBackend) (s : FileStore) (io : ForkIo) (newId : String) (branch : List SessionRecord) : Prop :=
  io.readFails ≠ none ∨ isSafe newId = false ∨
    ((∀ k ≤ branch.length, io.appends k = .done) ∧ b.view s.disk newId = .ok [] ∧
      ∀ r ∈ branch, ∀ v ∈ r.arguments, ∃ w, Reads b.format.numberText b.format.fromStr v w ∧ v.Reordered w) ∨
    (¬ (∀ k ≤ branch.length, io.appends k = .done) ∧ WritesNothing ((s.disk.logs newId).getD []) (io.appends 0))

theorem newId_ne (s : FileStore) (sessionId pointId : String) : newId s sessionId pointId ≠ sessionId :=
  InMemoryBackend.newId_ne sessionId pointId s.forkCounter

section
variable {s : FileStore} {io : ForkIo} {id pointId : String} {now index : Nat} {records : List SessionRecord}

theorem fork_unread {e : String} (hview : b.view s.disk id = .ok records) (hread : io.readFails = some e) :
    b.fork s io id pointId now = (.error (.io e), s) := by
  have hsafe := isSafe_of_view hview
  have hreplay : b.replay s.disk (some e) id = .error (.io e) := by
    rw [replay, checkSafeId, if_pos hsafe]
  rw [fork, checkSafeId, if_pos hsafe]
  dsimp only
  rw [hread, hreplay]

theorem fork_found (hview : b.view s.disk id = .ok records) (hread : io.readFails = none)
    (hindex : (records.findIdx? fun r => r.pointId == pointId) = some index) :
    b.fork s io id pointId now =
      match checkSafeId (newId s id pointId) with
      | .error e => (.error e, ⟨s.disk, s.forkCounter + 1⟩)
      | .ok () =>
        match b.appendAll s.disk io.appends 0 (relabelled (records.take (index + 1)) (newId s id pointId)) with
        | (.error e, disk) => (.error e, ⟨disk, s.forkCounter + 1⟩)
        | (.ok (), disk) =>
          match b.append disk (io.appends (index + 1)) (auditRecord id pointId (newId s id pointId) records.length now) with
          | (.error e, disk) => (.error e, ⟨disk, s.forkCounter + 1⟩)
          | (.ok (), disk) => (.ok (newId s id pointId), ⟨disk, s.forkCounter + 1⟩) := by
  rw [fork, checkSafeId, if_pos (isSafe_of_view hview)]
  dsimp only
  rw [hread, show b.replay s.disk none id = .ok records from hview]
  dsimp only
  generalize (records.findIdx? fun r => r.pointId == pointId) = found at hindex ⊢
  subst hindex
  rfl

theorem fork_done (hview : b.view s.disk id = .ok records) (hread : io.readFails = none)
    (hindex : (records.findIdx? fun r => r.pointId == pointId) = some index) (hsafe : isSafe (newId s id pointId) = true)
    (hdone : ∀ k ≤ index + 1, io.appends k = .done) :
    (b.fork s io id pointId now).1 = .ok (newId s id pointId) ∧
      (b.fork s io id pointId now).2.disk = setLog (setLog s.disk (newId s id pointId)
          (started ((s.disk.logs (newId s id pointId)).getD []) ++
            (relabelled (records.take (index + 1)) (newId s id pointId)).flatMap b.format.encode)) id
          (started ((s.disk.logs id).getD []) ++
            b.format.encode (auditRecord id pointId (newId s id pointId) records.length now)) := by
  obtain ⟨hlt, _, _⟩ := List.findIdx?_eq_some_iff_getElem.mp hindex
  have hlength : (relabelled (records.take (index + 1)) (newId s id pointId)).length = index + 1 := by
    rw [relabelled, List.length_map, List.length_take_of_le hlt]
  have hne := newId_ne s id pointId
  have hlabel : ∀ r ∈ relabelled (records.take (index + 1)) (newId s id pointId), r.sessionId = newId s id pointId :=
    mem_relabelled
  have haudit : isSafe (auditRecord id pointId (newId s id pointId) records.length now).sessionId = true :=
    isSafe_of_view hview
  rw [fork_found hview hread hindex, checkSafeId, if_pos hsafe]
  dsimp only
  generalize newId s id pointId = branchId at *
  have hnonempty : relabelled (records.take (index + 1)) branchId ≠ [] := fun hnil => by
    rw [hnil] at hlength
    cases hlength
  have hall : ∀ j < (relabelled (records.take (index + 1)) branchId).length, io.appends (0 + j) = .done := by
    intro j hj
    rw [Nat.zero_add]
    apply hdone
    omega
  rw [appendAll_done hsafe hnonempty hlabel s.disk 0 hall]
  dsimp only
  rw [hdone (index + 1) (Nat.le_refl _), append_done haudit, auditRecord, setLog_logs, if_neg hne.symm]
  exact ⟨rfl, rfl⟩

theorem fork_fails (hview : b.view s.disk id = .ok records) (hread : io.readFails = none)
    (hindex : (records.findIdx? fun r => r.pointId == pointId) = some index) (hsafe : isSafe (newId s id pointId) = true)
    (hfails : ¬ ∀ k ≤ index + 1, io.appends k = .done) :
    (∃ e, (b.fork s io id pointId now).1 = .error e) ∧
      (io.appends 0 = .done → ∃ tail, tail ≠ [] ∧ (b.fork s io id pointId now).2.disk.logs (newId s id pointId) =
        some (started ((s.disk.logs (newId s id pointId)).getD []) ++ tail)) ∧
      (io.appends 0 ≠ .done → ∃ r, r.sessionId = newId s id pointId ∧
        (b.fork s io id pointId now).2.disk = (b.append s.disk (io.appends 0) r).2) := by
  obtain ⟨hlt, _, _⟩ := List.findIdx?_eq_some_iff_getElem.mp hindex
  have hlength : (relabelled (records.take (index + 1)) (newId s id pointId)).length = index + 1 := by
    rw [relabelled, List.length_map, List.length_take_of_le hlt]
  have hlabel : ∀ r ∈ relabelled (records.take (index + 1)) (newId s id pointId), r.sessionId = newId s id pointId :=
    mem_relabelled
  rw [fork_found hview hread hindex, checkSafeId, if_pos hsafe]
  dsimp only
  generalize relabelled (records.take (index + 1)) (newId s id pointId) = branch at hlength hlabel
  obtain ⟨r, branch, rfl⟩ := List.exists_cons_of_length_eq_add_one hlength
  have hr := hlabel r List.mem_cons_self
  refine ⟨?_, fun hfirst => ?_, fun hfirst => ⟨r, hr, ?_⟩⟩
  · split
    case h_1 e _ _ => exact ⟨e, rfl⟩
    case h_2 disk hall =>
      split
      case h_1 e _ _ => exact ⟨e, rfl⟩
      case h_2 hlast =>
        refine absurd (fun k hk => ?_) hfails
        rcases Nat.lt_or_eq_of_le hk with hbranch | rfl
        · have := appendAll_ok (congrArg Prod.fst hall) k (by rw [hlength]; exact hbranch)
          rwa [Nat.zero_add] at this
        · exact append_ok (congrArg Prod.fst hlast)
  · have hkept : ∃ tail, (b.appendAll s.disk io.appends 0 (r :: branch)).2.logs (newId s id pointId) =
        some (started ((s.disk.logs (newId s id pointId)).getD []) ++ b.format.encode r ++ tail) := by
      rw [appendAll, hfirst, append_done (by rwa [hr]), hr]
      dsimp only
      refine appendAll_keeps io.appends branch 1 ⟨[], ?_⟩
      rw [setLog_logs, if_pos rfl, List.append_nil]
    obtain ⟨tail, htail⟩ := hkept
    have hnonempty (tail : Bytes) : b.format.encode r ++ tail ≠ [] := fun hnil =>
      Format.encode_ne_nil r (List.append_eq_nil_iff.mp hnil).1
    split
    case h_1 disk hall =>
      rw [hall] at htail
      exact ⟨_, hnonempty tail, by rw [← List.append_assoc]; exact htail⟩
    case h_2 disk hall =>
      rw [hall] at htail
      obtain ⟨tail', htail'⟩ := b.append_keeps disk
        (io.appends (index + 1), auditRecord id pointId (newId s id pointId) records.length now) htail
      rw [List.append_assoc] at htail'
      refine ⟨_, hnonempty tail', ?_⟩
      split
      case h_1 disk' hlast => rwa [hlast] at htail'
      case h_2 disk' hlast => rwa [hlast] at htail'
  · rw [appendAll]
    rcases happend : b.append s.disk (io.appends 0) r with ⟨answer, disk⟩
    rcases answer with e | ⟨⟩
    · rfl
    · exact absurd (append_ok (congrArg Prod.fst happend)) hfirst

variable {branchId : String}

theorem view_audited (hwhole : b.Whole s.disk) (hview : b.view s.disk id = .ok records) {disk : Disk}
    (hlog : disk.logs id = some (started ((s.disk.logs id).getD []) ++
      b.format.encode (auditRecord id pointId branchId records.length now))) :
    b.view disk id = .ok (records ++ [auditRecord id pointId branchId records.length now]) := by
  obtain ⟨stored, hread, hstarted, _⟩ := started_of_view hwhole hview
  have hall : ReadAs b.format (stored ++ [auditRecord id pointId branchId records.length now])
      (records ++ [auditRecord id pointId branchId records.length now]) := List.rel_append hread (.cons rfl .nil)
  have hfile : disk.logs id = some (header ++
      (stored ++ [auditRecord id pointId branchId records.length now]).flatMap b.format.encode ++ []) := by
    rw [hlog, hstarted, List.flatMap_append, List.flatMap_singleton, List.append_nil, List.append_assoc]
  exact (replay_tail (isSafe_of_view hview) hall hfile).1 rfl

theorem view_branch (hwhole : b.Whole s.disk) (hnew : b.view s.disk branchId = .ok [])
    {branch : List SessionRecord} {disk : Disk}
    (hlog : disk.logs branchId = some (started ((s.disk.logs branchId).getD []) ++ branch.flatMap b.format.encode)) :
    b.view disk branchId = b.format.decodeFrames (b.path branchId) (header ++ branch.flatMap b.format.encode) := by
  obtain ⟨stored, hread, hstarted, _⟩ := started_of_view hwhole hnew
  obtain rfl := List.forall₂_nil_right_iff.mp hread
  rw [hstarted, List.flatMap_nil, List.append_nil] at hlog
  exact replay_log (isSafe_of_view hnew) hlog (Format.header_append_ne_nil _)

theorem view_failed_iff (hwhole : b.Whole s.disk) {found : List SessionRecord}
    (hfound : b.view s.disk branchId = .ok found) {r : SessionRecord} (hr : r.sessionId = branchId) {io : AppendIo}
    (hfails : io ≠ .done) :
    b.view (b.append s.disk io r).2 = b.view s.disk ↔ WritesNothing ((s.disk.logs branchId).getD []) io := by
  have hsafe := isSafe_of_view hfound
  have hlegacy (content : Bytes) : (setLog s.disk branchId content).legacy = s.disk.legacy := rfl
  -- the other sessions are left as they are
  have hothers (content : Bytes) : b.view (setLog s.disk branchId content) = b.view s.disk ↔
      b.view (setLog s.disk branchId content) branchId = .ok found := by
    rw [← hfound]
    refine ⟨fun h => congrFun h branchId, fun h => funext fun other => ?_⟩
    rcases eq_or_ne other branchId with rfl | hne
    · exact h
    · exact view_congr (by rw [setLog_logs, if_neg hne]) (hlegacy content)
  obtain ⟨stored, hread, hstarted, hempty⟩ := started_of_view hwhole hfound
  -- what is in the file reads as before
  have hsame : b.view (setLog s.disk branchId ((s.disk.logs branchId).getD [])) branchId = .ok found := by
    rcases eq_or_ne ((s.disk.logs branchId).getD []) [] with hnil | hcontent
    · have hnone := hempty hnil
      rw [hnone] at hread
      rw [List.forall₂_nil_left_iff.mp hread, hnil]
      exact view_nil hsafe (by rw [setLog_logs, if_pos rfl])
    · rw [started_of_ne_nil hcontent] at hstarted
      refine (replay_tail hsafe hread ?_).1 rfl
      rw [setLog_logs, if_pos rfl, hstarted, List.append_nil]
  rw [append, checkSafeId, hr, if_pos hsafe]
  dsimp only
  rcases io with _ | e | e | ⟨written, e⟩
  · exact absurd rfl hfails
  · exact iff_of_true rfl trivial
  · exact iff_of_true ((hothers _).mpr hsame) trivial
  · dsimp only [WritesNothing]
    rw [hothers]
    rcases Nat.eq_zero_or_pos written with rfl | hpos
    · refine iff_of_true ?_ (.inl rfl)
      rwa [List.take_zero, List.append_nil]
    · rw [or_iff_right (Nat.ne_of_gt hpos)]
      have htail (n : Nat) (hn : 0 < n) : (b.format.encode r).take n ≠ [] := fun hnil =>
        (List.take_eq_nil_iff.mp hnil).elim (Nat.ne_of_gt hn) (Format.encode_ne_nil r)
      have hmore {content : Bytes} {n : Nat} (hn : 0 < n)
          (hfile : content = started ((s.disk.logs branchId).getD []) ++ (b.format.encode r).take n) :
          b.view (setLog s.disk branchId content) branchId ≠ .ok found := by
        rw [← hfound]
        exact view_changed hwhole hfound (htail n hn) (by rw [setLog_logs, if_pos rfl, hfile])
      rcases eq_or_ne ((s.disk.logs branchId).getD []) [] with hnil | hcontent
      · rw [and_iff_right hnil, hnil, List.nil_append, scratch, if_pos List.isEmpty_nil]
        have hnone := hempty hnil
        rw [hnone] at hread
        obtain rfl := List.forall₂_nil_left_iff.mp hread
        rcases Nat.lt_trichotomy written headerLen with hshort | rfl | hlong
        · refine iff_of_false ?_ (Nat.ne_of_lt hshort)
          have hlength : (header ++ b.format.encode r).take written = header.take written := by
            rw [List.take_append_of_le_length]
            exact Nat.le_of_lt hshort
          have htaken : (header.take written).length = written := List.length_take_of_le (Nat.le_of_lt hshort)
          rw [hlength, view, replay_log hsafe (by rw [setLog_logs, if_pos rfl])
            (List.ne_nil_of_length_pos (by rw [htaken]; exact hpos)), Format.decodeFrames, if_pos (by rw [htaken]; exact hshort)]
          simp
        · refine iff_of_true ?_ rfl
          have htake : (header ++ b.format.encode r).take headerLen = header := by
            rw [← Format.length_header, List.take_left]
          have hlog : (setLog s.disk branchId header).logs branchId = some (header ++ []) := by
            rw [setLog_logs, if_pos rfl, List.append_nil]
          rw [htake, view, replay_log hsafe hlog (Format.header_append_ne_nil _), Format.decodeFrames_header,
            Format.readFrames_nil]
        · refine iff_of_false (hmore (Nat.sub_pos_of_lt hlong) ?_) (Nat.ne_of_gt hlong)
          rw [hnil, started, if_pos List.isEmpty_nil]
          obtain ⟨n, rfl⟩ := Nat.exists_eq_add_of_lt hlong
          rw [Nat.add_assoc, Nat.add_sub_cancel_left, ← Format.length_header]
          exact List.take_length_add_append ..
      · refine iff_of_false (hmore hpos ?_) fun h => hcontent h.1
        rw [scratch, started_of_ne_nil hcontent, if_neg, List.nil_append]
        rwa [List.isEmpty_iff]

/-- **A fork in files** keeps the contract just where `Keeps` says so, from whole files of which that of the branch, if it
is there, can be read. -/
theorem file_fork_iff (hwhole : b.Whole s.disk) (hview : b.view s.disk id = .ok records)
    (hindex : (records.findIdx? fun r => r.pointId == pointId) = some index)
    (hbranch : ∀ e, b.view s.disk (newId s id pointId) = .error e → isSafe (newId s id pointId) = false) :
    ForkKept (b.view s.disk) (b.view (b.fork s io id pointId now).2.disk) id pointId now (b.fork s io id pointId now).1 ↔
      b.Keeps s io (newId s id pointId) (relabelled (records.take (index + 1)) (newId s id pointId)) := by
  obtain ⟨hlt, _, _⟩ := List.findIdx?_eq_some_iff_getElem.mp hindex
  have hlength : (relabelled (records.take (index + 1)) (newId s id pointId)).length = index + 1 := by
    rw [relabelled, List.length_map, List.length_take_of_le hlt]
  rcases hread : io.readFails with _ | e
  case some =>
    rw [fork_unread hview hread]
    refine iff_of_true rfl (.inl ?_)
    rw [hread]
    simp
  rcases hsafe : isSafe (newId s id pointId) with _ | _
  case false =>
    rw [fork_found hview hread hindex, checkSafeId, hsafe]
    exact iff_of_true rfl (.inr (.inl hsafe))
  unfold Keeps
  rw [or_iff_right (not_not_intro hread), or_iff_right (by simp [hsafe]), hlength]
  by_cases hdone : ∀ k ≤ index + 1, io.appends k = .done
  · obtain ⟨hanswer, hdisk⟩ : (b.fork s io id pointId now).1 = _ ∧ (b.fork s io id pointId now).2.disk = _ :=
      fork_done hview hread hindex hsafe hdone
    have hne := newId_ne s id pointId
    rw [hanswer, or_iff_left (fun h => h.1 hdone), and_iff_right hdone]
    dsimp only [ForkKept]
    generalize (b.fork s io id pointId now).2.disk = disk, newId s id pointId = branchId at *
    have hlogBranch : disk.logs branchId = some (started ((s.disk.logs branchId).getD []) ++
        (relabelled (records.take (index + 1)) branchId).flatMap b.format.encode) := by
      rw [hdisk, setLog_logs, if_neg hne, setLog_logs, if_pos rfl]
    have hlog : disk.logs id = some (started ((s.disk.logs id).getD []) ++
        b.format.encode (auditRecord id pointId branchId records.length now)) := by
      rw [hdisk, setLog_logs, if_pos rfl]
    have hlogOther (other : String) (hother : other ≠ branchId) (hother' : other ≠ id) :
        disk.logs other = s.disk.logs other := by
      rw [hdisk, setLog_logs, if_neg hother', setLog_logs, if_neg hother]
    have hlegacy : disk.legacy = s.disk.legacy := by rw [hdisk, setLog, setLog]
    constructor
    · rintro ⟨hnew, records', index', hview', hindex', ⟨branch, hread', hsame⟩, -⟩
      obtain rfl := Except.ok.inj (hview.symm.trans hview')
      obtain rfl := Option.some.inj (hindex.symm.trans hindex')
      rw [view_branch hwhole hnew hlogBranch] at hread'
      exact ⟨hnew, (Format.exists_read_iff _ _).mp ⟨branch, hread', hsame⟩⟩
    · rintro ⟨hnew, hargs⟩
      obtain ⟨branch, hread', hsame⟩ := (Format.exists_read_iff (b.path branchId) _).mpr hargs
      refine ⟨hnew, records, index, hview, hindex, ⟨branch, ?_, hsame⟩, ?_, fun other hother hother' => ?_⟩
      · rw [view_branch hwhole hnew hlogBranch, hread']
      · exact view_audited hwhole hview hlog
      · exact view_congr (hlogOther other hother hother') hlegacy
  · obtain ⟨⟨e, hanswer⟩, hfirst, hnone⟩ : (∃ e, (b.fork s io id pointId now).1 = .error e) ∧ _ ∧ _ :=
      fork_fails hview hread hindex hsafe hdone
    obtain ⟨found, hfound⟩ : ∃ found, b.view s.disk (newId s id pointId) = .ok found := by
      rcases hview : b.view s.disk (newId s id pointId) with e | found
      · cases hsafe.symm.trans (hbranch e hview)
      · exact ⟨found, rfl⟩
    rw [or_iff_right (fun h => hdone h.1), and_iff_right hdone, hanswer]
    dsimp only [ForkKept]
    by_cases hio : io.appends 0 = .done
    · obtain ⟨tail, htail, hlog⟩ := hfirst hio
      rw [hio]
      refine iff_of_false (fun hsame => ?_) (fun h => h)
      exact view_changed hwhole hfound htail hlog (congrFun hsame _)
    · obtain ⟨r, hr, hdisk⟩ := hnone hio
      rw [hdisk]
      exact view_failed_iff hwhole hfound hr hio

end

end FileBackend

/-! ## Both backends -/

/-- **Forks at a point of a session.** In memory, one that finds no room changes nothing, and one that does keeps the contract
just when the id it makes up is new. In files that are whole it keeps it just when it gets no further than the read of the
original, or writes all, under a new id and of arguments that are read back, or stops before the first byte of a frame. -/
theorem fork_kept_iff (id pointId : String) (now index : Nat) :
    (∀ (b : InMemoryBackend) (s : InMemoryStore),
      ((InMemoryBackend.records s id).findIdx? fun r => r.pointId == pointId) = some index →
        (ForkKept (InMemoryBackend.view s) (InMemoryBackend.view (b.fork s id pointId now).2) id pointId now
            (b.fork s id pointId now).1 ↔
          (s.total + (index + 2) > b.maxRecords ∨
            InMemoryBackend.records s s!"{id}:fork:{pointId}:{s.forkCounter}" = []))) ∧
    (∀ (b : FileBackend) (s : FileStore) (io : ForkIo) (records : List SessionRecord),
      b.Whole s.disk → b.view s.disk id = .ok records →
      (records.findIdx? fun r => r.pointId == pointId) = some index →
      (∀ e, b.view s.disk (FileBackend.newId s id pointId) = .error e →
        FileBackend.isSafe (FileBackend.newId s id pointId) = false) →
        (ForkKept (b.view s.disk) (b.view (b.fork s io id pointId now).2.disk) id pointId now
            (b.fork s io id pointId now).1 ↔
          b.Keeps s io (FileBackend.newId s id pointId)
            (relabelled (records.take (index + 1)) (FileBackend.newId s id pointId)))) := by
  refine ⟨fun b s hindex => ?_, fun b s io records hwhole hview hindex hbranch => ?_⟩
  · exact b.inMemory_fork_iff s id pointId now index hindex
  · exact FileBackend.file_fork_iff hwhole hview hindex hbranch

namespace FileBackend

def allDone : ForkIo := ⟨none, fun _ => .done⟩

theorem whole_oneRecord : files.Whole oneRecord := by
  intro id content h
  obtain ⟨_, heq⟩ := Option.ite_none_right_eq_some.mp h
  exact .inr ⟨_, (Option.some.inj heq).symm⟩

theorem view_oneRecord : files.view oneRecord "s" = .ok [output 0] := by
  refine (replay_tail (by rfl) (readAs_output 0) ?_).1 rfl
  rw [List.append_nil]
  rfl

theorem view_absent (id : String) (hsafe : isSafe id = true) (h : id ≠ "s") : files.view oneRecord id = .ok [] := by
  have hlog : oneRecord.logs id = none := if_neg h
  rw [view, replay, checkSafeId, if_pos hsafe]
  dsimp only
  rw [hlog]
  rfl

theorem findIdx_output : ([output 0].findIdx? fun r => r.pointId == "s:0") = some 0 := by rfl

theorem newId_first (disk : Disk) : newId (.reopened disk) "s" "s:0" = "s:fork:s:0:0" := by
  show "s" ++ ":fork:" ++ "s:0" ++ ":" ++ Nat.repr 0 = _
  decide

end FileBackend

open FileBackend in
theorem fork_kept_iff_first :
    ForkKept (files.view oneRecord) (files.view (files.fork (.reopened oneRecord) allDone "s" "s:0" 1).2.disk) "s" "s:0" 1
        (files.fork (.reopened oneRecord) allDone "s" "s:0" 1).1 ↔
      files.Keeps (.reopened oneRecord) allDone (newId (.reopened oneRecord) "s" "s:0")
        (relabelled ([output 0].take 1) (newId (.reopened oneRecord) "s" "s:0")) := by
  refine (fork_kept_iff "s" "s:0" 1 0).2 files (.reopened oneRecord) allDone [output 0] whole_oneRecord view_oneRecord
    findIdx_output fun e herror => ?_
  rw [newId_first, FileStore.reopened, view_absent "s:fork:s:0:0" (by rfl) (by decide)] at herror
  exact nomatch herror

namespace FileBackend

noncomputable def forkedOnce : Disk := (files.fork (.reopened oneRecord) allDone "s" "s:0" 1).2.disk

end FileBackend

open FileBackend in
/-- A backend that is opened again on files with a fork gives the next one the same id, and appends to its branch. -/
theorem fork_again :
    ¬ ForkKept (files.view forkedOnce) (files.view (files.fork (.reopened forkedOnce) allDone "s" "s:0" 2).2.disk) "s" "s:0"
      2 (files.fork (.reopened forkedOnce) allDone "s" "s:0" 2).1 := by
  obtain ⟨-, hdisk⟩ : (files.fork (.reopened oneRecord) allDone "s" "s:0" 1).1 = _ ∧ forkedOnce = _ :=
    fork_done view_oneRecord rfl findIdx_output (by rw [newId_first]; rfl) fun _ _ => rfl
  rw [newId_first, FileStore.reopened] at hdisk
  have hview : files.view forkedOnce "s" = .ok ([output 0] ++ [auditRecord "s" "s:0" "s:fork:s:0:0" 1 1]) :=
    view_audited (s := .reopened oneRecord) whole_oneRecord view_oneRecord (by rw [hdisk, setLog_logs, if_pos rfl]; rfl)
  have hbranch : files.view forkedOnce "s:fork:s:0:0" = .ok [{ output 0 with sessionId := "s:fork:s:0:0" }] := by
    rw [view_branch (s := .reopened oneRecord) whole_oneRecord (view_absent _ (by rfl) (by decide))
      (by rw [hdisk, setLog_logs, if_neg (by decide), setLog_logs, if_pos rfl]; rfl)]
    refine (Format.decodeFrames_header ..).trans ?_
    exact (Format.readFrames_ok_iff _ _ _ _).mpr ⟨_, .cons rfl .nil, rfl⟩
  obtain ⟨hanswer, -⟩ : (files.fork (.reopened forkedOnce) allDone "s" "s:0" 2).1 = _ ∧ _ = _ :=
    fork_done (s := .reopened forkedOnce) hview rfl (by rfl) (by rw [newId_first]; rfl) fun _ _ => rfl
  rw [hanswer, newId_first]
  intro hkept
  exact nomatch hbranch.symm.trans hkept.1

end Cuca.Session
