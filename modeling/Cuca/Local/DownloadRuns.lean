import Cuca.Local.Download

/-!
# Downloads, attempt after attempt

* `State.Sound` : what holds in every run, whatever the server and the file system do;
* `State.Discards` : a file that does not have the expected digest is removed, where the removal is carried out;
* `State.Genuine` : the final file is the server's, where the server's answers are its bytes and `Resumes` holds;
* `downloads_sound` : all of it, in every run.
-/

namespace Cuca.Download
open Transition

variable {sha : Sha256}

/-! ## What runs keep -/

def Accepts (sha : Sha256) (t : Target) (total : Option Nat) (bytes : Bytes) : Prop :=
  (∀ n ∈ total, bytes.length = n) ∧ ∀ expected ∈ t.sha256, hex (sha.finalize (sha.update sha.new bytes)) = toAsciiLowercase expected

/-- The bytes the attempt counts as written to the partial file, and the hash that runs. -/
def State.counted (s : State sha.State) : Option (Option sha.State × Bytes) :=
  match s.phase with
  | .requesting _ offset hasher _ => some (hasher, s.bytes.take offset)
  | .removing _ hasher => some (hasher, [])
  | .opening _ offset hasher _ _ => some (hasher, s.bytes.take offset)
  | .receiving _ hasher _ _ _ pending _ => some (hasher, s.bytes ++ pending)
  | .verifying _ hasher _ _ => some (hasher, s.bytes)
  | _ => none

structure State.Sound (s : State sha.State) : Prop where
  hash : ∀ hasher counted, s.counted = some (some hasher, counted) → hasher = sha.update sha.new counted
  /-- What is not counted is cut off when the file is opened. -/
  whole : ∀ t offset hasher total body, s.phase = .opening t offset hasher total body → offset = 0 ∨ s.bytes.length = offset
  accepted : ∀ bytes ∈ s.finalFile, ∃ t total, s.accepted = some (t, total) ∧ Accepts sha t total bytes
  requests : s.requests.length ≤ 2

def State.Discards (s : State sha.State) : Prop :=
  ∀ endpoint message, s.phase = .idle (some (.error (.provider endpoint message))) → s.partialFile = none

def State.Genuine (file : Bytes) (s : State sha.State) : Prop := ∀ bytes ∈ s.finalFile, bytes = file

/-- The file system removes what it is told to. -/
def Removes (_ : State sha.State) : Event → Prop
  | .discard removed => removed = true
  | _ => True

/-- The answer is made of the file's bytes. -/
def Truthful (file : Bytes) (_ : State sha.State) : Event → Prop
  | .answer r _ =>
    if r.status = 206 then
      match r.contentRange.bind parseContentRange with
      | some (start, _) => r.body = file.drop start
      | none => True
    else 200 ≤ r.status ∧ r.status < 300 → r.body = file
  | _ => True

/-- A request for the rest of a file is answered by 200 and 206, of the 2xx. -/
def Resumes (s : State sha.State) : Event → Prop
  | .answer r _ =>
    match s.phase with
    | .requesting _ offset _ _ => offset > 0 → 200 ≤ r.status → r.status < 300 → r.status = 200 ∨ r.status = 206
    | _ => True
  | _ => True

theorem Fault.last_ne (fault : Fault) (endpoint : ProviderEndpoint) (message : String) :
    fault.last ≠ some (.error (.provider endpoint message)) := by
  cases fault <;> exact (nomatch ·)

/-! ## The hash -/

def Runs (sha : Sha256) (t : Target) (hasher : Option sha.State) (counted : Bytes) : Prop :=
  hasher = t.sha256.map fun _ => sha.update sha.new counted

theorem runs_fresh (t : Target) : Runs sha t (fresh sha t) [] := by
  unfold Runs fresh
  rw [sha.update_nil]

theorem runs_renewed {t : Target} {hasher : Option sha.State} {counted : Bytes} (h : Runs sha t hasher counted) :
    Runs sha t (if t.sha256.isSome then some sha.new else hasher) [] := by
  unfold Runs at *
  rw [sha.update_nil]
  cases ht : t.sha256 with
  | none => simpa [ht] using h
  | some expected => rfl

theorem Runs.chunk {t : Target} {hasher : Option sha.State} {counted : Bytes} (h : Runs sha t hasher counted) (chunk : Bytes) :
    Runs sha t (hasher.map (sha.update · chunk)) (counted ++ chunk) := by
  unfold Runs at *
  rw [h, Option.map_map]
  simp only [Function.comp_def, sha.update_append]

theorem Runs.eq {t : Target} {hasher : sha.State} {counted : Bytes} (h : Runs sha t (some hasher) counted) :
    hasher = sha.update sha.new counted := by
  obtain ⟨_, -, heq⟩ := Option.map_eq_some_iff.mp h.symm
  exact heq.symm

theorem foldl_update (pieces : List Bytes) (h : sha.State) : pieces.foldl sha.update h = sha.update h pieces.flatten := by
  induction pieces generalizing h with
  | nil => exact (sha.update_nil h).symm
  | cons piece pieces ih =>
    rw [List.foldl_cons, ih, List.flatten_cons, sha.update_append]

theorem runs_hashed {t : Target} {pieces : List Bytes} {bytes : Bytes} (ht : t.sha256.isSome) (h : pieces.flatten = bytes) :
    Runs sha t (some (pieces.foldl sha.update sha.new)) bytes := by
  obtain ⟨expected, hexpected⟩ := Option.isSome_iff_exists.mp ht
  unfold Runs
  rw [hexpected, foldl_update, h, Option.map_some]

theorem arm_usable {t : Target} {offset offset' : Nat} {hasher hasher' : Option sha.State} {restarted : Bool} {r : Response}
    {total : Option Nat} (h : arm sha t offset hasher restarted r = .usable offset' hasher' total) :
    200 ≤ r.status ∧ r.status < 300 ∧
      (offset' = offset ∧ hasher' = hasher ∧
          (r.status = 206 → ∃ n, r.contentRange.bind parseContentRange = some (offset, n)) ∧ (r.status = 200 → offset = 0) ∨
        r.status = 200 ∧ offset' = 0 ∧ hasher' = if t.sha256.isSome then some sha.new else hasher) := by
  unfold arm at h
  split at h
  · rename_i hstatus
    split at h
    · rename_i start n hrange
      split at h
      · rename_i hstart
        subst hstart
        injection h with hoffset hhasher
        exact ⟨by omega, by omega, .inl ⟨hoffset.symm, hhasher.symm, fun _ => ⟨n, hrange⟩, by omega⟩⟩
      · exact nomatch h
    · exact nomatch h
  · rename_i hpartial
    split at h
    · rename_i hok
      split at h
      · injection h with hoffset hhasher
        exact ⟨by omega, by omega, .inr ⟨hok, hoffset.symm, hhasher.symm⟩⟩
      · injection h with hoffset hhasher
        exact ⟨by omega, by omega, .inl ⟨hoffset.symm, hhasher.symm, fun hp => absurd hp hpartial, fun _ => by omega⟩⟩
    · rename_i hother
      split at h
      · exact nomatch h
      · split at h
        · rename_i hrange
          injection h with hoffset hhasher
          exact ⟨hrange.1, hrange.2, .inl ⟨hoffset.symm, hhasher.symm, fun hp => absurd hp hpartial, fun hok => absurd hok hother⟩⟩
        · exact nomatch h

/-! ## The invariant -/

/-- What is known in each phase. -/
def Fits (sha : Sha256) (partialFile : Option Bytes) (requests : List Request) : Phase sha.State → Prop
  | .idle _ => requests.length ≤ 2
  | .hashing t offset => t.sha256.isSome ∧ (partialFile.getD []).length = offset ∧ requests.length = 0
  | .requesting t offset hasher restarted =>
    Runs sha t hasher ((partialFile.getD []).take offset) ∧ (offset = 0 ∨ (partialFile.getD []).length = offset) ∧
      requests.length = if restarted then 2 else 1
  | .removing t hasher => Runs sha t hasher [] ∧ requests.length = 1
  | .opening t offset hasher _ _ =>
    Runs sha t hasher ((partialFile.getD []).take offset) ∧ (offset = 0 ∨ (partialFile.getD []).length = offset) ∧ requests.length ≤ 2
  | .receiving t hasher _ downloaded _ pending _ =>
    Runs sha t hasher (partialFile.getD [] ++ pending) ∧ (partialFile.getD [] ++ pending).length = downloaded ∧ requests.length ≤ 2
  | .verifying t hasher _ downloaded =>
    Runs sha t hasher (partialFile.getD []) ∧ partialFile.isSome ∧ (partialFile.getD []).length = downloaded ∧ requests.length ≤ 2
  | .discarding .. => requests.length ≤ 2
  | .verified t total => Accepts sha t total (partialFile.getD []) ∧ partialFile.isSome ∧ requests.length ≤ 2

structure State.Inv (s : State sha.State) : Prop where
  fits : Fits sha s.partialFile s.requests s.phase
  accepted : ∀ bytes ∈ s.finalFile, ∃ t total, s.accepted = some (t, total) ∧ Accepts sha t total bytes

theorem Fits.requests {partialFile : Option Bytes} {requests : List Request} {phase : Phase sha.State}
    (h : Fits sha partialFile requests phase) : requests.length ≤ 2 := by
  cases phase with
  | idle | discarding => exact h
  | hashing t offset => exact h.2.2.le.trans (Nat.zero_le 2)
  | requesting t offset hasher restarted =>
    rw [h.2.2]
    cases restarted <;> decide
  | removing t hasher => exact h.2.le.trans (by decide)
  | opening | receiving | verified => exact h.2.2
  | verifying => exact h.2.2.2

namespace State

theorem Inv.send {s : State sha.State} (haccepted : ∀ bytes ∈ s.finalFile, ∃ t total, s.accepted = some (t, total) ∧ Accepts sha t total bytes)
    {t : Target} {offset : Nat} {hasher : Option sha.State} (hruns : Runs sha t hasher (s.bytes.take offset))
    (hoffset : offset = 0 ∨ s.bytes.length = offset) (restarted : Bool) (hrequests : s.requests.length = if restarted then 1 else 0) :
    (s.send t offset hasher restarted).Inv := by
  refine ⟨⟨hruns, hoffset, ?_⟩, haccepted⟩
  change (s.requests ++ [request t offset]).length = _
  rw [List.length_append, hrequests]
  cases restarted <;> rfl

theorem Inv.prepare {s : State sha.State}
    (haccepted : ∀ bytes ∈ s.finalFile, ∃ t total, s.accepted = some (t, total) ∧ Accepts sha t total bytes)
    (hrequests : s.requests.length = 0) (t : Target) {offset : Nat} (hoffset : offset = 0 ∨ s.bytes.length = offset) :
    (if offset > 0 ∧ t.sha256.isSome then s.moveTo (.hashing t offset) else s.send t offset (fresh sha t) false).Inv := by
  split
  · rename_i hhash
    exact ⟨⟨hhash.2, hoffset.resolve_left (Nat.ne_of_gt hhash.1), hrequests⟩, haccepted⟩
  · rename_i hhash
    refine Inv.send haccepted ?_ hoffset false hrequests
    by_cases ht : t.sha256.isSome
    · obtain rfl : offset = 0 := by
        by_contra hne
        exact hhash ⟨Nat.pos_of_ne_zero hne, ht⟩
      exact runs_fresh t
    · have hnone : t.sha256 = none := Option.not_isSome_iff_eq_none.mp ht
      unfold Runs fresh
      rw [hnone, Option.map_none, Option.map_none]

theorem Inv.step {s : State sha.State} (hs : s.Inv) (event : Event) : (s.step sha event).Inv := by
  have hfits := hs.fits
  cases event with
  | start t visible =>
    rw [State.step]
    split
    · rename_i last hphase
      rw [hphase] at hfits
      split
      · exact ⟨hfits, hs.accepted⟩
      · refine Inv.prepare (s := { s with requests := [], reports := [] }) hs.accepted rfl t ?_
        cases visible with
        | true => exact .inr rfl
        | false => exact .inl rfl
    · exact hs
  | hashed pieces =>
    rw [State.step]
    split
    · rename_i t offset hphase
      rw [hphase] at hfits
      obtain ⟨ht, hoffset, hrequests⟩ := hfits
      split
      · rename_i hpieces
        refine Inv.send hs.accepted ?_ (.inr hoffset) false hrequests
        have htake : s.bytes.take offset = s.bytes := List.take_of_length_le hoffset.le
        rw [htake]
        exact runs_hashed ht hpieces
      · exact hs
    · exact hs
  | answer r read =>
    rw [State.step]
    split
    · rename_i t offset hasher restarted hphase
      rw [hphase] at hfits
      have hrequests := hfits.requests
      obtain ⟨hruns, hoffset, hcount⟩ := hfits
      split
      · rename_i offset' hasher' total harm
        obtain ⟨-, -, ⟨rfl, rfl, -, -⟩ | ⟨-, rfl, rfl⟩⟩ := arm_usable harm
        · exact ⟨⟨hruns, hoffset, hrequests⟩, hs.accepted⟩
        · exact ⟨⟨runs_renewed hruns, .inl rfl, hrequests⟩, hs.accepted⟩
      · split
        · exact ⟨hrequests, hs.accepted⟩
        · rename_i hrestarted
          rw [if_neg hrestarted] at hcount
          exact ⟨⟨runs_renewed hruns, hcount⟩, hs.accepted⟩
      · exact ⟨hrequests, hs.accepted⟩
    · exact hs
  | removed =>
    rw [State.step]
    split
    · rename_i t hasher hphase
      rw [hphase] at hfits
      exact Inv.send (s := { s with partialFile := none }) hs.accepted hfits.1 (.inl rfl) true hfits.2
    · exact hs
  | opened =>
    rw [State.step]
    split
    · rename_i t offset hasher total body hphase
      rw [hphase] at hfits
      obtain ⟨hruns, hoffset, hrequests⟩ := hfits
      split
      · rename_i hresumes
        have hlength : (s.partialFile.getD []).length = offset := hoffset.resolve_left (by omega)
        rw [List.take_of_length_le hlength.le, ← List.append_nil (s.partialFile.getD [])] at hruns
        refine ⟨⟨hruns, ?_, hrequests⟩, hs.accepted⟩
        rw [List.append_nil]
        exact hlength
      · rename_i hanew
        obtain rfl : offset = 0 := by omega
        exact ⟨⟨hruns, rfl, hrequests⟩, hs.accepted⟩
    · exact hs
  | chunk n =>
    rw [State.step]
    split
    · rename_i t hasher total downloaded lastReported pending rest hphase
      rw [hphase] at hfits
      obtain ⟨hruns, hlength, hrequests⟩ := hfits
      have hnext : Fits sha s.partialFile s.requests (.receiving t (hasher.map (sha.update · (rest.take n))) total
          (downloaded + (rest.take n).length) lastReported (pending ++ rest.take n) (rest.drop n)) := by
        refine ⟨?_, ?_, hrequests⟩
        · rw [← List.append_assoc]
          exact hruns.chunk _
        · rw [← List.append_assoc, List.length_append, hlength]
      dsimp only
      split
      · exact ⟨hnext, hs.accepted⟩
      · exact ⟨hnext, hs.accepted⟩
    · exact hs
  | settle n =>
    rw [State.step]
    split
    · rename_i t hasher total downloaded lastReported pending rest hphase
      rw [hphase] at hfits
      refine ⟨?_, hs.accepted⟩
      have hsplit : s.bytes ++ pending.take n ++ pending.drop n = s.bytes ++ pending := by
        rw [List.append_assoc, List.take_append_drop]
      change Runs sha t hasher (s.bytes ++ pending.take n ++ pending.drop n) ∧
        (s.bytes ++ pending.take n ++ pending.drop n).length = downloaded ∧ s.requests.length ≤ 2
      rw [hsplit]
      exact hfits
    · exact hs
  | complete =>
    rw [State.step]
    split
    · rename_i t hasher total downloaded lastReported pending hphase
      rw [hphase] at hfits
      exact ⟨⟨hfits.1, rfl, hfits.2.1, hfits.2.2⟩, hs.accepted⟩
    · exact hs
  | verify =>
    rw [State.step]
    split
    · rename_i t hasher total downloaded hphase
      rw [hphase] at hfits
      obtain ⟨hruns, hsome, hlength, hrequests⟩ := hfits
      split
      · exact ⟨hrequests, hs.accepted⟩
      · rename_i htotal
        have hannounced : ∀ n ∈ total, (s.partialFile.getD []).length = n := by
          intro n hn
          rw [hlength]
          simpa using Option.filter_eq_none_iff.mp htotal n hn
        split
        · rename_i expected hash hexpected
          have hhash := hruns.eq
          dsimp only
          split
          · exact ⟨hrequests, hs.accepted⟩
          · rename_i hdigest
            refine ⟨⟨⟨hannounced, ?_⟩, hsome, hrequests⟩, hs.accepted⟩
            intro e he
            obtain rfl : expected = e := Option.some.inj (hexpected.symm.trans he)
            exact hhash ▸ not_not.mp hdigest
        · rename_i hunchecked
          refine ⟨⟨⟨hannounced, ?_⟩, hsome, hrequests⟩, hs.accepted⟩
          intro e he
          unfold Runs at hruns
          rw [he] at hruns
          exact absurd hruns (hunchecked e _ he)
    · exact hs
  | discard removed =>
    rw [State.step]
    split
    · rename_i t expected got hphase
      rw [hphase] at hfits
      exact ⟨hfits, hs.accepted⟩
    · exact hs
  | renamed =>
    rw [State.step]
    split
    · rename_i t total hphase
      rw [hphase] at hfits
      obtain ⟨haccepts, hsome, hrequests⟩ := hfits
      refine ⟨hrequests, ?_⟩
      intro bytes hbytes
      rw [show s.partialFile = some bytes from hbytes] at haccepts
      exact ⟨t, total, rfl, haccepts⟩
    · exact hs
  | stop fault =>
    have hrequests := hfits.requests
    rw [State.step.eq_def]
    dsimp only
    split
    · exact hs
    · exact ⟨hrequests, hs.accepted⟩
    · exact hs
    · exact ⟨hrequests, hs.accepted⟩
    · exact hs
    · exact ⟨hrequests, hs.accepted⟩

theorem Inv.sound {s : State sha.State} (hs : s.Inv) : s.Sound where
  hash hasher counted h := by
    have hfits := hs.fits
    unfold State.counted at h
    split at h
    · rename_i hphase
      rw [hphase] at hfits
      obtain ⟨rfl, rfl⟩ := Prod.mk.inj (Option.some.inj h)
      exact hfits.1.eq
    · rename_i hphase
      rw [hphase] at hfits
      obtain ⟨rfl, rfl⟩ := Prod.mk.inj (Option.some.inj h)
      exact hfits.1.eq
    · rename_i hphase
      rw [hphase] at hfits
      obtain ⟨rfl, rfl⟩ := Prod.mk.inj (Option.some.inj h)
      exact hfits.1.eq
    · rename_i hphase
      rw [hphase] at hfits
      obtain ⟨rfl, rfl⟩ := Prod.mk.inj (Option.some.inj h)
      exact hfits.1.eq
    · rename_i hphase
      rw [hphase] at hfits
      obtain ⟨rfl, rfl⟩ := Prod.mk.inj (Option.some.inj h)
      exact hfits.1.eq
    · exact nomatch h
  whole t offset hasher total body hphase := by
    have hfits := hs.fits
    rw [hphase] at hfits
    exact hfits.2.1
  accepted := hs.accepted
  requests := hs.fits.requests

/-! ## Wrong digests -/

theorem discards_prepare (s : State sha.State) (t : Target) (offset : Nat) :
    (if offset > 0 ∧ t.sha256.isSome then s.moveTo (.hashing t offset) else s.send t offset (fresh sha t) false).Discards := by
  split
  · exact fun _ _ h => nomatch h
  · exact fun _ _ h => nomatch h

theorem Discards.step {s : State sha.State} (hs : s.Discards) (event : Event) (hremoves : Removes s event) : (s.step sha event).Discards := by
  cases event with
  | start t visible =>
    rw [State.step]
    split
    · split
      · exact fun _ _ h => nomatch h
      · exact discards_prepare _ t _
    · exact hs
  | hashed pieces =>
    rw [State.step]
    split
    · split
      · exact fun _ _ h => nomatch h
      · exact hs
    · exact hs
  | answer r read =>
    rw [State.step]
    split
    · split
      · exact fun _ _ h => nomatch h
      · split
        · exact fun _ _ h => nomatch h
        · exact fun _ _ h => nomatch h
      · exact fun _ _ h => nomatch h
    · exact hs
  | removed | opened | settle | renamed =>
    rw [State.step]
    split
    · exact fun _ _ h => nomatch h
    · exact hs
  | chunk n =>
    rw [State.step]
    split
    · dsimp only
      split
      · exact fun _ _ h => nomatch h
      · exact fun _ _ h => nomatch h
    · exact hs
  | complete =>
    rw [State.step]
    split
    · exact fun _ _ h => nomatch h
    · exact hs
  | verify =>
    rw [State.step]
    split
    · split
      · exact fun _ _ h => nomatch h
      · split
        · dsimp only
          split
          · exact fun _ _ h => nomatch h
          · exact fun _ _ h => nomatch h
        · exact fun _ _ h => nomatch h
    · exact hs
  | discard removed =>
    obtain rfl : removed = true := hremoves
    rw [State.step]
    split
    · exact fun _ _ _ => rfl
    · exact hs
  | stop fault =>
    rw [State.step.eq_def]
    dsimp only
    split
    · exact hs
    · exact fun _ _ h => nomatch h
    · exact hs
    · exact fun _ _ h => nomatch h
    · exact hs
    · exact fun _ _ h => absurd (Phase.idle.inj h) (Fault.last_ne _ _ _)

/-! ## The server's file -/

/-- What the partial file has of the server's, in each phase. -/
def Follows (file bytes : Bytes) : Phase sha.State → Prop
  | .opening _ offset _ _ body => bytes <+: file ∧ bytes.take offset ++ body = file
  | .receiving _ _ _ _ _ pending rest => bytes ++ pending ++ rest = file
  | .verifying .. => bytes = file
  | .verified .. => bytes = file
  | _ => bytes <+: file

theorem Follows.isPrefix {file bytes : Bytes} {phase : Phase sha.State} (h : Follows file bytes phase) : bytes <+: file := by
  cases phase with
  | idle | hashing | requesting | removing | discarding => exact h
  | opening => exact h.1
  | receiving t hasher total downloaded lastReported pending rest =>
    rw [← show bytes ++ pending ++ rest = file from h, List.append_assoc]
    exact List.prefix_append _ _
  | verifying | verified => exact (show bytes = file from h) ▸ List.prefix_rfl

theorem follows_arm {file bytes : Bytes} {t : Target} {offset offset' : Nat} {hasher hasher' : Option sha.State} {restarted : Bool}
    {r : Response} {total : Option Nat} (hfile : bytes <+: file) (hoffset : offset = 0 ∨ bytes.length = offset)
    (htruthful : if r.status = 206 then
        match r.contentRange.bind parseContentRange with
        | some (start, _) => r.body = file.drop start
        | none => True
      else 200 ≤ r.status ∧ r.status < 300 → r.body = file)
    (hresumes : offset > 0 → 200 ≤ r.status → r.status < 300 → r.status = 200 ∨ r.status = 206)
    (harm : arm sha t offset hasher restarted r = .usable offset' hasher' total) : bytes.take offset' ++ r.body = file := by
  obtain ⟨hlow, hhigh, ⟨rfl, -, hrange, hok⟩ | ⟨hok, rfl, -⟩⟩ := arm_usable harm
  · by_cases hpartial : r.status = 206
    · obtain ⟨n, hrange⟩ := hrange hpartial
      rw [if_pos hpartial, hrange] at htruthful
      have htake : bytes.take offset' = file.take offset' := by
        obtain rfl | hlength := hoffset
        · rfl
        · rw [List.take_of_length_le hlength.le, ← hlength]
          exact List.prefix_iff_eq_take.mp hfile
      rw [show r.body = file.drop offset' from htruthful, htake, List.take_append_drop]
    · rw [if_neg hpartial] at htruthful
      have hzero : offset' = 0 := by
        by_contra hne
        have hstatus := hresumes (Nat.pos_of_ne_zero hne) hlow hhigh
        exact hne (hok (hstatus.resolve_right hpartial))
      rw [hzero, List.take_zero, List.nil_append]
      exact htruthful ⟨hlow, hhigh⟩
  · rw [if_neg (by omega)] at htruthful
    rw [List.take_zero, List.nil_append]
    exact htruthful ⟨hlow, hhigh⟩

/-- The partial file is the beginning of the server's, and the final file is the server's. -/
structure Traces (file : Bytes) (s : State sha.State) : Prop where
  inv : s.Inv
  follows : Follows file s.bytes s.phase
  genuine : s.Genuine file

theorem follows_prepare {file : Bytes} {s : State sha.State} (h : s.bytes <+: file) (t : Target) (offset : Nat) {next : State sha.State}
    (hnext : next = if offset > 0 ∧ t.sha256.isSome then s.moveTo (.hashing t offset) else s.send t offset (fresh sha t) false) :
    Follows file next.bytes next.phase := by
  subst hnext
  split
  · exact h
  · exact h

theorem finalFile_step (s : State sha.State) (event : Event) (h : event ≠ .renamed) : (s.step sha event).finalFile = s.finalFile := by
  cases event with
  | renamed => exact absurd rfl h
  | start t visible =>
    rw [State.step]
    split
    · split
      · rfl
      · dsimp only
        generalize (if visible then _ else 0) = offset
        split <;> rfl
    · rfl
  | _ =>
    rw [State.step.eq_def]
    dsimp only
    repeat' split
    all_goals rfl

theorem Traces.step {file : Bytes} {s : State sha.State} (hs : Traces file s) (event : Event) (htruthful : Truthful file s event)
    (hresumes : Resumes s event) : Traces file (s.step sha event) := by
  have hfits := hs.inv.fits
  have hfollows := hs.follows
  have hbegins := hs.follows.isPrefix
  refine ⟨hs.inv.step event, ?_, ?_⟩
  · cases event with
    | start t visible =>
      rw [State.step]
      split
      · split
        · exact hbegins
        · exact follows_prepare (s := { s with requests := [], reports := [] }) hbegins t (if visible then s.bytes.length else 0) rfl
      · exact hfollows
    | hashed pieces =>
      rw [State.step]
      split
      · split
        · exact hbegins
        · exact hfollows
      · exact hfollows
    | answer r read =>
      rw [State.step]
      split
      · rename_i t offset hasher restarted hphase
        rw [hphase] at hfits
        unfold Resumes at hresumes
        rw [hphase] at hresumes
        split
        · rename_i offset' hasher' total harm
          exact ⟨hbegins, follows_arm hbegins hfits.2.1 htruthful hresumes harm⟩
        · split
          · exact hbegins
          · exact hbegins
        · exact hbegins
      · exact hfollows
    | removed =>
      rw [State.step]
      split
      · exact List.nil_prefix
      · exact hfollows
    | opened =>
      rw [State.step]
      split
      · rename_i t offset hasher total body hphase
        rw [hphase] at hfits hfollows
        split
        · rename_i hresumes
          have hlength : s.bytes.length = offset := hfits.2.1.resolve_left (by omega)
          have hfile := hfollows.2
          rw [List.take_of_length_le hlength.le] at hfile
          change s.bytes ++ [] ++ body = file
          rw [List.append_nil]
          exact hfile
        · rename_i hanew
          obtain rfl : offset = 0 := by omega
          exact hfollows.2
      · exact hfollows
    | chunk n =>
      rw [State.step]
      split
      · rename_i t hasher total downloaded lastReported pending rest hphase
        rw [hphase] at hfollows
        have hnext : s.bytes ++ (pending ++ rest.take n) ++ rest.drop n = file := by
          rw [← List.append_assoc, List.append_assoc (s.bytes ++ pending), List.take_append_drop]
          exact hfollows
        dsimp only
        split
        · exact hnext
        · exact hnext
      · exact hfollows
    | settle n =>
      rw [State.step]
      split
      · rename_i t hasher total downloaded lastReported pending rest hphase
        rw [hphase] at hfollows
        change s.bytes ++ pending.take n ++ pending.drop n ++ rest = file
        rw [List.append_assoc s.bytes, List.take_append_drop]
        exact hfollows
      · exact hfollows
    | complete =>
      rw [State.step]
      split
      · rename_i t hasher total downloaded lastReported pending hphase
        rw [hphase] at hfollows
        change s.bytes ++ pending = file
        rw [← List.append_nil (s.bytes ++ pending)]
        exact hfollows
      · exact hfollows
    | verify =>
      rw [State.step]
      split
      · rename_i t hasher total downloaded hphase
        rw [hphase] at hfollows
        split
        · exact hbegins
        · split
          · dsimp only
            split
            · exact hbegins
            · exact hfollows
          · exact hfollows
      · exact hfollows
    | discard removed =>
      rw [State.step]
      split
      · cases removed with
        | true => exact List.nil_prefix
        | false => exact hbegins
      · exact hfollows
    | renamed =>
      rw [State.step]
      split
      · exact List.nil_prefix
      · exact hfollows
    | stop fault =>
      rw [State.step.eq_def]
      dsimp only
      split
      · exact hfollows
      · exact hbegins
      · exact hfollows
      · exact hbegins
      · exact hfollows
      · exact hbegins
  · by_cases hrenamed : event = .renamed
    · subst hrenamed
      rw [State.step]
      split
      · rename_i t total hphase
        rw [hphase] at hfollows
        intro bytes hbytes
        rw [← show s.bytes = file from hfollows]
        unfold State.bytes
        rw [show s.partialFile = some bytes from hbytes, Option.getD_some]
      · exact hs.genuine
    · unfold Genuine
      rw [finalFile_step s event hrenamed]
      exact hs.genuine

theorem inv_init (partialFile : Option Bytes) : (init sha partialFile).Inv := ⟨Nat.zero_le 2, fun _ h => nomatch h⟩

theorem discards_init {partialFile : Option Bytes} : (init sha partialFile).Discards := by
  intro endpoint message h
  exact nomatch Phase.idle.inj h

theorem traces_init {file : Bytes} {partialFile : Option Bytes} (h : ∀ bytes ∈ partialFile, bytes <+: file) :
    Traces file (init sha partialFile) := by
  refine ⟨inv_init partialFile, ?_, fun _ h => nomatch h⟩
  cases partialFile with
  | none => exact List.nil_prefix
  | some bytes => exact h bytes rfl

/-- **In every run of attempts**, from whatever partial file: the hash that runs is that of the bytes that are counted, the final file is as
announced and as expected, and an attempt sends two requests at most; a file with a wrong digest is removed, where the file system
removes it; and if the server's answers are made of the file's bytes, the final file is the server's, where no 2xx but 200 and 206
answers a request for the rest. -/
theorem downloads_sound (sha : Sha256) (partialFile : Option Bytes) (events : List Event) :
    Throughout (step sha) Sound (init sha partialFile) events ∧
      (Along (step sha) Removes (init sha partialFile) events → Throughout (step sha) Discards (init sha partialFile) events) ∧
      ∀ file : Bytes, (∀ bytes ∈ partialFile, bytes <+: file) →
        Along (step sha) (fun s event => Truthful file s event ∧ Resumes s event) (init sha partialFile) events →
        Throughout (step sha) (Genuine file) (init sha partialFile) events := by
  refine ⟨?_, fun hremoves => ?_, fun file hpartial hanswers => ?_⟩
  · have hinv : Throughout (step sha) Inv (init sha partialFile) events :=
      throughout_invariant (fun _ event hs => hs.step event) (inv_init partialFile) events
    exact hinv.imp fun _ hs => hs.sound
  · exact throughout_induction (I := Discards) (fun _ event h hs => Discards.step hs event h) discards_init hremoves
  · have htraces := throughout_induction (I := Traces file) (P := fun s event => Truthful file s event ∧ Resumes s event)
      (fun _ event h hs => Traces.step hs event h.1 h.2) (traces_init hpartial) hanswers
    exact htraces.imp fun _ hs => hs.genuine

/-! ## Another 2xx -/

def plainHash : Sha256 := ⟨Bytes, [], (· ++ ·), id, List.append_nil, fun _ _ _ => (List.append_assoc ..).symm⟩

def model : Target := ⟨"https://huggingface.co/m/resolve/main/f", "f", none, none⟩

/-- One byte arrives, and the attempt is cut off; the next one asks for the rest, and gets the whole file with status 203. -/
def resumedBy203 : List Event :=
  [.start model true, .answer ⟨200, none, some 2, [1, 2]⟩ 0, .opened, .chunk 1, .settle 1, .stop .interrupted,
    .start model true, .answer ⟨203, none, some 2, [1, 2]⟩ 0, .opened, .chunk 2, .complete, .verify, .renamed]

theorem resumed_by_another_2xx :
    Along (step plainHash) (fun s event => Truthful [1, 2] s event) (init plainHash none) resumedBy203 ∧
      ¬ Throughout (step plainHash) (Genuine [1, 2]) (init plainHash none) resumedBy203 := by
  refine ⟨by simp [Along, Truthful, resumedBy203], fun h => ?_⟩
  have hfinal : (run (step plainHash) (init plainHash none) resumedBy203).finalFile = some [1, 1, 2] := rfl
  exact absurd (h.last _ hfinal) (by decide)

end State

end Cuca.Download
