import Cuca.Sse.Chunks

/-!
# The frames a chunk completes

A call of `feed_chunk` parses the groups of lines its chunk completes, all of them or up to the first that is refused
(`feedChunk_eq_ok`, `feedChunk_eq_error`). Over a list of chunks the groups of the stream are cut into batches.

* `batches` : the groups each chunk completes;
* `batches_flatten` : together they are the groups of the stream;
* `batches_bytes` : a chunk of one byte completes one group at most.
-/

namespace Cuca.Sse
open Delimited

theorem feedLoop_refused (fuel : Nat) : ∀ (seen : List Line) (after : List UInt8) (last : Option String) (events : List SseEvent)
    (before : List (List Line)) (evs : List SseEvent),
    (∀ l ∈ seen, isBlank l = false) → (∀ l ∈ seen, ∀ x ∈ l, isNewline x = false) → after.length ≤ fuel →
    ∀ {bad : List Line} {later : List (List Line)} {mid : Option String} {e : CucaError},
    complete isBlank (seen ++ completeLines after) = before ++ bad :: later →
    parseGroups last before = .ok (evs, mid) → parseGroup mid bad = .error e →
    ∃ rest, SseStreamParser.feedLoop fuel ⟨unlines newline seen ++ after, last⟩ (unlines newline seen).length events =
      (.error e, ⟨rest, mid⟩) ∧ frames rest = bad :: later ∧ (before = [] → rest = unlines newline seen ++ after) := by
  induction fuel with
  | zero =>
    intro seen after last events before evs hblank hfree hfuel bad later mid e hgroups hparse hbad
    obtain rfl : after = [] := List.length_eq_zero_iff.mp (Nat.le_zero.mp hfuel)
    simp [completeLines, complete_nil, complete_of_forall isBlank hblank] at hgroups
  | succ fuel ih =>
    intro seen after last events before evs hblank hfree hfuel bad later mid e hgroups hparse hbad
    rcases opened_or_ended isNewline after with hopen | ⟨line, sep, rest, hline, hsep, rfl⟩
    · have hlines : completeLines after = [] := complete_of_forall isNewline hopen
      rw [hlines, List.append_nil, complete_of_forall isBlank hblank] at hgroups
      simp at hgroups
    · obtain rfl := eq_newline hsep
      have hlines : completeLines (line ++ newline :: rest) = line :: completeLines rest :=
        complete_cons_section isNewline hline hsep rest
      have hlen : rest.length ≤ fuel := by simp at hfuel; omega
      rw [SseStreamParser.feedLoop]
      simp only [List.drop_left, memchr_section hline, List.take_left]
      rw [hlines] at hgroups
      cases hb : isBlank line with
      | true =>
        have hwhole : frames (unlines newline seen ++ (line ++ newline :: rest)) = before ++ bad :: later := by
          rw [← hgroups, frames, completeLines, complete_unlines (by rfl) _ hfree]
          exact congrArg (fun lines => complete isBlank (seen ++ lines)) hlines
        rw [complete_cons_section isBlank hblank hb] at hgroups
        rw [if_pos rfl, parseFrame_unlines last hfree]
        cases before with
        | nil =>
          -- it is refused here, and the buffer is as it was
          obtain ⟨rfl, -⟩ := List.cons.inj hgroups
          simp only [parseGroups, Except.ok.injEq, Prod.mk.injEq] at hparse
          obtain ⟨-, rfl⟩ := hparse
          rw [hbad]
          exact ⟨_, rfl, hwhole, fun _ => rfl⟩
        | cons group before =>
          obtain ⟨rfl, hrest⟩ := List.cons.inj hgroups
          rw [parseGroups] at hparse
          cases hg : parseGroup last seen with
          | error e' => simp [hg] at hparse
          | ok r =>
            obtain ⟨ev, frameId⟩ := r
            simp only [hg] at hparse ⊢
            cases hgs : parseGroups (frameId.or last) before with
            | error e' => simp [hgs] at hparse
            | ok r =>
              simp only [hgs, Except.ok.injEq, Prod.mk.injEq] at hparse
              obtain ⟨-, rfl⟩ := hparse
              have hdrop : (unlines newline seen ++ (line ++ newline :: rest)).drop
                  ((unlines newline seen).length + line.length + 1) = rest := by
                rw [show unlines newline seen ++ (line ++ newline :: rest)
                  = (unlines newline seen ++ line ++ [newline]) ++ rest by simp]
                exact List.drop_left' (by simp [Nat.add_assoc])
              obtain ⟨kept, hloop, hkept, -⟩ := ih [] rest (frameId.or last) (events ++ [ev]) before r.1 (by simp) (by simp) hlen
                (by simpa using hrest) hgs hbad
              simp only [unlines_nil, List.nil_append, List.length_nil] at hloop
              rw [hdrop]
              exact ⟨kept, hloop, hkept, fun h => by cases h⟩
      | false =>
        obtain ⟨kept, hloop, hkept, hsame⟩ := ih (seen ++ [line]) rest last events before evs
          (by simpa [or_imp, forall_and] using ⟨hblank, hb⟩)
          (by simpa [or_imp, forall_and] using ⟨hfree, hline⟩) hlen (by simpa using hgroups) hparse hbad
        refine ⟨kept, ?_, hkept, fun h => ?_⟩
        · simpa [Nat.add_assoc] using hloop
        · simpa using hsame h

theorem feedChunk_refused {buffer chunk : List UInt8} {last mid : Option String} {before : List (List Line)} {bad : List Line}
    {later : List (List Line)} {evs : List SseEvent} {e : CucaError} (hgroups : frames (buffer ++ chunk) = before ++ bad :: later)
    (hparse : parseGroups last before = .ok (evs, mid)) (hbad : parseGroup mid bad = .error e) :
    ∃ rest, (SseStreamParser.mk buffer last).feedChunk chunk = (.error e, ⟨rest, mid⟩) ∧ frames rest = bad :: later ∧
      (before = [] → rest = buffer ++ chunk) := by
  have hspec := feedLoop_refused (buffer ++ chunk).length [] (buffer ++ chunk) last [] before evs (by simp) (by simp) (Nat.le_refl _)
    hgroups hparse hbad
  simpa [SseStreamParser.feedChunk] using hspec

theorem parseGroups_refused {groups : List (List Line)} : ∀ {last : Option String} {e : CucaError}, parseGroups last groups = .error e →
    ∃ before bad later evs mid, groups = before ++ bad :: later ∧ parseGroups last before = .ok (evs, mid) ∧ parseGroup mid bad = .error e := by
  induction groups with
  | nil => exact fun h => nomatch h
  | cons group groups ih =>
    intro last e h
    unfold parseGroups at h
    cases hparse : parseGroup last group with
    | error e' =>
      simp only [hparse, Except.error.injEq] at h
      exact ⟨[], group, groups, [], last, rfl, rfl, h ▸ hparse⟩
    | ok parsed =>
      cases hrest : parseGroups (parsed.2.or last) groups with
      | error e' =>
        simp only [hparse, hrest, Except.error.injEq] at h
        obtain ⟨before, bad, later, evs, mid, rfl, hbefore, hbad⟩ := ih (h ▸ hrest)
        exact ⟨group :: before, bad, later, parsed.1 :: evs, mid, rfl, by simp only [parseGroups, hparse, hbefore], hbad⟩
      | ok more => simp [hparse, hrest] at h

theorem feedChunk_error {buffer chunk : List UInt8} {last : Option String} {e : CucaError}
    (h : parseGroups last (frames (buffer ++ chunk)) = .error e) :
    ((SseStreamParser.mk buffer last).feedChunk chunk).1 = .error e := by
  obtain ⟨before, bad, later, evs, mid, hgroups, hparse, hbad⟩ := parseGroups_refused h
  obtain ⟨rest, heq, -⟩ := feedChunk_refused hgroups hparse hbad
  rw [heq]

/-! ## Refused frames -/

theorem parseLine_error {f : FrameFields} {line : Line} {e : CucaError} (h : parseLine f line = .error e) :
    ∃ message, e = .sseParse message := by
  unfold parseLine at h
  split at h
  · cases h
  · split_ifs at h <;> split at h <;> cases h <;> exact ⟨_, rfl⟩

theorem foldLines_error (lines : List Line) : ∀ {f : FrameFields} {e : CucaError}, foldLines f lines = .error e →
    ∃ message, e = .sseParse message := by
  induction lines with
  | nil => exact fun h => nomatch h
  | cons line lines ih =>
    intro f e h
    unfold foldLines at h
    cases hline : parseLine f (stripCr line) with
    | error e' =>
      simp only [hline, Except.error.injEq] at h
      exact h ▸ parseLine_error hline
    | ok f' =>
      simp only [hline] at h
      exact ih h

theorem parseGroup_error {last : Option String} {group : List Line} {e : CucaError}
    (h : parseGroup last group = .error e) : ∃ message, e = .sseParse message := by
  unfold parseGroup at h
  cases hfold : foldLines FrameFields.empty group with
  | error e' =>
    simp only [hfold, Except.map, Except.error.injEq] at h
    exact h ▸ foldLines_error group hfold
  | ok f => simp [hfold, Except.map] at h

theorem parseGroups_error (groups : List (List Line)) {last : Option String} {e : CucaError} (h : parseGroups last groups = .error e) :
    ∃ message, e = .sseParse message := by
  obtain ⟨before, bad, later, evs, mid, -, -, hbad⟩ := parseGroups_refused h
  exact parseGroup_error hbad

/-! ## Batches -/

/-- The groups of lines each chunk completes. -/
def batches (buffer : List UInt8) : List (List UInt8) → List (List (List Line))
  | [] => []
  | chunk :: chunks => frames (buffer ++ chunk) :: batches (retained (buffer ++ chunk)) chunks

theorem batches_flatten (chunks : List (List UInt8)) : ∀ buffer : List UInt8, Settled buffer →
    (batches buffer chunks).flatten = frames (buffer ++ chunks.flatten) := by
  induction chunks with
  | nil =>
    intro buffer h
    rw [List.flatten_nil, List.append_nil, h.1]
    rfl
  | cons chunk chunks ih =>
    intro buffer h
    rw [List.flatten_cons, ← List.append_assoc, frames_append, ← ih _ (settled_retained _)]
    rfl

theorem complete_concat_length {α : Type*} (p : α → Bool) (xs : List α) (x : α) :
    (complete p (xs ++ [x])).length ≤ (complete p xs).length + 1 := by
  rw [complete_append, List.length_append]
  refine Nat.add_le_add_left ?_ _
  cases hx : p x with
  | true =>
    rw [complete_cons_section p (pending_free p xs) hx]
    simp [complete_nil]
  | false =>
    have hfree : ∀ y ∈ pending p xs ++ [x], p y = false := by
      intro y hy
      rcases List.mem_append.mp hy with hold | hnew
      · exact pending_free p xs y hold
      · rw [List.mem_singleton.mp hnew]
        exact hx
    rw [complete_of_forall p hfree]
    exact Nat.zero_le 1

theorem frames_byte {buffer : List UInt8} (h : Settled buffer) (b : UInt8) : (frames (buffer ++ [b])).length ≤ 1 := by
  have hlines : completeLines (buffer ++ [b]) = completeLines buffer ∨
      ∃ line, completeLines (buffer ++ [b]) = completeLines buffer ++ [line] := by
    have hlength := complete_concat_length isNewline buffer b
    unfold completeLines
    rw [complete_append] at hlength ⊢
    rw [List.length_append] at hlength
    match hnew : complete isNewline (pending isNewline buffer ++ [b]) with
    | [] => exact .inl (List.append_nil _)
    | [line] => exact .inr ⟨line, rfl⟩
    | _ :: _ :: _ =>
      rw [hnew] at hlength
      simp at hlength
  have hnone : complete isBlank (completeLines buffer) = [] := h.1
  unfold frames
  rcases hlines with heq | ⟨line, heq⟩ <;> rw [heq]
  · rw [hnone]
    exact Nat.zero_le 1
  · have hone := complete_concat_length isBlank (completeLines buffer) line
    rwa [hnone] at hone

theorem batches_bytes (stream : List UInt8) : ∀ buffer : List UInt8, Settled buffer →
    ∀ batch ∈ batches buffer (stream.map fun b => [b]), batch.length ≤ 1 := by
  induction stream with
  | nil => exact fun _ _ batch h => absurd h List.not_mem_nil
  | cons b stream ih =>
    intro buffer h batch hbatch
    rcases List.mem_cons.mp hbatch with rfl | hrest
    · exact frames_byte h b
    · exact ih _ (settled_retained _) batch hrest

end Cuca.Sse
