import Cuca.Services.VectorStoreRuns
import Cuca.Lib.Ranking

/-!
# Similarity queries

A query scores every entry under its session hint, and returns the best `k`, newer turns first where scores are equal.

* `scan`, `retrieve`, `retrieveIn`, `retrieveEmbedding` : the queries; `none` is a panic;
* `Ordered` : the sequence numbers tell the entries apart; `run_ordered` : they do in every store that is reached;
* `ranking` : the matching entries in the order of their scores, whole;
* `scan_eq` : what a query returns is the first of that; `recalled` : the same of the turns that were accepted.
-/

namespace Cuca.Services.VectorStore
open Arena Ranking Std

structure RetrievedTurn (F : Type) where
  message : UnifiedMessage
  score : F
  sequence : Nat
  sessionHint : String

/-- The hits, and how many entries were scored. -/
structure RetrievalReport (F : Type) where
  turns : List (RetrievedTurn F)
  scanned : Nat

/-- What a query computes with: the product of two vectors, the order of the scores, and the sort. -/
structure Scoring (F : Type) where
  dot : List F → List F → F
  totalCmp : F → F → Ordering
  total : TransCmp totalCmp
  sorting : SliceSort (F × Nat)

/-- Whether an entry is looked at. -/
def hintMatches (sessionHint : Option String) (e : StoredTurn) : Bool :=
  match sessionHint with
  | none => true
  | some hint => e.sessionHint == hint

/-- `&slice[start..start + len]`. -/
def slice {α : Type} (xs : List α) (start len : Nat) : Option (List α) :=
  if start + len ≤ xs.length then some ((xs.drop start).take len) else none

namespace Scoring
variable {F : Type} (c : Scoring F)

def rank (a b : F × Nat) : Ordering := (c.totalCmp b.1 a.1).then (compare b.2 a.2)

end Scoring

namespace InMemoryVectorStore
variable {F : Type} (p : InMemoryVectorStore F) (c : Scoring F)

/-- The score of each entry that matches, with its index. -/
def scoreAll (s : StoreState F) (sessionHint : Option String) (query : List F) :
    Nat → List StoredTurn → Option (List (F × Nat))
  | _, [] => some []
  | index, e :: entries =>
    if hintMatches sessionHint e then
      match slice s.arena (e.slot * p.config.dimensions) p.config.dimensions with
      | none => none
      | some vector => (scoreAll s sessionHint query (index + 1) entries).map ((c.dot query vector, index) :: ·)
    else scoreAll s sessionHint query (index + 1) entries

def hit (s : StoreState F) (scored : F × Nat) : Option (RetrievedTurn F) :=
  (s.entries[scored.2]?).map fun e => ⟨e.message, scored.1, e.sequence, e.sessionHint⟩

/-- Scores the matching entries and ranks the top `k`. -/
def scan (sessionHint : Option String) (query : List F) (k : Nat) (s : StoreState F) : Option (RetrievalReport F) :=
  match p.scoreAll c s sessionHint query 0 s.entries with
  | none => none
  | some scored => (c.sorting.takeFirst c.rank scored k).map fun best => ⟨best.filterMap (hit s), scored.length⟩

def checkK (k : Nat) : Except VectorStoreError Unit := if k = 0 then .error (.config "k must be non-zero") else .ok ()

/-- The vector of a query text; a zero `k` is refused first. -/
def embedQuery (embed : String → Except PluginError (List F)) (query : String) (k : Nat) : Except VectorStoreError (List F) :=
  match checkK k with
  | .error e => .error e
  | .ok () =>
    match embed query with
    | .error e => .error (.embedder e)
    | .ok vector =>
      match p.checkWidth vector.length with
      | .error e => .error e
      | .ok () => .ok vector

/-- Normalises a vector, then scans. -/
def scanNormalized (sessionHint : Option String) (vector : List F) (k : Nat) (s : StoreState F) :
    Option (Except VectorStoreError (RetrievalReport F)) :=
  match p.normalizer.run vector with
  | .error e => some (.error e)
  | .ok (query, _) => (p.scan c sessionHint query k s).map .ok

def retrieve (embed : String → Except PluginError (List F)) (query : String) (k : Nat) (s : StoreState F) :
    Option (Except VectorStoreError (RetrievalReport F)) :=
  match p.embedQuery embed query k with
  | .error e => some (.error e)
  | .ok vector => p.scanNormalized c none vector k s

def retrieveIn (embed : String → Except PluginError (List F)) (sessionHint query : String) (k : Nat) (s : StoreState F) :
    Option (Except VectorStoreError (RetrievalReport F)) :=
  match p.embedQuery embed query k with
  | .error e => some (.error e)
  | .ok vector => p.scanNormalized c (some sessionHint) vector k s

def retrieveEmbedding (sessionHint : Option String) (query : List F) (k : Nat) (s : StoreState F) :
    Option (Except VectorStoreError (RetrievalReport F)) :=
  match checkK k with
  | .error e => some (.error e)
  | .ok () =>
    match p.checkWidth query.length with
    | .error e => some (.error e)
    | .ok () => p.scanNormalized c sessionHint query k s

/-! ## Sequence numbers -/

/-- Later entries have greater sequence numbers, all below the next one. -/
structure Ordered (s : StoreState F) : Prop where
  increasing : s.entries.Pairwise fun a b => a.sequence < b.sequence
  below : ∀ e ∈ s.entries, e.sequence < s.nextSequence

variable {p}

theorem ordered_new : Ordered (StoreState.new F) where
  increasing := List.Pairwise.nil
  below := fun _ h => absurd h List.not_mem_nil

theorem Ordered.push {s t : StoreState F} (h : Ordered s) {kept : List StoredTurn} (hkept : kept.Sublist s.entries)
    {e : StoredTurn} (he : e.sequence = s.nextSequence) (hentries : t.entries = kept ++ [e])
    (hnext : t.nextSequence = s.nextSequence + 1) : Ordered t := by
  constructor
  · rw [hentries, List.pairwise_append]
    refine ⟨h.increasing.sublist hkept, List.pairwise_singleton _ _, fun a ha b hb => ?_⟩
    rw [List.mem_singleton.mp hb, he]
    exact h.below a (hkept.subset ha)
  · intro a ha
    rw [hnext]
    rw [hentries, List.mem_append] at ha
    rcases ha with ha | ha
    · exact Nat.lt_succ_of_lt (h.below a (hkept.subset ha))
    · rw [List.mem_singleton.mp ha, he]
      exact Nat.lt_succ_self _

theorem commitTurn_ordered {s : StoreState F} (h : Ordered s) (hint : String) (vector : List F) (turn : UnifiedMessage)
    (zeroNorm : Bool) : Ordered (p.commitTurn hint vector turn zeroNorm s) := by
  by_cases hfull : s.entries.length ≥ p.config.maxEntries
  · rcases hentries : s.entries with _ | ⟨victim, rest⟩
    · apply h.push (List.nil_sublist s.entries) (e := ⟨turn, s.arena.length / p.config.dimensions, zeroNorm, s.nextSequence, hint⟩) rfl
      · unfold commitTurn
        simp only [hentries, List.tail_nil, List.head?_nil, ite_self]
      · rfl
    · have hkept : rest.Sublist s.entries := hentries ▸ List.sublist_cons_self victim rest
      rw [commitTurn_full hentries hfull]
      exact h.push hkept rfl rfl rfl
  · rw [commitTurn_room hfull]
    exact h.push (List.Sublist.refl s.entries) rfl rfl rfl

theorem commit_ordered {staged : List F} {hint : String} {pending : List (UnifiedMessage × Bool)} {index : Nat}
    {s : StoreState F} (h : Ordered s) : Ordered (p.commit hint staged index pending s) := by
  induction pending generalizing index s with
  | nil => exact h
  | cons first pending ih => exact ih (commitTurn_ordered h hint _ first.1 first.2)

theorem storeTurns_ordered {s : StoreState F} (h : Ordered s) (b : Batch F) : Ordered (p.storeTurns b s).1 := by
  rw [storeTurns]
  split_ifs
  · exact h
  · rcases p.checkSizes b.turns with e | _
    · exact h
    · dsimp only
      rcases p.stage b.embed 0 (b.turns.drop (b.turns.length - p.config.maxEntries)) with e | ⟨staged, pending⟩
      · exact h
      · exact commit_ordered ⟨h.increasing, h.below⟩

/-- **In every store that is reached** the sequence numbers increase. -/
theorem run_ordered (batches : List (Batch F)) : Ordered (p.run batches).1 := by
  induction batches using List.reverseRecOn with
  | nil => exact ordered_new
  | append_singleton batches b ih =>
    rw [run, List.foldl_concat, step]
    have hstep := storeTurns_ordered (p := p) ih b
    split
    · rename_i s hs
      rw [run] at hstep
      rw [hs] at hstep
      exact hstep
    · rename_i s e hs
      rw [run] at hstep
      rw [hs] at hstep
      exact hstep

/-! ## The whole ranking -/

variable (p)

def scoreOf (s : StoreState F) (query : List F) (e : StoredTurn) : F := c.dot query (p.vectorOf s e)

def bestFirst (s : StoreState F) (query : List F) (a b : StoredTurn) : Ordering :=
  (c.totalCmp (p.scoreOf c s query b) (p.scoreOf c s query a)).then (compare b.sequence a.sequence)

def ranking (s : StoreState F) (sessionHint : Option String) (query : List F) : List StoredTurn :=
  sortBy (p.bestFirst c s query) (s.entries.filter (hintMatches sessionHint))

def retrieved (s : StoreState F) (query : List F) (e : StoredTurn) : RetrievedTurn F :=
  ⟨e.message, p.scoreOf c s query e, e.sequence, e.sessionHint⟩

def candidates (s : StoreState F) (sessionHint : Option String) : List (StoredTurn × Nat) :=
  s.entries.zipIdx.filter fun q => hintMatches sessionHint q.1

variable {p c}

theorem scoreAll_eq {s : StoreState F} {live : List (Accepted F)} {count : Nat} (h : p.Keeps s live count)
    (sessionHint : Option String) (query : List F) (entries : List StoredTurn) (hentries : ∀ e ∈ entries, e ∈ s.entries)
    (index : Nat) : p.scoreAll c s sessionHint query index entries =
      some (((entries.zipIdx index).filter fun q => hintMatches sessionHint q.1).map fun q => (p.scoreOf c s query q.1, q.2)) := by
  induction entries generalizing index with
  | nil => rfl
  | cons e entries ih =>
    have hrest := ih (fun a ha => hentries a (List.mem_cons_of_mem _ ha)) (index + 1)
    have hbounds := h.bounds (hentries e List.mem_cons_self)
    rw [scoreAll, List.zipIdx_cons, List.filter_cons]
    by_cases hmatch : hintMatches sessionHint e = true
    · rw [if_pos hmatch, if_pos hmatch, slice, if_pos hbounds, hrest]
      rfl
    · rw [if_neg hmatch, if_neg hmatch, hrest]

theorem mem_candidates {s : StoreState F} {sessionHint : Option String} {q : StoredTurn × Nat}
    (hq : q ∈ candidates s sessionHint) : s.entries[q.2]? = some q.1 :=
  List.mk_mem_zipIdx_iff_getElem?.mp (List.mem_filter.mp hq).1

theorem compare_index {s : StoreState F} (h : Ordered s) {sessionHint : Option String} {a b : StoredTurn × Nat}
    (ha : a ∈ candidates s sessionHint) (hb : b ∈ candidates s sessionHint) :
    compare a.2 b.2 = compare a.1.sequence b.1.sequence := by
  obtain ⟨hi, hai⟩ := List.getElem?_eq_some_iff.mp (mem_candidates ha)
  obtain ⟨hj, hbj⟩ := List.getElem?_eq_some_iff.mp (mem_candidates hb)
  have hincreasing := List.pairwise_iff_getElem.mp h.increasing
  rcases Nat.lt_trichotomy a.2 b.2 with hlt | heq | hgt
  · have hsequence := hincreasing a.2 b.2 hi hj hlt
    rw [hai, hbj] at hsequence
    rw [Nat.compare_eq_lt.mpr hlt, Nat.compare_eq_lt.mpr hsequence]
  · have hentry : a.1 = b.1 := by
      rw [← hai, ← hbj]
      exact getElem_congr_idx heq
    rw [heq, hentry, Nat.compare_eq_eq.mpr rfl, Nat.compare_eq_eq.mpr rfl]
  · have hsequence := hincreasing b.2 a.2 hj hi hgt
    rw [hai, hbj] at hsequence
    rw [Nat.compare_eq_gt.mpr hgt, Nat.compare_eq_gt.mpr hsequence]

instance : TransCmp c.rank := by
  have := c.total
  have hscore : TransCmp fun a b : F × Nat => c.totalCmp b.1 a.1 := transCmp_descending Prod.fst
  have hindex : TransCmp fun a b : F × Nat => compare b.2 a.2 := transCmp_descending Prod.snd
  exact inferInstanceAs (TransCmp (compareLex _ _))

theorem distinguishes (s : StoreState F) (sessionHint : Option String) (query : List F) :
    Distinguishes c.rank ((candidates s sessionHint).map fun q => (p.scoreOf c s query q.1, q.2)) := by
  intro x hx y hy hequal
  obtain ⟨a, ha, rfl⟩ := List.mem_map.mp hx
  obtain ⟨b, hb, rfl⟩ := List.mem_map.mp hy
  have hindex : b.2 = a.2 := Nat.compare_eq_eq.mp (Ordering.then_eq_eq.mp hequal).2
  have hentry := mem_candidates ha
  rw [← hindex, mem_candidates hb] at hentry
  rw [hindex, Option.some.inj hentry]

theorem ranking_eq {s : StoreState F} (h : Ordered s) (sessionHint : Option String) (query : List F) :
    (sortBy (fun a b => c.rank (p.scoreOf c s query a.1, a.2) (p.scoreOf c s query b.1, b.2)) (candidates s sessionHint)).map
      Prod.fst = p.ranking c s sessionHint query := by
  have hfilter : (candidates s sessionHint).map Prod.fst = s.entries.filter (hintMatches sessionHint) := by
    rw [candidates, show (fun q : StoredTurn × Nat => hintMatches sessionHint q.1) = hintMatches sessionHint ∘ Prod.fst from rfl,
      ← List.filter_map, List.zipIdx_map_fst]
  rw [ranking, ← hfilter]
  apply map_sortBy
  intro a ha b hb
  rw [Scoring.rank, bestFirst, compare_index h hb ha]

theorem filterMap_hit {s : StoreState F} {sessionHint : Option String} {query : List F} {best : List (StoredTurn × Nat)}
    (hbest : ∀ q ∈ best, q ∈ candidates s sessionHint) :
    (best.map fun q => (p.scoreOf c s query q.1, q.2)).filterMap (hit s) = (best.map Prod.fst).map (p.retrieved c s query) := by
  induction best with
  | nil => rfl
  | cons q best ih =>
    have hq : hit s (p.scoreOf c s query q.1, q.2) = some (p.retrieved c s query q.1) := by
      rw [hit, mem_candidates (hbest q List.mem_cons_self)]
      rfl
    rw [List.map_cons, List.filterMap_cons_some hq, ih fun a ha => hbest a (List.mem_cons_of_mem _ ha)]
    rfl

/-- **A scan** returns the first `k` of the whole ranking. -/
theorem scan_eq {s : StoreState F} {live : List (Accepted F)} {count : Nat} (hkeeps : p.Keeps s live count) (hordered : Ordered s)
    (sessionHint : Option String) (query : List F) {k : Nat} (hk : k ≠ 0) :
    p.scan c sessionHint query k s = some ⟨((p.ranking c s sessionHint query).take k).map (p.retrieved c s query),
      (s.entries.filter (hintMatches sessionHint)).length⟩ := by
  have hscored := scoreAll_eq (c := c) hkeeps sessionHint query s.entries (fun _ he => he) 0
  have hsort : sortBy c.rank ((candidates s sessionHint).map fun q => (p.scoreOf c s query q.1, q.2)) =
      (sortBy (fun a b => c.rank (p.scoreOf c s query a.1, a.2) (p.scoreOf c s query b.1, b.2)) (candidates s sessionHint)).map
        fun q => (p.scoreOf c s query q.1, q.2) := by
    symm
    apply map_sortBy
    intro _ _ _ _
    rfl
  have hlength : (candidates s sessionHint).length = (s.entries.filter (hintMatches sessionHint)).length := by
    have hranking := congrArg List.length (ranking_eq (c := c) (p := p) hordered sessionHint query)
    rw [List.length_map, length_sortBy, ranking, length_sortBy] at hranking
    exact hranking
  rw [scan, hscored]
  show Option.map _ (c.sorting.takeFirst c.rank ((candidates s sessionHint).map _) k) = _
  rw [c.sorting.takeFirst_eq (distinguishes s sessionHint query) hk, hsort, ← List.map_take, Option.map_some, filterMap_hit,
    List.map_take, ranking_eq hordered]
  · rw [List.length_map, ← hlength]
    rfl
  · intro q hq
    exact (mem_sortBy _).mp (List.mem_of_mem_take hq)

variable (p c) in
/-- The first `k` of the ranking, and how many entries it ranks. -/
def best (s : StoreState F) (sessionHint : Option String) (query : List F) (k : Nat) : RetrievalReport F :=
  ⟨((p.ranking c s sessionHint query).take k).map (p.retrieved c s query), (s.entries.filter (hintMatches sessionHint)).length⟩

/-- **A scan of a store that was reached** returns the first `k` of the matching entries, sorted whole by score, the greatest
first, and by sequence number, the newest first, where scores are equal. -/
theorem scan_run (hvalid : p.config.validate = .ok ()) (batches : List (Batch F)) (sessionHint : Option String) (query : List F)
    (k : Nat) (hk : k ≠ 0) :
    let s := (p.run batches).1
    p.scan c sessionHint query k s = some (p.best c s sessionHint query k) := by
  obtain ⟨hmax, hwidth⟩ := validate_ok hvalid
  exact scan_eq (run_keeps hmax hwidth batches) (run_ordered batches) sessionHint query hk

/-- `1.0` and `0.0` as integers. -/
def integerScoring : Scoring Int where
  dot a b := (List.zipWith (· * ·) a b).sum
  totalCmp := compare
  total := inferInstance
  sorting := SliceSort.whole _

theorem scan_run_best :
    ((roomForTwo.scan integerScoring (some "s") [1] 1 (roomForTwo.run [threeTurns]).1).map fun report =>
      (report.turns.map fun t => (t.score, t.sequence), report.scanned)) = some ([(1, 0)], 2) := by
  rw [scan_run (p := roomForTwo) (c := integerScoring) rfl [threeTurns] (some "s") [1] 1 (by decide)]
  decide

variable (p c) in
/-- What a query recalls of the turns that were accepted. -/
def recalled (log : List (Accepted F)) (sessionHint : Option String) (query : List F) (k : Nat) : List (UnifiedMessage × F × String) :=
  let score (t : Accepted F) := c.dot query (t.given.elim [] Prod.fst)
  let live := (log.rtake p.config.maxEntries).zipIdx.filter fun t => sessionHint.all (t.1.sessionHint == ·)
  ((sortBy (fun a b => c.rank (score a.1, a.2) (score b.1, b.2)) live).take k).map fun t => (t.1.message, score t.1, t.1.sessionHint)

theorem best_eq_recalled {s : StoreState F} {log : List (Accepted F)} {count : Nat}
    (h : p.Keeps s (log.rtake p.config.maxEntries) count) (hordered : Ordered s) (sessionHint : Option String) (query : List F) (k : Nat) :
    (p.best c s sessionHint query k).turns.map (fun t => (t.message, t.score, t.sessionHint)) = p.recalled c log sessionHint query k := by
  have hlive : ((log.rtake p.config.maxEntries).zipIdx.filter fun t => sessionHint.all (t.1.sessionHint == ·)) =
      (candidates s sessionHint).map (Prod.map (p.shown s) id) := by
    rw [← h.shown, List.zipIdx_map, List.filter_map, candidates]
    cases sessionHint <;> rfl
  rw [best, recalled, hlive, ← ranking_eq hordered]
  dsimp only
  rw [← map_sortBy (Prod.map (p.shown s) id) fun _ _ _ _ => rfl]
  simp only [← List.map_take, List.map_map]
  rfl

/-- **What a query recalls**: the best of the newest turns that were accepted, each by the vector that was given for it, and the newest
first where scores are equal. -/
theorem retrieveEmbedding_recalls (hvalid : p.config.validate = .ok ()) (batches : List (Batch F)) (sessionHint : Option String)
    (query : List F) (k : Nat) :
    (p.retrieveEmbedding c sessionHint query k (p.run batches).1).map (Except.map fun report =>
      report.turns.map fun t => (t.message, t.score, t.sessionHint)) = some (do
        checkK k
        p.checkWidth query.length
        let (unit, _) ← p.normalizer.run query
        return p.recalled c (p.run batches).2 sessionHint unit k) := by
  have hkeeps := run_keeps (validate_ok hvalid).1 (validate_ok hvalid).2 batches
  have hordered := run_ordered (p := p) batches
  rw [retrieveEmbedding]
  by_cases hk : k = 0
  · rw [checkK, if_pos hk]
    rfl
  · rw [checkK, if_neg hk]
    rcases p.checkWidth query.length with e | _
    · rfl
    · dsimp only
      rw [scanNormalized]
      rcases p.normalizer.run query with e | ⟨unit, nonzero⟩
      · rfl
      · dsimp only
        rw [scan_eq hkeeps hordered sessionHint unit hk]
        exact congrArg (some ∘ Except.ok) (best_eq_recalled hkeeps hordered sessionHint unit k)

theorem retrieveEmbedding_recalls_b :
    (roomForTwo.retrieveEmbedding integerScoring (some "s") [1] 1 (roomForTwo.run [threeTurns]).1).map (Except.map fun report =>
      report.turns.map fun t => (t.message, t.score, t.sessionHint)) = some (.ok [(⟨.user, [.text "b"], none, none⟩, 1, "s")]) := by
  rw [retrieveEmbedding_recalls (p := roomForTwo) (c := integerScoring) rfl [threeTurns] (some "s") [1] 1]
  rfl

end InMemoryVectorStore

end Cuca.Services.VectorStore
