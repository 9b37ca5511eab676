import Cuca.Lib.Delimited
import Cuca.Local.Download

/-!
# The paths of the model cache

A file of a repository is cached at `<cache>/huggingface/<repo with '/' as "--">/<revision>/<file>`, and its lock and what has arrived of
it are beside it. Texts and paths are their bytes.

* `components`, `push` : `std::path` on Unix; two paths are one when their components are the same;
* `cachedPath`, `withSuffix` : where a file is cached, and its companions;
* `components_cachedPath` : the components of an accepted file;
* `Told`, `cache_apart` : two files are kept apart exactly when their texts tell them apart.
-/

namespace Cuca.Download
open Sse

/-! ## Paths -/

def slash : UInt8 := 0x2F

inductive Component where
  | rootDir
  | curDir
  | parentDir
  | normal (name : Bytes)
  deriving DecidableEq, Repr

/-- What is between two separators, behind the first one; empty parts and `.` are left out. -/
def component (part : Bytes) : Option Component :=
  if part = [] ∨ part = ascii "." then none else if part = ascii ".." then some .parentDir else some (.normal part)

def ofParts : List Bytes → List Component
  | [] => []
  | first :: rest =>
    (if first = [] ∧ rest ≠ [] then [.rootDir] else if first = ascii "." then [.curDir] else (component first).toList) ++
      rest.filterMap component

/-- `Path::components` -/
def components (path : Bytes) : List Component := ofParts (path.splitOn slash)

/-- `PathBuf::push`, and `Path::join` -/
def push (path part : Bytes) : Bytes :=
  if part.head? = some slash then part
  else if path = [] ∨ path.getLast? = some slash then path ++ part
  else path ++ slash :: part

/-! ## The cache -/

/-- One of `repo`, `revision` and `file`. -/
def checkComponent (label : String) (value : Bytes) : Except Bytes Unit :=
  let bad := value.isEmpty || value.contains 0x5C || value.head? == some slash ||
    (value.splitOn slash).any fun segment =>
      segment.isEmpty || segment == ascii "." || segment == ascii ".." || segment.contains 0x3A
  if bad then
    .error (ascii s!"invalid model {label} `" ++ value ++ ascii "`: it must be a relative `/`-separated path of plain segments")
  else .ok ()

/-- `replace('/', "--")` -/
def dashed (repo : Bytes) : Bytes := repo.flatMap fun b => if b = slash then ascii "--" else [b]

def cachedPath (cacheDir repo revision file : Bytes) : Except Bytes Bytes := do
  checkComponent "repo" repo
  checkComponent "revision" revision
  checkComponent "file" file
  let path := push (push (push cacheDir (ascii "huggingface")) (dashed repo)) revision
  return (file.splitOn slash).foldl push path

def withSuffix (path suffix : Bytes) : Bytes := path ++ suffix

/-! ## The components of a cached file -/

/-- A part that is a file name. -/
structure Plain (part : Bytes) : Prop where
  nonempty : part ≠ []
  notDot : part ≠ ascii "."
  notDots : part ≠ ascii ".."

theorem Plain.component {part : Bytes} (h : Plain part) : component part = some (.normal part) := by
  unfold Download.component
  rw [if_neg (not_or.mpr ⟨h.nonempty, h.notDot⟩), if_neg h.notDots]

theorem filterMap_plain {parts : List Bytes} (h : ∀ part ∈ parts, Plain part) : parts.filterMap component = parts.map .normal := by
  induction parts with
  | nil => rfl
  | cons part parts ih =>
    rw [List.filterMap_cons_some (h part List.mem_cons_self).component, List.map_cons]
    rw [ih fun part' hpart' => h part' (List.mem_cons_of_mem _ hpart')]

theorem checkComponent_plain {label : String} {value : Bytes} (h : checkComponent label value = .ok ()) :
    ∀ part ∈ value.splitOn slash, Plain part := by
  unfold checkComponent at h
  dsimp only at h
  split at h
  · exact absurd h (by simp)
  · rename_i hbad
    intro part hpart
    rw [Bool.not_eq_true, Bool.or_eq_false_iff, List.any_eq_false] at hbad
    have hsegment := hbad.2 part hpart
    simp only [Bool.or_eq_true, List.isEmpty_iff, beq_iff_eq, not_or] at hsegment
    exact ⟨hsegment.1.1.1, hsegment.1.1.2, hsegment.1.2⟩

theorem ofParts_append {parts more : List Bytes} (hparts : parts ≠ [] ∧ parts ≠ [[]]) (hmore : ∀ part ∈ more, Plain part) :
    ofParts (parts ++ more) = ofParts parts ++ more.map .normal := by
  obtain ⟨first, rest, rfl⟩ := List.exists_cons_of_ne_nil hparts.1
  have hroot : (first = [] ∧ rest ++ more ≠ []) ↔ (first = [] ∧ rest ≠ []) := by
    constructor
    · rintro ⟨rfl, -⟩
      refine ⟨rfl, ?_⟩
      rintro rfl
      exact hparts.2 rfl
    · rintro ⟨hfirst, hrest⟩
      exact ⟨hfirst, List.append_ne_nil_of_left_ne_nil hrest _⟩
  rw [List.cons_append, ofParts, ofParts, List.filterMap_append, filterMap_plain hmore, List.append_assoc]
  simp only [hroot]

theorem ofParts_separator {parts more : List Bytes} (hparts : parts ≠ []) (hmore : more ≠ []) :
    ofParts (parts ++ [] :: more) = ofParts (parts ++ more) := by
  obtain ⟨first, rest, rfl⟩ := List.exists_cons_of_ne_nil hparts
  have hroot : rest ++ more ≠ [] := List.append_ne_nil_of_right_ne_nil _ hmore
  have hroot' : rest ++ [] :: more ≠ [] := List.append_ne_nil_of_right_ne_nil _ (List.cons_ne_nil _ _)
  have hnone : component [] = none := rfl
  rw [List.cons_append, List.cons_append, ofParts, ofParts, List.filterMap_append, List.filterMap_append,
    List.filterMap_cons_none hnone]
  simp only [hroot, hroot', ne_eq, not_false_eq_true, and_true]

theorem ofParts_plain {parts : List Bytes} (h : ∀ part ∈ parts, Plain part) : ofParts parts = parts.map .normal := by
  rcases parts with _ | ⟨first, rest⟩
  · rfl
  · have hfirst := h first List.mem_cons_self
    rw [ofParts, if_neg (fun hroot => hfirst.nonempty hroot.1), if_neg hfirst.notDot, hfirst.component,
      filterMap_plain fun part hpart => h part (List.mem_cons_of_mem _ hpart)]
    rfl

theorem splitOn_append_slash (a b : Bytes) : (a ++ slash :: b).splitOn slash = a.splitOn slash ++ b.splitOn slash :=
  List.splitOn_append_cons_self a b

theorem components_push (path : Bytes) {value : Bytes} (h : ∀ part ∈ value.splitOn slash, Plain part) :
    components (push path value) = components path ++ (value.splitOn slash).map .normal := by
  have hrelative : value.head? ≠ some slash := by
    intro hhead
    obtain ⟨rest, rfl⟩ := List.head?_eq_some_iff.mp hhead
    rw [← List.nil_append (slash :: rest), splitOn_append_slash] at h
    exact (h [] (by simp)).nonempty rfl
  unfold push components
  rw [if_neg hrelative]
  by_cases hempty : path = []
  · rw [if_pos (.inl hempty), hempty, List.nil_append, ofParts_plain h]
    rfl
  · by_cases hlast : path.getLast? = some slash
    · obtain ⟨front, rfl⟩ := List.getLast?_eq_some_iff.mp hlast
      rw [if_pos (.inr hlast), List.append_assoc, List.singleton_append, splitOn_append_slash, splitOn_append_slash]
      rw [← ofParts_separator (List.splitOn_ne_nil slash front) (List.splitOn_ne_nil slash value), List.splitOn_nil,
        ← ofParts_append ?_ h, List.append_assoc, List.singleton_append]
      refine ⟨List.append_ne_nil_of_left_ne_nil (List.splitOn_ne_nil slash front) _, fun hone => ?_⟩
      have hlength := congrArg List.length hone
      have hpos := List.length_pos_of_ne_nil (List.splitOn_ne_nil slash front)
      rw [List.length_append, List.length_singleton] at hlength
      simp at hlength
    · rw [if_neg (not_or.mpr ⟨hempty, hlast⟩), splitOn_append_slash]
      refine ofParts_append ⟨List.splitOn_ne_nil slash path, fun hone => hempty ?_⟩ h
      calc path = [slash].intercalate (path.splitOn slash) := (List.intercalate_splitOn slash).symm
        _ = [] := by rw [hone]; rfl

theorem not_mem_dashed (repo : Bytes) : slash ∉ dashed repo := by
  unfold dashed
  rw [List.mem_flatMap]
  rintro ⟨b, -, hb⟩
  split at hb
  · exact absurd hb (by decide)
  · rename_i hne
    exact hne (List.mem_singleton.mp hb).symm

theorem dashed_plain {repo : Bytes} (h : ∀ part ∈ repo.splitOn slash, Plain part) : Plain (dashed repo) := by
  by_cases hslash : slash ∈ repo
  · have hdash : 0x2D ∈ dashed repo := by
      unfold dashed
      rw [List.mem_flatMap]
      exact ⟨slash, hslash, by decide⟩
    refine ⟨List.ne_nil_of_mem hdash, fun hdot => ?_, fun hdots => ?_⟩
    · rw [hdot] at hdash
      exact absurd hdash (by decide)
    · rw [hdots] at hdash
      exact absurd hdash (by decide)
  · have hsame : dashed repo = repo := by
      unfold dashed
      rw [List.flatMap_congr fun b hb => if_neg (show b ≠ slash from fun heq => hslash (heq ▸ hb)), List.flatMap_singleton']
    rw [hsame]
    refine h repo ?_
    rw [List.splitOn_eq_singleton hslash]
    exact List.mem_singleton_self repo

theorem huggingface_plain : ∀ part ∈ (ascii "huggingface").splitOn slash, Plain part := by
  intro part hpart
  rw [List.splitOn_eq_singleton (by decide +kernel)] at hpart
  rw [List.mem_singleton.mp hpart]
  exact ⟨by decide, by decide, by decide⟩

theorem components_foldl_push (path : Bytes) {names : List Bytes} (h : ∀ name ∈ names, Plain name ∧ slash ∉ name) :
    components (names.foldl push path) = components path ++ names.map .normal := by
  induction names generalizing path with
  | nil => exact (List.append_nil _).symm
  | cons name names ih =>
    obtain ⟨hplain, hslash⟩ := h name List.mem_cons_self
    have hone : name.splitOn slash = [name] := List.splitOn_eq_singleton hslash
    rw [List.foldl_cons, ih _ fun name' hname' => h name' (List.mem_cons_of_mem _ hname'),
      components_push path (hone ▸ fun part hpart => List.mem_singleton.mp hpart ▸ hplain), hone, List.append_assoc]
    rfl

theorem not_mem_of_mem_splitOn {value part : Bytes} (h : part ∈ value.splitOn slash) : slash ∉ part := by
  rw [List.splitOn_eq_splitOnP, Delimited.splitOnP_eq] at h
  have hfree : ∀ b ∈ part, (b == slash) = false := by
    rcases List.mem_append.mp h with h | h
    · exact Delimited.complete_free _ value part h
    · rw [List.mem_singleton.mp h]
      exact Delimited.pending_free _ value
  intro hslash
  exact absurd (hfree slash hslash) (by decide)

/-! ## Files -/

/-- What is asked for. -/
structure Source where
  repo : Bytes
  revision : Bytes
  file : Bytes
  deriving DecidableEq, Repr

namespace Source

def path (cacheDir : Bytes) (s : Source) : Except Bytes Bytes := cachedPath cacheDir s.repo s.revision s.file

/-- The text `revision/file`. -/
def rest (s : Source) : Bytes := s.revision ++ slash :: s.file

def names (repo rest : Bytes) : List Component :=
  .normal (ascii "huggingface") :: .normal (dashed repo) :: (rest.splitOn slash).map .normal

end Source

def suffixes : List Bytes := [ascii ".partial", ascii ".lock"]

variable {cacheDir : Bytes} {s : Source} {p : Bytes}

theorem path_eq_ok (h : s.path cacheDir = .ok p) :
    ((∀ part ∈ s.repo.splitOn slash, Plain part) ∧ (∀ part ∈ s.revision.splitOn slash, Plain part) ∧
      ∀ part ∈ s.file.splitOn slash, Plain part) ∧
      (s.file.splitOn slash).foldl push (push (push (push cacheDir (ascii "huggingface")) (dashed s.repo)) s.revision) = p := by
  unfold Source.path cachedPath at h
  cases hrepo : checkComponent "repo" s.repo with
  | error e =>
    rw [hrepo] at h
    exact absurd h (by simp [bind, Except.bind])
  | ok _ =>
    cases hrevision : checkComponent "revision" s.revision with
    | error e =>
      rw [hrepo, hrevision] at h
      exact absurd h (by simp [bind, Except.bind])
    | ok _ =>
      cases hfile : checkComponent "file" s.file with
      | error e =>
        rw [hrepo, hrevision, hfile] at h
        exact absurd h (by simp [bind, Except.bind])
      | ok _ =>
        rw [hrepo, hrevision, hfile] at h
        exact ⟨⟨checkComponent_plain hrepo, checkComponent_plain hrevision, checkComponent_plain hfile⟩, Except.ok.inj h⟩

/-- **The components of a cached file**, with names behind those of its revision. -/
theorem components_of_names {repo revision : Bytes} (hrepo : ∀ part ∈ repo.splitOn slash, Plain part)
    (hrevision : ∀ part ∈ revision.splitOn slash, Plain part) {file : Bytes} (hfile : ∀ part ∈ file.splitOn slash, Plain part) :
    components ((file.splitOn slash).foldl push (push (push (push cacheDir (ascii "huggingface")) (dashed repo)) revision)) =
      components cacheDir ++ Source.names repo (revision ++ slash :: file) := by
  have hname : (dashed repo).splitOn slash = [dashed repo] := List.splitOn_eq_singleton (not_mem_dashed repo)
  have hhub : (ascii "huggingface").splitOn slash = [ascii "huggingface"] := List.splitOn_eq_singleton (by decide +kernel)
  rw [components_foldl_push _ fun name h => ⟨hfile name h, not_mem_of_mem_splitOn h⟩, components_push _ hrevision,
    components_push _ (hname ▸ fun part h => List.mem_singleton.mp h ▸ dashed_plain hrepo), components_push _ huggingface_plain, hname, hhub,
    Source.names, splitOn_append_slash, List.map_append]
  simp only [List.map_cons, List.map_nil, List.append_assoc, List.cons_append, List.nil_append]

theorem components_cachedPath (h : s.path cacheDir = .ok p) : components p = components cacheDir ++ Source.names s.repo s.rest := by
  obtain ⟨⟨hrepo, hrevision, hfile⟩, rfl⟩ := path_eq_ok h
  exact components_of_names hrepo hrevision hfile

theorem foldl_push_withSuffix (path suffix : Bytes) {names : List Bytes} {name : Bytes} (hname : name ≠ []) :
    withSuffix ((names ++ [name]).foldl push path) suffix = (names ++ [name ++ suffix]).foldl push path := by
  rw [List.foldl_append, List.foldl_append]
  obtain ⟨c, rest, rfl⟩ := List.exists_cons_of_ne_nil hname
  show push _ _ ++ suffix = push _ _
  unfold push
  rw [List.cons_append, List.head?_cons, List.head?_cons]
  split_ifs
  · rfl
  · rw [List.append_assoc, List.cons_append]
  · rw [List.append_assoc, List.cons_append, List.cons_append]

theorem splitOn_append_suffix {value suffix : Bytes} {names : List Bytes} {name : Bytes} (h : value.splitOn slash = names ++ [name])
    (hsuffix : slash ∉ suffix) : (value ++ suffix).splitOn slash = names ++ [name ++ suffix] := by
  have hname : slash ∉ name := not_mem_of_mem_splitOn (h ▸ List.mem_append_right _ (List.mem_singleton_self name))
  rw [List.splitOn_eq_splitOnP] at h ⊢
  obtain ⟨hcomplete, hpending⟩ := Delimited.eq_of_splitOnP _ h
  have hfree : ∀ b ∈ name ++ suffix, (b == slash) = false := by
    intro b hb
    apply beq_false_of_ne
    rintro rfl
    exact (List.mem_append.mp hb).elim hname hsuffix
  rw [Delimited.splitOnP_eq, Delimited.complete_append, Delimited.pending_append, hcomplete, hpending,
    Delimited.complete_of_forall _ hfree, Delimited.pending_of_forall _ hfree, List.append_nil]

/-- **A companion** is where the file with the suffix behind its text would be. -/
theorem components_withSuffix (h : s.path cacheDir = .ok p) {suffix : Bytes} (hsuffix : suffix ∈ suffixes) :
    components (withSuffix p suffix) = components cacheDir ++ Source.names s.repo (s.rest ++ suffix) := by
  obtain ⟨⟨hrepo, hrevision, hfile⟩, rfl⟩ := path_eq_ok h
  obtain ⟨hslash, hlong⟩ : slash ∉ suffix ∧ 2 < suffix.length := by
    revert suffix
    decide
  obtain ⟨names, name, hsplit⟩ : ∃ names name, s.file.splitOn slash = names ++ [name] :=
    ⟨_, _, (List.dropLast_append_getLast (List.splitOn_ne_nil slash s.file)).symm⟩
  have hall : (s.file ++ suffix).splitOn slash = names ++ [name ++ suffix] := splitOn_append_suffix hsplit hslash
  have hplain : ∀ part ∈ (s.file ++ suffix).splitOn slash, Plain part := by
    rw [hall]
    intro part hpart
    rcases List.mem_append.mp hpart with hpart | hpart
    · exact hfile part (hsplit ▸ List.mem_append_left _ hpart)
    · rw [List.mem_singleton.mp hpart]
      have hlength : 2 < (name ++ suffix).length := by
        rw [List.length_append]
        omega
      refine ⟨fun heq => ?_, fun heq => ?_, fun heq => ?_⟩
      · rw [heq] at hlength
        exact absurd hlength (by decide)
      · rw [heq] at hlength
        exact absurd hlength (by decide)
      · rw [heq] at hlength
        exact absurd hlength (by decide)
  have hname := (hfile name (hsplit ▸ List.mem_append_right _ (List.mem_singleton_self name))).nonempty
  rw [hsplit, foldl_push_withSuffix _ _ hname, ← hall, components_of_names hrepo hrevision hplain, Source.rest, List.append_assoc,
    List.cons_append]

theorem names_inj {repo repo' rest rest' : Bytes} :
    Source.names repo rest = Source.names repo' rest' ↔ dashed repo = dashed repo' ∧ rest = rest' := by
  unfold Source.names
  constructor
  · intro h
    obtain ⟨hrepo, hparts⟩ := List.cons.inj (List.cons.inj h).2
    refine ⟨Component.normal.inj hrepo, ?_⟩
    have hsplit := List.map_injective_iff.mpr (fun _ _ => Component.normal.inj) hparts
    calc rest = [slash].intercalate (rest.splitOn slash) := (List.intercalate_splitOn slash).symm
      _ = rest' := by rw [hsplit, List.intercalate_splitOn]
  · rintro ⟨hrepo, rfl⟩
    rw [hrepo]

/-! ## Files that are told apart -/

/-- The paths of the two, and of their companions. -/
structure Apart (a b : Source) (pathOfA pathOfB : Bytes) : Prop where
  path : a ≠ b → components pathOfA ≠ components pathOfB
  companion : ∀ suffix ∈ suffixes, components pathOfA ≠ components (withSuffix pathOfB suffix) ∧
    components pathOfB ≠ components (withSuffix pathOfA suffix)

/-- Where the repositories have one name, the texts `revision/file` differ, and not by the suffix of a companion. -/
def Told (a b : Source) : Prop :=
  dashed a.repo = dashed b.repo →
    (a.rest = b.rest → a = b) ∧ ∀ suffix ∈ suffixes, a.rest ≠ b.rest ++ suffix ∧ b.rest ≠ a.rest ++ suffix

instance (a b : Source) : Decidable (Told a b) := by
  unfold Told
  infer_instance

theorem apart_iff {a b : Source} {pathOfA pathOfB : Bytes} (ha : a.path cacheDir = .ok pathOfA) (hb : b.path cacheDir = .ok pathOfB) :
    Apart a b pathOfA pathOfB ↔ Told a b := by
  have hpath : components pathOfA = components pathOfB ↔ dashed a.repo = dashed b.repo ∧ a.rest = b.rest := by
    rw [components_cachedPath ha, components_cachedPath hb, List.append_cancel_left_eq, names_inj]
  have hcompanion {suffix : Bytes} (hsuffix : suffix ∈ suffixes) :
      (components pathOfA = components (withSuffix pathOfB suffix) ↔ dashed a.repo = dashed b.repo ∧ a.rest = b.rest ++ suffix) ∧
        (components pathOfB = components (withSuffix pathOfA suffix) ↔ dashed b.repo = dashed a.repo ∧ b.rest = a.rest ++ suffix) := by
    rw [components_withSuffix ha hsuffix, components_withSuffix hb hsuffix, components_cachedPath ha, components_cachedPath hb,
      List.append_cancel_left_eq, List.append_cancel_left_eq, names_inj, names_inj]
    exact ⟨Iff.rfl, Iff.rfl⟩
  constructor
  · intro h hrepo
    refine ⟨fun hrest => ?_, fun suffix hsuffix => ⟨fun hrest => ?_, fun hrest => ?_⟩⟩
    · by_contra hne
      exact h.path hne (hpath.mpr ⟨hrepo, hrest⟩)
    · exact (h.companion suffix hsuffix).1 ((hcompanion hsuffix).1.mpr ⟨hrepo, hrest⟩)
    · exact (h.companion suffix hsuffix).2 ((hcompanion hsuffix).2.mpr ⟨hrepo.symm, hrest⟩)
  · intro h
    refine ⟨fun hne hsame => ?_, fun suffix hsuffix => ⟨fun hsame => ?_, fun hsame => ?_⟩⟩
    · obtain ⟨hrepo, hrest⟩ := hpath.mp hsame
      exact hne ((h hrepo).1 hrest)
    · obtain ⟨hrepo, hrest⟩ := (hcompanion hsuffix).1.mp hsame
      exact ((h hrepo).2 suffix hsuffix).1 hrest
    · obtain ⟨hrepo, hrest⟩ := (hcompanion hsuffix).2.mp hsame
      exact ((h hrepo.symm).2 suffix hsuffix).2 hrest

/-! ## Runs -/

/-- What a file of the cache is: a lock, what has arrived of a file, or a file that was downloaded. -/
inductive Content where
  | lock
  | part (of : Source)
  | whole (of : Source)
  deriving DecidableEq, Repr

abbrev Files := List (List Component × Content)

namespace Files

/-- `Path::exists`, of a file or of a directory above one. -/
def present (files : Files) (path : List Component) : Bool := files.any fun entry => path.isPrefixOf entry.1

def write (files : Files) (path : List Component) (content : Content) : Files := (path, content) :: files.filter fun entry => entry.1 ≠ path

def remove (files : Files) (path : List Component) : Files := files.filter fun entry => entry.1 ≠ path

end Files

/-- How a call goes once the file is not there: it is refused before the lock is taken, it fails with or without a partial file, or the
file is complete. -/
inductive Outcome where
  | refused
  | failed (leavesPartial : Bool)
  | complete
  deriving DecidableEq, Repr

/-- `ensure_downloaded`, of what it leaves in the cache. -/
def ensureDownloaded (files : Files) (source : Source) (finalPath : Bytes) (outcome : Outcome) : Files :=
  let lock := components (withSuffix finalPath (ascii ".lock"))
  let partialPath := components (withSuffix finalPath (ascii ".partial"))
  if files.present (components finalPath) then files
  else
    match outcome with
    | .refused => files
    | .failed leavesPartial =>
      let files := if files.present lock then files else files.write lock .lock
      if leavesPartial then files.write partialPath (.part source) else files.remove partialPath
    | .complete =>
      let files := if files.present lock then files else files.write lock .lock
      (files.remove partialPath).write (components finalPath) (.whole source)

/-- A file that is asked for. -/
def call (cacheDir : Bytes) (files : Files) (asked : Source × Outcome) : Files :=
  match asked.1.path cacheDir with
  | .ok finalPath => ensureDownloaded files asked.1 finalPath asked.2
  | .error _ => files

def runCache (cacheDir : Bytes) (files : Files) (calls : List (Source × Outcome)) : Files := calls.foldl (call cacheDir) files

/-- A file of the cache is one of those that a call for `s` leaves there. -/
def Left (cacheDir : Bytes) (s : Source) (entry : List Component × Content) : Prop :=
  ∃ p, s.path cacheDir = .ok p ∧ (entry = (components p, .whole s) ∨
    entry = (components (withSuffix p (ascii ".partial")), .part s) ∨ entry = (components (withSuffix p (ascii ".lock")), .lock))

theorem ensureDownloaded_left {files : Files} (hp : s.path cacheDir = .ok p) (outcome : Outcome) {entry : List Component × Content}
    (h : entry ∈ ensureDownloaded files s p outcome) : entry ∈ files ∨ Left cacheDir s entry := by
  have hlock {entry : List Component × Content} (h : entry ∈ if files.present (components (withSuffix p (ascii ".lock"))) then files
      else files.write (components (withSuffix p (ascii ".lock"))) .lock) : entry ∈ files ∨ Left cacheDir s entry := by
    split at h
    · exact .inl h
    · rcases List.mem_cons.mp h with rfl | h
      · exact .inr ⟨p, hp, .inr (.inr rfl)⟩
      · exact .inl (List.mem_filter.mp h).1
  unfold ensureDownloaded at h
  dsimp only at h
  split at h
  · exact .inl h
  · cases outcome with
    | refused => exact .inl h
    | failed leavesPartial =>
      dsimp only at h
      split at h
      · rcases List.mem_cons.mp h with rfl | h
        · exact .inr ⟨p, hp, .inr (.inl rfl)⟩
        · exact hlock (List.mem_filter.mp h).1
      · exact hlock (List.mem_filter.mp h).1
    | complete =>
      rcases List.mem_cons.mp h with rfl | h
      · exact .inr ⟨p, hp, .inl rfl⟩
      · exact hlock (List.mem_filter.mp (List.mem_filter.mp h).1).1

theorem runCache_left (calls : List (Source × Outcome)) {files : Files} {entry : List Component × Content}
    (h : entry ∈ runCache cacheDir files calls) : entry ∈ files ∨ ∃ call ∈ calls, Left cacheDir call.1 entry := by
  induction calls generalizing files with
  | nil => exact .inl h
  | cons asked calls ih =>
    rcases ih h with hfiles | ⟨later, hlater, hleft⟩
    · unfold call at hfiles
      cases hp : asked.1.path cacheDir with
      | error e =>
        rw [hp] at hfiles
        exact .inl hfiles
      | ok p =>
        rw [hp] at hfiles
        rcases ensureDownloaded_left hp asked.2 hfiles with hbefore | hleft
        · exact .inl hbefore
        · exact .inr ⟨asked, List.mem_cons_self, hleft⟩
    · exact .inr ⟨later, List.mem_cons_of_mem _ hlater, hleft⟩

/-- **Two files are kept apart** exactly when their texts tell them apart; and where that is so of all files that are asked for, what is
found at the path of one of them was downloaded for it. -/
theorem cache_apart (cacheDir : Bytes) :
    (∀ (a b : Source) (pathOfA pathOfB : Bytes), a.path cacheDir = .ok pathOfA → b.path cacheDir = .ok pathOfB →
      (Apart a b pathOfA pathOfB ↔ Told a b)) ∧
    ∀ calls : List (Source × Outcome), (∀ a ∈ calls, ∀ b ∈ calls, Told a.1 b.1) →
      ∀ call ∈ calls, ∀ p, call.1.path cacheDir = .ok p →
        ∀ content, (components p, content) ∈ runCache cacheDir [] calls → content = .whole call.1 := by
  refine ⟨fun a b pathOfA pathOfB ha hb => apart_iff ha hb, fun calls htold call hcall p hp content h => ?_⟩
  rcases runCache_left calls h with hnone | ⟨other, hother, q, hq, hleft⟩
  · exact absurd hnone List.not_mem_nil
  · have hapart := (apart_iff hp hq).mpr (htold call hcall other hother)
    rcases hleft with heq | heq | heq
    · obtain ⟨hpath, hcontent⟩ := Prod.mk.inj heq
      rw [hcontent]
      by_contra hne
      exact hapart.path (fun hsame => hne (congrArg _ hsame.symm)) hpath
    · exact absurd (Prod.mk.inj heq).1 (hapart.companion _ (by simp [suffixes])).1
    · exact absurd (Prod.mk.inj heq).1 (hapart.companion _ (by simp [suffixes])).1

def sourceOf (repo revision file : String) : Source := ⟨ascii repo, ascii revision, ascii file⟩

theorem cache_apart_two :
    ∀ content, (components (ascii "c/huggingface/org--model/main/f.gguf"), content) ∈ runCache (ascii "c") []
      [(sourceOf "org/model" "main" "f.gguf", .complete), (sourceOf "org/model" "main" "g.gguf", .failed true)] →
      content = .whole (sourceOf "org/model" "main" "f.gguf") :=
  (cache_apart (ascii "c")).2 _ (by decide +kernel) _ List.mem_cons_self _ (by decide +kernel)

/-- Slashes that are dashes, slashes that move from the revision to the file, and a file that is the lock of another. -/
theorem cachedPath_collides :
    let cacheDir := ascii "c"
    (sourceOf "org/model" "main" "f" ≠ sourceOf "org--model" "main" "f" ∧
        (sourceOf "org/model" "main" "f").path cacheDir = .ok (ascii "c/huggingface/org--model/main/f") ∧
        (sourceOf "org--model" "main" "f").path cacheDir = .ok (ascii "c/huggingface/org--model/main/f")) ∧
      (sourceOf "m" "x/y" "z" ≠ sourceOf "m" "x" "y/z" ∧
        (sourceOf "m" "x/y" "z").path cacheDir = .ok (ascii "c/huggingface/m/x/y/z") ∧
        (sourceOf "m" "x" "y/z").path cacheDir = .ok (ascii "c/huggingface/m/x/y/z")) ∧
      (sourceOf "m" "r" "f").path cacheDir = .ok (ascii "c/huggingface/m/r/f") ∧
        (sourceOf "m" "r" "f.lock").path cacheDir = .ok (withSuffix (ascii "c/huggingface/m/r/f") (ascii ".lock")) := by
  decide +kernel

end Cuca.Download
