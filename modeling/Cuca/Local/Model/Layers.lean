import Cuca.Types
import Mathlib.Data.List.Forall2

/-!
# The layers of a model

What `Hparams::from_metadata` makes of a file's metadata, as far as the caches need it: which layers there are, which of them see a window
only, and whose keys and values they read.

* `Arch`, `Arch.behavior` : what an architecture fixes;
* `layerList` : the layers;
* `LayersSound` : windows are not empty, a layer reads an earlier owner with its own window, and hybrid models have no windows;
* `layerList_sound` : so it is for every list that is built.
-/

namespace Cuca.Local.Model

def err (message : String) : CucaError := .provider .localModel message

def metaErr (key e : String) : CucaError := err s!"GGUF metadata `{key}`: {e}"

/-! ## Architectures -/

inductive Arch where
  | gemma4 | gemma3 | gemma2 | llama | qwen2 | qwen3 | phi3 | smollm3 | granite | graniteMoe | qwen3Moe | olmoe | qwen35 | qwen35Moe | olmo2
  | ernie4_5 | gemma4Assistant
  deriving DecidableEq, Repr

def Arch.name : Arch → String
  | gemma4 => "gemma4"
  | gemma3 => "gemma3"
  | gemma2 => "gemma2"
  | llama => "llama"
  | qwen2 => "qwen2"
  | qwen3 => "qwen3"
  | phi3 => "phi3"
  | smollm3 => "smollm3"
  | granite => "granite"
  | graniteMoe => "granitemoe"
  | qwen3Moe => "qwen3moe"
  | olmoe => "olmoe"
  | qwen35 => "qwen35"
  | qwen35Moe => "qwen35moe"
  | olmo2 => "olmo2"
  | ernie4_5 => "ernie4_5"
  | gemma4Assistant => "gemma4-assistant"

def Arch.isDrafter (arch : Arch) : Bool := arch == .gemma4Assistant

/-- Which layers see a window only. -/
inductive Swa where
  | none
  /-- A flag for each layer, in the metadata. -/
  | patternArray
  /-- All but every `n`-th; the metadata may say another `n`. -/
  | every (n : Nat)
  deriving DecidableEq, Repr

structure Behavior where
  swa : Swa
  gemma4Extras : Bool
  hybridDeltaNet : Bool
  nextnBlocks : Bool
  deriving DecidableEq, Repr

def Arch.behavior : Arch → Behavior
  | gemma4 | gemma4Assistant => ⟨.patternArray, true, false, false⟩
  | gemma3 => ⟨.every 6, false, false, false⟩
  | gemma2 => ⟨.every 2, false, false, false⟩
  | qwen35 | qwen35Moe => ⟨.none, false, true, true⟩
  | _ => ⟨.none, false, false, false⟩

/-! ## Metadata -/

/-- A value: an unsigned integer that fits a `usize`, an array with the flags that its items are, or something else. -/
inductive Value where
  | integer (n : UInt64)
  | array (items : List (Option Bool))
  | other

/-- The values of the keys under the architecture's name. -/
structure Keys where
  name : String
  value : String → Option Value

namespace Keys

def full (k : Keys) (key : String) : String := s!"{k.name}.{key}"

def usizeOpt (k : Keys) (key : String) : Except CucaError (Option Nat) :=
  match k.value key with
  | some (.integer n) => .ok (some n.toNat)
  | some _ => .error (metaErr (k.full key) "not an unsigned integer")
  | none => .ok none

def usize (k : Keys) (key : String) : Except CucaError Nat := do
  match ← k.usizeOpt key with
  | some n => pure n
  | none => throw (metaErr (k.full key) "missing")

/-- `nonzero` -/
def nonzero (k : Keys) (key : String) : Except CucaError Nat := do
  match ← k.usize key with
  | 0 => throw (metaErr (k.full key) "must be non-zero")
  | n => pure n

end Keys

/-! ## Layers -/

structure DeltaSpec where
  convKernel : Nat
  nKHeads : Nat
  nVHeads : Nat
  headKDim : Nat
  headVDim : Nat
  deriving DecidableEq, Repr

inductive LayerKind where
  | attention
  | deltaNet (d : DeltaSpec)
  deriving DecidableEq, Repr

structure LayerSpec where
  kind : LayerKind
  window : Option Nat
  /-- The layer whose keys and values it reads, if it reads a layer's. -/
  kvSource : Option Nat
  deriving DecidableEq, Repr

def LayerSpec.ownsKv (spec : LayerSpec) (il : Nat) : Bool := spec.kvSource == some il

def LayerSpec.isDelta (spec : LayerSpec) : Bool :=
  match spec.kind with
  | .deltaNet _ => true
  | .attention => false

def isHybrid (layers : List LayerSpec) : Bool := layers.any LayerSpec.isDelta

def pattern : String := "attention.sliding_window_pattern"

/-- `v.to_bool()` for each item. -/
def toFlags (key : String) (items : List (Option Bool)) : Except CucaError (List Bool) :=
  items.mapM fun item =>
    match item with
    | some flag => .ok flag
    | none => .error (metaErr key "not a bool")

def slidingLayers (k : Keys) (behavior : Behavior) (nLayer : Nat) : Except CucaError (List Bool) :=
  match behavior.swa with
  | .none => .ok (List.replicate nLayer false)
  | .patternArray =>
    match k.value pattern with
    | some (.array items) => do
      let flags ← toFlags (k.full pattern) items
      if flags.length ≠ nLayer then throw (metaErr (k.full pattern) s!"expected {nLayer} entries, found {flags.length}")
      else pure flags
    | _ => .error (metaErr (k.full pattern) "missing or not an array")
  | .every default =>
    match k.value pattern with
    | some (.integer n) =>
      if n.toNat = 0 then .error (metaErr (k.full pattern) "not a positive integer")
      else .ok ((List.range nLayer).map fun il => decide (il % n.toNat < n.toNat - 1))
    | some _ => .error (metaErr (k.full pattern) "not a positive integer")
    | none => .ok ((List.range nLayer).map fun il => decide (il % default < default - 1))

def slidingAt (isSliding : List Bool) (il : Nat) : Bool := isSliding.getD il false

/-- For each layer the one whose keys and values it reads: itself, or the last owner of its own type. -/
def kvSources (isSliding : List Bool) (nLayerKv : Nat) : Except CucaError (List Nat) :=
  if nLayerKv = 0 ∨ nLayerKv > isSliding.length then
    .error (err s!"{nLayerKv} K/V-owning layers do not fit {isSliding.length} layers")
  else
    (List.range isSliding.length).mapM fun il =>
      if il < nLayerKv then .ok il
      else
        match (List.range nLayerKv).reverse.find? fun j => slidingAt isSliding j == slidingAt isSliding il with
        | some j => .ok j
        | none =>
          let kind := if slidingAt isSliding il then "sliding" else "full"
          .error (err s!"layer {il} shares K/V but no earlier {kind}-attention layer owns any")

/-- The interval of the full-attention layers of a hybrid model, and the dimensions of the others. -/
def deltaSpec (k : Keys) : Except CucaError (Nat × DeltaSpec) := do
  let interval ← k.nonzero "full_attention_interval"
  let convKernel ← k.nonzero "ssm.conv_kernel"
  let headKDim ← k.nonzero "ssm.state_size"
  let nKHeads ← k.nonzero "ssm.group_count"
  let nVHeads ← k.nonzero "ssm.time_step_rank"
  let inner ← k.nonzero "ssm.inner_size"
  if nVHeads % nKHeads ≠ 0 then
    throw (metaErr (k.full "ssm.time_step_rank")
      s!"{nVHeads} value heads are not a multiple of the {nKHeads} key heads (ssm.group_count)")
  else if inner % nVHeads ≠ 0 then
    throw (metaErr (k.full "ssm.inner_size") s!"{inner} is not a multiple of the {nVHeads} value heads (ssm.time_step_rank)")
  else pure (interval, ⟨convKernel, nKHeads, nVHeads, headKDim, inner / nVHeads⟩)

/-- One layer; `block` checks the heads and the rotary embedding of an attention layer. -/
def layerAt (block : Nat → Bool → Except CucaError Unit) (hybrid : Option (Nat × DeltaSpec)) (window : Option Nat) (sliding : List Bool)
    (kvSource : List (Option Nat)) (il : Nat) : Except CucaError LayerSpec :=
  match hybrid.filter fun h => (il + 1) % h.1 ≠ 0 with
  | some (_, delta) => .ok ⟨.deltaNet delta, none, none⟩
  | none => do
    let isSliding := slidingAt sliding il
    block il isSliding
    pure ⟨.attention, if isSliding then window else none, kvSource.getD il none⟩

def countOf (k : Keys) (isRead : Bool) (key : String) : Except CucaError Nat :=
  if isRead then (k.usizeOpt key).map (Option.getD · 0) else .ok 0

def windowOf (k : Keys) (swa : Swa) (given : Option Nat) : Except CucaError (Option Nat) :=
  match swa, given.filter (0 < ·) with
  | .none, _ => .ok none
  | _, some w => .ok (some w)
  | _, none => .error (metaErr (k.full "attention.sliding_window") "missing or zero")

def sourcesOf (arch : Arch) (sliding : List Bool) (nLayer shared : Nat) : Except CucaError (List (Option Nat)) :=
  if arch.isDrafter then .ok (List.replicate nLayer none) else (kvSources sliding (nLayer - shared)).map (List.map some)

def hybridOf (k : Keys) (behavior : Behavior) : Except CucaError (Option (Nat × DeltaSpec)) :=
  if behavior.hybridDeltaNet then (deltaSpec k).map some else .ok none

def ensure (condition : Bool) (e : CucaError) : Except CucaError Unit := if condition then .ok () else .error e

/-- The layers of `Hparams::from_metadata`. -/
def layerList (arch : Arch) (value : String → Option Value) (block : Nat → Bool → Except CucaError Unit) :
    Except CucaError (List LayerSpec) := do
  let behavior := arch.behavior
  let k : Keys := ⟨arch.name, value⟩
  let nBlock ← k.usize "block_count"
  ensure (nBlock ≠ 0) (err "GGUF metadata: layer, embedding and context sizes must be non-zero")
  let nextn ← countOf k behavior.nextnBlocks "nextn_predict_layers"
  ensure (nextn < nBlock)
    (metaErr (k.full "nextn_predict_layers") s!"{nextn} prediction blocks leave no trunk layer among {nBlock} blocks")
  let nLayer := nBlock - nextn
  let sliding ← slidingLayers k behavior nLayer
  let given ← k.usizeOpt "attention.sliding_window"
  let window ← windowOf k behavior.swa given
  let shared ← countOf k (behavior.gemma4Extras && !arch.isDrafter) "attention.shared_kv_layers"
  ensure (shared < nLayer)
    (metaErr (k.full "attention.shared_kv_layers") s!"{shared} shared layers leave no K/V owner among {nLayer} layers")
  let kvSource ← sourcesOf arch sliding nLayer shared
  let hybrid ← hybridOf k behavior
  (List.range nLayer).mapM (layerAt block hybrid window sliding kvSource)

/-! ## Soundness -/

/-- What the caches rely on. -/
structure LayersSound (layers : List LayerSpec) : Prop where
  window_pos : ∀ spec ∈ layers, ∀ w ∈ spec.window, 0 < w
  /-- A layer reads itself or an earlier owner, which has its own window. -/
  source : ∀ (il : Nat) (spec : LayerSpec) (src : Nat), layers[il]? = some spec → spec.kvSource = some src →
    src ≤ il ∧ ∃ owner : LayerSpec, layers[src]? = some owner ∧ owner.kvSource = some src ∧ owner.window = spec.window
  /-- A hybrid model has no windows. -/
  hybrid : isHybrid layers = true → ∀ spec ∈ layers, spec.window = none
  delta : ∀ spec ∈ layers, spec.isDelta = true → spec.kvSource = none

theorem bind_eq_ok {α β : Type} {x : Except CucaError α} {f : α → Except CucaError β} {b : β} (h : x >>= f = .ok b) :
    ∃ a, x = .ok a ∧ f a = .ok b := by
  cases x with
  | error e => exact nomatch h
  | ok a => exact ⟨a, rfl, h⟩

theorem map_eq_ok {α β : Type} {x : Except CucaError α} {f : α → β} {b : β} (h : x.map f = .ok b) : ∃ a, x = .ok a ∧ f a = b := by
  cases x with
  | error e => exact nomatch h
  | ok a => exact ⟨a, rfl, Except.ok.inj h⟩

theorem mapM_eq_ok {α β : Type} {f : α → Except CucaError β} {xs : List α} {ys : List β} (h : xs.mapM f = .ok ys) :
    List.Forall₂ (fun x y => f x = .ok y) xs ys := by
  induction xs generalizing ys with
  | nil =>
    obtain rfl : [] = ys := Except.ok.inj h
    exact .nil
  | cons x xs ih =>
    rw [List.mapM_cons] at h
    obtain ⟨y, hy, h⟩ := bind_eq_ok h
    obtain ⟨rest, hrest, h⟩ := bind_eq_ok h
    obtain rfl : y :: rest = ys := Except.ok.inj h
    exact .cons hy (ih hrest)

theorem mapM_range {β : Type} {f : Nat → Except CucaError β} {n : Nat} {ys : List β} (h : (List.range n).mapM f = .ok ys) :
    ys.length = n ∧ ∀ (il : Nat) (y : β), ys[il]? = some y → il < n ∧ f il = .ok y := by
  have hall := mapM_eq_ok h
  have hlength : ys.length = n := hall.length_eq ▸ List.length_range
  refine ⟨hlength, fun il y hy => ?_⟩
  obtain ⟨hlt, rfl⟩ := List.getElem?_eq_some_iff.mp hy
  have hil : il < (List.range n).length := hall.length_eq ▸ hlt
  have hf := hall.get hil hlt
  rw [List.get_eq_getElem, List.get_eq_getElem, List.getElem_range] at hf
  exact ⟨hlength ▸ hlt, hf⟩

theorem windowOf_pos {k : Keys} {swa : Swa} {given window : Option Nat} (h : windowOf k swa given = .ok window) : ∀ w ∈ window, 0 < w := by
  intro w hw
  unfold windowOf at h
  split at h
  · exact nomatch (Except.ok.inj h).trans hw
  · rename_i w' _ hgiven
    obtain rfl : w' = w := Option.some.inj ((Except.ok.inj h).trans hw)
    simpa using (Option.filter_eq_some_iff.mp hgiven).2
  · exact nomatch h

theorem kvSources_sound {isSliding : List Bool} {n : Nat} {sources : List Nat} (h : kvSources isSliding n = .ok sources) :
    sources.length = isSliding.length ∧ ∀ il src : Nat, sources[il]? = some src →
      src ≤ il ∧ sources[src]? = some src ∧ slidingAt isSliding src = slidingAt isSliding il := by
  unfold kvSources at h
  split at h
  · exact nomatch h
  · rename_i hfits
    obtain ⟨hlength, hsource⟩ := mapM_range h
    refine ⟨hlength, fun il src hsrc => ?_⟩
    obtain ⟨hil, heq⟩ := hsource il src hsrc
    have howner : src < n → sources[src]? = some src := by
      intro hlt
      obtain ⟨y, hy⟩ : ∃ y, sources[src]? = some y := ⟨_, List.getElem?_eq_getElem (by omega)⟩
      have hy' := (hsource src y hy).2
      rw [if_pos hlt] at hy'
      rw [hy, ← Except.ok.inj hy']
    split at heq
    · rename_i hlt
      obtain rfl := Except.ok.inj heq
      exact ⟨Nat.le_refl _, howner hlt, rfl⟩
    · split at heq
      · rename_i j hfind
        obtain rfl := Except.ok.inj heq
        have hmem := List.mem_reverse.mp (List.mem_of_find?_eq_some hfind)
        rw [List.mem_range] at hmem
        exact ⟨by omega, howner hmem, by simpa using List.find?_some hfind⟩
      · exact nomatch heq

/-- Where the sources of attention layers lie. -/
def SourcesSound (sliding : List Bool) (kvSource : List (Option Nat)) : Prop :=
  ∀ il src : Nat, kvSource.getD il none = some src →
    src ≤ il ∧ kvSource.getD src none = some src ∧ slidingAt sliding src = slidingAt sliding il

variable {sliding : List Bool} {kvSource : List (Option Nat)}

theorem sourcesOf_sound {arch : Arch} {nLayer shared : Nat}
    (h : sourcesOf arch sliding nLayer shared = .ok kvSource) : SourcesSound sliding kvSource := by
  intro il src hsrc
  unfold sourcesOf at h
  split at h
  · obtain rfl := Except.ok.inj h
    rw [List.getD_eq_getElem?_getD, List.getElem?_replicate] at hsrc
    split at hsrc <;> exact nomatch hsrc
  · obtain ⟨sources, hsources, rfl⟩ := map_eq_ok h
    have hmap (i j : Nat) : (sources.map some).getD i none = some j ↔ sources[i]? = some j := by
      rw [List.getD_eq_getElem?_getD, List.getElem?_map]
      cases sources[i]? <;> simp
    rw [hmap] at hsrc
    obtain ⟨hle, howner, hsame⟩ := (kvSources_sound hsources).2 il src hsrc
    exact ⟨hle, (hmap src src).mpr howner, hsame⟩

theorem layerAt_cases {block : Nat → Bool → Except CucaError Unit} {hybrid : Option (Nat × DeltaSpec)} {window : Option Nat}
    {kvSource : List (Option Nat)} {il : Nat} {spec : LayerSpec}
    (h : layerAt block hybrid window sliding kvSource il = .ok spec) :
    (hybrid.isSome ∧ spec.isDelta = true ∧ spec.window = none ∧ spec.kvSource = none) ∨
      (spec.isDelta = false ∧ (spec.window = if slidingAt sliding il then window else none) ∧ spec.kvSource = kvSource.getD il none) := by
  unfold layerAt at h
  split at h
  · rename_i hdelta
    obtain rfl := Except.ok.inj h
    refine .inl ⟨?_, rfl, rfl, rfl⟩
    rw [(Option.filter_eq_some_iff.mp hdelta).1]
    rfl
  · obtain ⟨_, -, h⟩ := bind_eq_ok h
    obtain rfl := Except.ok.inj h
    exact .inr ⟨rfl, rfl, rfl⟩

theorem layers_sound {block : Nat → Bool → Except CucaError Unit} {hybrid : Option (Nat × DeltaSpec)} {window : Option Nat}
    {kvSource : List (Option Nat)} {n : Nat} {layers : List LayerSpec} (hwindow : ∀ w ∈ window, 0 < w)
    (hplain : hybrid.isSome → window = none ∧ ∀ il src : Nat, kvSource.getD il none = some src → src = il)
    (hsources : SourcesSound sliding kvSource)
    (h : (List.range n).mapM (layerAt block hybrid window sliding kvSource) = .ok layers) : LayersSound layers := by
  obtain ⟨hlength, hlayer⟩ := mapM_range h
  have hmem (spec : LayerSpec) (hspec : spec ∈ layers) : ∃ il, layerAt block hybrid window sliding kvSource il = .ok spec := by
    obtain ⟨il, hil⟩ := List.mem_iff_getElem?.mp hspec
    exact ⟨il, (hlayer il spec hil).2⟩
  refine ⟨fun spec hspec w hw => ?_, fun il spec src hspec hsrc => ?_, fun hhybrid spec hspec => ?_, fun spec hspec hdelta => ?_⟩
  · obtain ⟨il, hil⟩ := hmem spec hspec
    obtain ⟨-, -, hnone, -⟩ | ⟨-, heq, -⟩ := layerAt_cases hil
    · exact nomatch hnone.symm.trans hw
    · rw [heq] at hw
      split at hw
      · exact hwindow w hw
      · exact nomatch hw
  · obtain ⟨hlt, hil⟩ := hlayer il spec hspec
    obtain ⟨-, -, -, hnone⟩ | ⟨hattention, hspecwindow, heq⟩ := layerAt_cases hil
    · exact nomatch hnone.symm.trans hsrc
    · obtain ⟨hle, howner, hsame⟩ := hsources il src (heq.symm.trans hsrc)
      have hsrclt : src < layers.length := by omega
      obtain ⟨owner, howner'⟩ : ∃ owner, layers[src]? = some owner := ⟨_, List.getElem?_eq_getElem hsrclt⟩
      refine ⟨hle, owner, howner', ?_⟩
      obtain ⟨hhybrid, -, -, -⟩ | ⟨-, hownerwindow, hownersource⟩ := layerAt_cases (hlayer src owner howner').2
      · -- a layer of a hybrid model that reads a source reads itself
        obtain rfl := (hplain hhybrid).2 il src (heq.symm.trans hsrc)
        obtain rfl : owner = spec := Option.some.inj (howner'.symm.trans hspec)
        exact ⟨hsrc, rfl⟩
      · exact ⟨hownersource.trans howner, by rw [hownerwindow, hspecwindow, hsame]⟩
  · have hsome : hybrid.isSome := by
      obtain ⟨s, hs, hdelta⟩ := List.any_eq_true.mp hhybrid
      obtain ⟨il, hil⟩ := hmem s hs
      obtain ⟨hsome, -⟩ | ⟨hnot, -⟩ := layerAt_cases hil
      · exact hsome
      · exact absurd (hdelta.symm.trans hnot) (by decide)
    obtain ⟨il, hil⟩ := hmem spec hspec
    obtain ⟨-, -, hnone, -⟩ | ⟨-, heq, -⟩ := layerAt_cases hil
    · exact hnone
    · rw [heq, (hplain hsome).1, ite_self]
  · obtain ⟨il, hil⟩ := hmem spec hspec
    obtain ⟨-, -, -, hnone⟩ | ⟨hnot, -⟩ := layerAt_cases hil
    · exact hnone
    · exact absurd (hdelta.symm.trans hnot) (by decide)

theorem hybrid_behavior (arch : Arch) (h : arch.behavior.hybridDeltaNet = true) :
    arch.behavior.swa = .none ∧ arch.behavior.gemma4Extras = false ∧ arch.isDrafter = false := by
  cases arch <;> first | exact ⟨rfl, rfl, rfl⟩ | exact absurd h (by decide)

theorem kvSources_own {isSliding : List Bool} {sources : List Nat} {n : Nat} (hn : n = isSliding.length) (h : kvSources isSliding n = .ok sources)
    {il src : Nat} (hsrc : sources[il]? = some src) : src = il := by
  subst hn
  unfold kvSources at h
  split at h
  · exact nomatch h
  · obtain ⟨hil, heq⟩ := (mapM_range h).2 il src hsrc
    rw [if_pos hil] at heq
    exact (Except.ok.inj heq).symm

theorem layerList_sound {arch : Arch} {value : String → Option Value} {block : Nat → Bool → Except CucaError Unit} {layers : List LayerSpec}
    (h : layerList arch value block = .ok layers) : LayersSound layers := by
  unfold layerList at h
  obtain ⟨nBlock, -, h⟩ := bind_eq_ok h
  obtain ⟨_, -, h⟩ := bind_eq_ok h
  obtain ⟨nextn, -, h⟩ := bind_eq_ok h
  obtain ⟨_, -, h⟩ := bind_eq_ok h
  obtain ⟨sliding, hsliding, h⟩ := bind_eq_ok h
  obtain ⟨given, -, h⟩ := bind_eq_ok h
  obtain ⟨window, hwindow, h⟩ := bind_eq_ok h
  obtain ⟨shared, hshared, h⟩ := bind_eq_ok h
  obtain ⟨_, -, h⟩ := bind_eq_ok h
  obtain ⟨kvSource, hsource, h⟩ := bind_eq_ok h
  obtain ⟨hybrid, hhybrid, h⟩ := bind_eq_ok h
  refine layers_sound (windowOf_pos hwindow) (fun hsome => ?_) (sourcesOf_sound hsource) h
  have harch : arch.behavior.hybridDeltaNet = true := by
    by_contra hnot
    unfold hybridOf at hhybrid
    rw [if_neg hnot] at hhybrid
    obtain rfl := Except.ok.inj hhybrid
    exact nomatch hsome
  obtain ⟨hswa, hextras, hdrafter⟩ := hybrid_behavior arch harch
  rw [hswa] at hwindow
  unfold slidingLayers at hsliding
  rw [hswa] at hsliding
  obtain rfl := Except.ok.inj hsliding
  unfold countOf at hshared
  rw [hextras, Bool.false_and, if_neg Bool.false_ne_true] at hshared
  obtain rfl := Except.ok.inj hshared
  unfold sourcesOf at hsource
  rw [hdrafter, if_neg Bool.false_ne_true] at hsource
  obtain ⟨sources, hsources, rfl⟩ := map_eq_ok hsource
  refine ⟨(Except.ok.inj hwindow).symm, fun il src hsrc => ?_⟩
  rw [List.getD_eq_getElem?_getD, List.getElem?_map] at hsrc
  cases hil : sources[il]? with
  | none =>
    rw [hil] at hsrc
    exact nomatch hsrc
  | some src' =>
    rw [hil] at hsrc
    obtain rfl : src' = src := Option.some.inj hsrc
    exact kvSources_own List.length_replicate.symm hsources hil

theorem slidingLayers_length {k : Keys} {behavior : Behavior} {nLayer : Nat}
    (h : slidingLayers k behavior nLayer = .ok sliding) : sliding.length = nLayer := by
  unfold slidingLayers at h
  split at h
  · obtain rfl := Except.ok.inj h
    exact List.length_replicate
  · split at h
    · obtain ⟨flags, -, h⟩ := bind_eq_ok h
      split at h
      · exact nomatch h
      · rename_i hlength
        obtain rfl := Except.ok.inj h
        exact not_not.mp hlength
    · exact nomatch h
  · split at h
    · split at h
      · exact nomatch h
      · obtain rfl := Except.ok.inj h
        rw [List.length_map, List.length_range]
    · exact nomatch h
    · obtain rfl := Except.ok.inj h
      rw [List.length_map, List.length_range]

theorem layerList_readers {arch : Arch} {value : String → Option Value} {block : Nat → Bool → Except CucaError Unit} {layers : List LayerSpec}
    (h : layerList arch value block = .ok layers) (hdrafter : arch.isDrafter = false) :
    ∀ spec ∈ layers, spec.isDelta = false → spec.kvSource ≠ none := by
  unfold layerList at h
  obtain ⟨nBlock, -, h⟩ := bind_eq_ok h
  obtain ⟨_, -, h⟩ := bind_eq_ok h
  obtain ⟨nextn, -, h⟩ := bind_eq_ok h
  obtain ⟨_, -, h⟩ := bind_eq_ok h
  obtain ⟨sliding, hsliding, h⟩ := bind_eq_ok h
  obtain ⟨given, -, h⟩ := bind_eq_ok h
  obtain ⟨window, -, h⟩ := bind_eq_ok h
  obtain ⟨shared, -, h⟩ := bind_eq_ok h
  obtain ⟨_, -, h⟩ := bind_eq_ok h
  obtain ⟨kvSource, hsource, h⟩ := bind_eq_ok h
  obtain ⟨hybrid, -, h⟩ := bind_eq_ok h
  intro spec hspec hattends
  obtain ⟨il, hil⟩ := List.mem_iff_getElem?.mp hspec
  obtain ⟨hlt, hlayer⟩ := (mapM_range h).2 il spec hil
  obtain ⟨-, hdelta, -⟩ | ⟨-, -, heq⟩ := layerAt_cases hlayer
  · exact absurd (hdelta.symm.trans hattends) (by decide)
  · unfold sourcesOf at hsource
    rw [hdrafter, if_neg Bool.false_ne_true] at hsource
    obtain ⟨sources, hsources, rfl⟩ := map_eq_ok hsource
    have hlength := (kvSources_sound hsources).1.trans (slidingLayers_length hsliding)
    rw [heq, List.getD_eq_getElem?_getD, List.getElem?_map, List.getElem?_eq_getElem (hlength.symm ▸ hlt)]
    exact Option.some_ne_none _

end Cuca.Local.Model
