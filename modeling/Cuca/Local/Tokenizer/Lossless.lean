import Cuca.Local.Tokenizer
import Cuca.Local.Tokenizer.SpmNaive
import Mathlib.Data.Prod.Lex

/-!
# Tokenization is lossless

A vocabulary that covers every byte gives a text back, when no token that is not rendered as it stands is spelled in the text or in
the form of it that is merged.

* `Tokenizer.Covers`, `Tokenizer.Free`, `spelled` : the conditions;
* `Renders` : ids whose bytes are those of a word;
* `renders_mergeWord`, `renders_tokenize` : merging;
* `encode_lossless` : the bytes of a text's ids are those of the text.
-/

namespace Cuca.Local.Tokenizer
open Bpe Merging Pretok WorkQueue

variable {K : Type}

/-! ## The conditions -/

def Hidden (t : Tokenizer K) (id : Nat) : Prop :=
  t.vocab.piece id ≠ [] ∧ ∀ type, t.vocab.tokenType id = some type → type ∉ plainTypes

def Free (t : Tokenizer K) (word : List Char) : Prop := ∀ id, t.Hidden id → ¬ t.vocab.piece id <:+: word

/-- Every byte has its token: its character for byte-level pieces, else its `<0xHH>`. -/
def Covers (t : Tokenizer K) : Prop :=
  match t.engine with
  | .bpe _ (.byte _) => ∀ byte, ∃ id, t.vocab.get [byteToChar byte] = some id
  | _ => ∀ byte, ∃ id, t.vocab.byteToken byte = some id ∧ t.vocab.tokenType id = some typeByte

/-- A text with the space that SentencePiece adds. -/
def written (t : Tokenizer K) (text : List Char) : List Char :=
  match t.engine with
  | .spm _ true => if text.isEmpty then [] else ' ' :: text
  | _ => text

/-- The form of a text that is merged. -/
def spelled (t : Tokenizer K) (text : List Char) : List Char :=
  match t.engine with
  | .bpe _ (.byte _) => (utf8 text).map byteToChar
  | _ => (t.written text).map escape

/-- Where spaces are marked, the mark is a token. -/
def MarkCovered (t : Tokenizer K) (text : List Char) : Prop :=
  Spm.spaceMark ∈ t.spelled text →
    match t.engine with
    | .bpe _ (.byte _) => True
    | _ => ∃ id, t.vocab.get [Spm.spaceMark] = some id

theorem Free.of_infix {t : Tokenizer K} {word part : List Char} (h : t.Free word) (hpart : part <:+: word) : t.Free part :=
  fun id hid hin => h id hid (hin.trans hpart)

/-! ## Ids of a word -/

def Renders (t : Tokenizer K) (ids : List Nat) (word : List Char) : Prop :=
  ids.flatMap t.decodeInto = word.flatMap t.engine.renderChar

theorem Renders.flatMap {t : Tokenizer K} {A : Type} {l : List A} {ids : A → List Nat} {word : A → List Char}
    (h : ∀ x ∈ l, t.Renders (ids x) (word x)) : t.Renders (l.flatMap ids) (l.flatMap word) := by
  unfold Renders
  rw [List.flatMap_assoc, List.flatMap_assoc]
  exact List.flatMap_congr h

theorem renders_token {t : Tokenizer K} {word : List Char} {id : Nat} (hfree : t.Free word) (hne : t.vocab.piece id ≠ [])
    (hin : t.vocab.piece id <:+: word) : t.Renders [id] (t.vocab.piece id) := by
  rw [Renders, List.flatMap_singleton, decodeInto]
  rcases htype : t.vocab.tokenType id with _ | type
  · exact (hfree id ⟨hne, fun type h => nomatch htype.symm.trans h⟩ hin).elim
  · by_cases hplain : type ∈ plainTypes
    · exact if_pos hplain
    · refine (hfree id ⟨hne, fun type' h => ?_⟩ hin).elim
      obtain rfl := Option.some.inj (htype.symm.trans h)
      exact hplain

theorem renders_get {t : Tokenizer K} {word : List Char} {id : Nat} (hfree : t.Free word) (h : t.vocab.get word = some id) :
    t.Renders [id] word := by
  obtain ⟨hpiece, hne⟩ := Vocab.piece_of_get h
  have hrenders : t.Renders [id] (t.vocab.piece id) := renders_token hfree (by rwa [hpiece]) (by rw [hpiece])
  rwa [hpiece] at hrenders

/-! ## Byte tokens -/

theorem hexValue_hexDigit : ∀ n < 16, hexValue (hexDigit n) = some n ∧ hexDigit n ≠ '+' := by decide

theorem parseByteToken_byteText (byte : UInt8) : parseByteToken (byteText byte) = some byte := by
  have hbyte : byte.toNat < 256 := byte.toNat_lt
  obtain ⟨hhigh, hplus⟩ := hexValue_hexDigit (byte.toNat / 16) (by omega)
  obtain ⟨hlow, -⟩ := hexValue_hexDigit (byte.toNat % 16) (by omega)
  show parseByteToken ['<', '0', 'x', hexDigit (byte.toNat / 16), hexDigit (byte.toNat % 16), '>'] = some byte
  rw [parseByteToken, if_neg hplus, hhigh, hlow]
  show some (UInt8.ofNat (16 * (byte.toNat / 16) + byte.toNat % 16)) = some byte
  rw [Nat.div_add_mod, UInt8.ofNat_toNat]

theorem decode_pushByteTokens {t : Tokenizer K}
    (hcovers : ∀ byte, ∃ id, t.vocab.byteToken byte = some id ∧ t.vocab.tokenType id = some typeByte) (text : List Char) :
    (t.vocab.pushByteTokens text).flatMap t.decodeInto = utf8 text := by
  rw [Vocab.pushByteTokens]
  induction utf8 text with
  | nil => rfl
  | cons byte bytes ih =>
    obtain ⟨id, hid, htype⟩ := hcovers byte
    have hdecode : t.decodeInto id = [byte] := by
      rw [decodeInto, htype, (Vocab.piece_of_get hid).1, parseByteToken_byteText]
      rfl
    rw [List.filterMap_cons, hid, List.flatMap_cons, hdecode, ih]
    rfl

/-! ## Merge rules -/

def Merges.Sound (vocab : Vocab) (merges : Merges) : Prop :=
  ∀ entry ∈ merges.table, vocab.piece entry.2.2 = vocab.piece entry.1.1 ++ vocab.piece entry.1.2

variable {vocab : Vocab}

theorem addRules_sound {strict : Bool} {rules : List (List Char)} {rank : Nat} {merges merges' : Merges}
    (h : Merges.addRules vocab strict rank rules merges = .ok merges') (hsound : merges.Sound vocab) : merges'.Sound vocab := by
  induction rules generalizing rank merges with
  | nil =>
    obtain rfl := Except.ok.inj h
    exact hsound
  | cons rule rules ih =>
    rw [Merges.addRules] at h
    split at h
    · exact nomatch h
    · rename_i left right _
      split at h
      · rename_i leftId rightId mergedId hleft hright hmerged
        refine ih h fun entry hentry => ?_
        dsimp only at hentry
        split at hentry
        · exact hsound entry hentry
        · rcases List.mem_append.mp hentry with hentry | hentry
          · exact hsound entry hentry
          · obtain rfl := List.mem_singleton.mp hentry
            dsimp only
            rw [(Vocab.piece_of_get hleft).1, (Vocab.piece_of_get hright).1, (Vocab.piece_of_get hmerged).1]
      · split at h
        · exact nomatch h
        · exact ih h hsound

variable {merges : Merges}

theorem Merges.new_sound {rules : List (List Char)} {strict : Bool}
    (h : Merges.new vocab rules strict = .ok merges) : merges.Sound vocab :=
  addRules_sound h fun _ hentry => nomatch hentry

theorem Merges.Sound.get (h : merges.Sound vocab) {x y rank merged : Nat}
    (hget : merges.get x y = some (rank, merged)) : vocab.piece merged = vocab.piece x ++ vocab.piece y := by
  obtain ⟨front, back, hsplit, -⟩ := List.lookup_eq_some_iff.mp hget
  exact h ((x, y), (rank, merged)) (by rw [hsplit]; exact List.mem_append_right _ List.mem_cons_self)

/-! ## Merging -/

/-- The text of a piece. -/
def Bpe.Piece.text (vocab : Vocab) : Piece → List Char
  | .token id => vocab.piece id
  | .unknown c => [c]

/-- A token has a text; a character that is unknown is none. -/
def Bpe.Piece.Fits (vocab : Vocab) : Piece → Prop
  | .token id => vocab.piece id ≠ []
  | .unknown c => vocab.get [c] = none

theorem pieceOf_fits (vocab : Vocab) (c : Char) : (pieceOf vocab c).text vocab = [c] ∧ (pieceOf vocab c).Fits vocab := by
  rw [pieceOf]
  split
  · rename_i id hid
    obtain ⟨hpiece, hne⟩ := Vocab.piece_of_get hid
    exact ⟨hpiece, fun hnil => hne (hpiece.symm.trans hnil)⟩
  · rename_i hnone
    exact ⟨rfl, hnone⟩

theorem naive_fits (hsound : merges.Sound vocab) (word : List Char) :
    (naive (Bpe.rule merges) (word.map (pieceOf vocab))).flatMap (Piece.text vocab) = word ∧
      ∀ p ∈ naive (Bpe.rule merges) (word.map (pieceOf vocab)), p.Fits vocab := by
  refine naive_kept (fun l => l.flatMap (Piece.text vocab) = word ∧ ∀ p ∈ l, p.Fits vocab) ?_ ⟨?_, fun p hp => ?_⟩
  · intro front p q back rank m hrule ⟨htext, hfits⟩
    obtain ⟨x, y, merged, rfl, rfl, rfl, hget⟩ := rule_some hrule
    have hpiece := hsound.get hget
    refine ⟨?_, fun r hr => ?_⟩
    · rw [← htext, List.flatMap_append, List.flatMap_append, List.flatMap_cons, List.flatMap_cons, List.flatMap_cons, Piece.text,
        hpiece, List.append_assoc]
      rfl
    · rcases List.mem_append.mp hr with hr | hr
      · exact hfits r (List.mem_append_left _ hr)
      rcases List.mem_cons.mp hr with rfl | hr
      · have hx : vocab.piece x ≠ [] := hfits (.token x) (List.mem_append_right _ List.mem_cons_self)
        exact fun hnil => hx (List.append_eq_nil_iff.mp (hpiece.symm.trans hnil)).1
      · exact hfits r (List.mem_append_right _ (List.mem_cons_of_mem _ (List.mem_cons_of_mem _ hr)))
  · rw [List.flatMap_map]
    induction word with
    | nil => rfl
    | cons c word ih => rw [List.flatMap_cons, ih, (pieceOf_fits vocab c).1]; rfl
  · obtain ⟨c, -, rfl⟩ := List.mem_map.mp hp
    exact (pieceOf_fits vocab c).2

/-- **The ids of a word** render it, when what is emitted for a character that is no token does. -/
theorem renders_mergeWord {t : Tokenizer K} (hsound : merges.Sound t.vocab) (heap : PopRule Candidate Candidate.le)
    {unknown : Unknown} {word : List Char} (hfree : t.Free word)
    (hunknown : ∀ c ∈ word, t.vocab.get [c] = none → t.Renders (emitPiece t.vocab unknown (.unknown c)) [c]) :
    t.Renders (mergeWord merges t.vocab heap unknown word) word := by
  rw [mergeWord_eq, naiveWord]
  obtain ⟨htext, hfits⟩ := naive_fits hsound word
  have hin : ∀ p ∈ naive (Bpe.rule merges) (word.map (pieceOf t.vocab)), p.text t.vocab <:+: word := fun p hp => by
    rw [← htext]
    exact List.infix_of_mem_flatten (List.mem_map_of_mem hp)
  have hrenders : t.Renders (List.flatMap (emitPiece t.vocab unknown) (naive (Bpe.rule merges) (word.map (pieceOf t.vocab))))
      (List.flatMap (Piece.text t.vocab) (naive (Bpe.rule merges) (word.map (pieceOf t.vocab)))) := Renders.flatMap fun p hp => by
    cases p with
    | token id => exact renders_token hfree (hfits _ hp) (hin _ hp)
    | unknown c => exact hunknown c ((hin _ hp).subset List.mem_cons_self) (hfits _ hp)
  rwa [htext] at hrenders

theorem naiveText_fits [LinearOrder K] (scores : List K) (vocab : Vocab) (text : List Char) :
    (naive (Spm.rule scores vocab) (text.map fun c => [c])).flatten = text ∧
      ∀ p ∈ naive (Spm.rule scores vocab) (text.map fun c => [c]), (∃ id, vocab.get p = some id) ∨ ∃ c, p = [c] := by
  refine naive_kept (fun l => l.flatten = text ∧ ∀ p ∈ l, (∃ id, vocab.get p = some id) ∨ ∃ c, p = [c]) ?_
    ⟨Spm.flatten_singletons text, fun p hp => ?_⟩
  · intro front p q back score m hrule ⟨htext, hfits⟩
    obtain ⟨rfl, hscore⟩ := Spm.rule_some hrule
    refine ⟨?_, fun r hr => ?_⟩
    · rw [← htext]
      simp only [List.flatten_append, List.flatten_cons, List.append_assoc]
    · rcases List.mem_append.mp hr with hr | hr
      · exact hfits r (List.mem_append_left _ hr)
      rcases List.mem_cons.mp hr with rfl | hr
      · obtain ⟨id, hid, -⟩ := Option.bind_eq_some_iff.mp hscore
        exact .inl ⟨id, hid⟩
      · exact hfits r (List.mem_append_right _ (List.mem_cons_of_mem _ (List.mem_cons_of_mem _ hr)))
  · obtain ⟨c, -, rfl⟩ := List.mem_map.mp hp
    exact .inr ⟨c, rfl⟩

/-- **The ids of a text** render it, when the byte tokens of a character that is no token do. -/
theorem renders_tokenize [LinearOrder K] {t : Tokenizer K} (scores : List K) (heap : PopRule (Spm.Bigram K) Spm.Bigram.le)
    {text : List Char} (hfree : t.Free text)
    (hunknown : ∀ c ∈ text, t.vocab.get [c] = none → t.Renders (t.vocab.pushByteTokens [c]) [c]) :
    t.Renders (Spm.tokenize scores t.vocab text heap) text := by
  rw [Spm.tokenize_eq, Spm.naiveText]
  obtain ⟨htext, hfits⟩ := naiveText_fits scores t.vocab text
  have hin : ∀ p ∈ naive (Spm.rule scores t.vocab) (text.map fun c => [c]), p <:+: text := fun p hp => by
    rw [← htext]
    exact List.infix_of_mem_flatten hp
  have hrenders : t.Renders (List.flatMap (Spm.emitPiece t.vocab) (naive (Spm.rule scores t.vocab) (text.map fun c => [c])))
      (List.flatMap id (naive (Spm.rule scores t.vocab) (text.map fun c => [c]))) := Renders.flatMap fun p hp => by
    rcases hget : t.vocab.get p with _ | id
    · obtain ⟨c, rfl⟩ := (hfits p hp).resolve_left fun ⟨id, hid⟩ => nomatch hget.symm.trans hid
      rw [Spm.emitPiece, hget]
      exact hunknown c ((hin _ hp).subset List.mem_cons_self) hget
    · rw [Spm.emitPiece, hget]
      exact renders_get (hfree.of_infix (hin p hp)) hget
  rwa [List.flatMap_id, htext] at hrenders

/-! ## Fragments -/

theorem assemble_hidden {engine : Engine K} {rstrip : Bool} {special : Special}
    (h : special ∈ (assemble vocab engine rstrip).specials) : (assemble vocab engine rstrip).Hidden special.id := by
  obtain ⟨id, hid, rfl⟩ := List.mem_map.mp (List.mem_mergeSort.mp h)
  obtain ⟨hne, htype⟩ := Bool.and_eq_true_iff.mp (List.mem_filter.mp hid).2
  refine ⟨fun hnil => ?_, fun type heq hplain => ?_⟩
  · rw [show vocab.piece id = [] from hnil] at hne
    exact nomatch hne
  · rw [show vocab.tokenType id = some type from heq, Option.any_some, decide_eq_true_iff] at htype
    have hdisjoint : ∀ type ∈ specialTypes, type ∉ plainTypes := by decide
    exact hdisjoint type htype hplain

theorem new_eq {pieces : List (List Char)} {types : List Int} {kind : Kind K} {rstrip : Bool} {t : Tokenizer K}
    (h : Tokenizer.new pieces types kind rstrip = .ok t) :
    t = assemble t.vocab t.engine rstrip ∧ ∀ merges words, t.engine = .bpe merges words → merges.Sound t.vocab := by
  rw [Tokenizer.new] at h
  rcases hvocab : Vocab.new pieces types with error | vocab
  · rw [hvocab] at h
    exact nomatch h
  rw [hvocab] at h
  cases kind with
  | spm scores addSpacePrefix =>
    by_cases hcount : scores.length < pieces.length
    · simp [hcount, bind, Except.bind] at h
    · simp only [hcount, bind, Except.bind, if_false, pure, Except.pure] at h
      obtain rfl := Except.ok.inj h
      exact ⟨rfl, fun merges words heq => nomatch heq⟩
  | byte pre rules =>
    rcases hmerges : Merges.new vocab rules false with error | merges
    · simp [hmerges, bind, Except.bind, Except.map] at h
    · simp only [hmerges, bind, Except.bind, Except.map, pure, Except.pure] at h
      obtain rfl := Except.ok.inj h
      refine ⟨rfl, fun merges words heq => ?_⟩
      obtain ⟨rfl, -⟩ := Engine.bpe.inj heq
      exact Merges.new_sound hmerges
  | escaped rules =>
    rcases hmerges : Merges.new vocab rules true with error | merges
    · simp [hmerges, bind, Except.bind, Except.map] at h
    · simp only [hmerges, bind, Except.bind, Except.map, pure, Except.pure] at h
      obtain rfl := Except.ok.inj h
      refine ⟨rfl, fun merges words heq => ?_⟩
      obtain ⟨rfl, -⟩ := Engine.bpe.inj heq
      exact Merges.new_sound hmerges

theorem partitionSpecials_eq {t : Tokenizer K} {text : List Char}
    (h : ∀ special ∈ t.specials, ¬ t.vocab.piece special.id <:+: text) : t.partitionSpecials text = rawOf text := by
  rw [partitionSpecials, rawOf]
  split
  · rfl
  · generalize t.specials = specials at h ⊢
    induction specials with
    | nil => rfl
    | cons special specials ih =>
      have hcut : cutAll t.vocab (utf8 text) [.raw text] special = [.raw text] := by
        rw [cutAll]
        rcases hpiece : t.vocab.piece special.id with _ | ⟨lead, tail⟩
        · rfl
        · have hnone := Markers.find_eq_none_iff_infix.mpr (h special List.mem_cons_self)
          rw [hpiece] at hnone
          simp [hnone]
      rw [List.foldl_cons, hcut]
      exact ih fun special hspecial => h special (List.mem_cons_of_mem _ hspecial)

theorem newlineRuns_flatten (text : List Char) : (newlineRuns text).flatten = text := by
  induction text using newlineRuns.induct with
  | case1 => rw [newlineRuns, List.flatten_nil]
  | case2 first rest ih => rw [newlineRuns, List.flatten_cons, ih, List.cons_append, List.takeWhile_append_dropWhile]

/-! ## Vocabularies with byte tokens -/

deriving instance DecidableEq for Spm.Bigram

/-- Heaps that take the first of the least. -/
def Heaps.leastFirst : Heaps Nat where
  candidates := (PopRule.least fun c : Candidate => toLex (c.1, toLex c.2)).weaken fun a b h => by
    rcases Prod.Lex.le_iff.mp h with h | ⟨h, h'⟩
    · exact .inl h
    · exact .inr ⟨h, Prod.Lex.le_iff.mp h'⟩
  bigrams := (PopRule.least fun c : Spm.Bigram Nat => toLex (OrderDual.toDual c.score, c.left)).weaken fun a b h => by
    rcases Prod.Lex.le_iff.mp h with h | ⟨h, h'⟩
    · exact .inl h
    · exact .inr ⟨h, h'⟩

def byteTexts : List (List Char) := (List.range 256).map fun n => byteText (UInt8.ofNat n)

def fallback (front : List (List Char × Int)) : Vocab :=
  ⟨front.map Prod.fst ++ byteTexts, front.map Prod.snd ++ List.replicate 256 typeByte⟩

def plainSpm (front : List (List Char × Int)) : Tokenizer Nat :=
  assemble (fallback front) (.spm (List.replicate (front.length + 256) 0) false) false

theorem length_byteTexts : byteTexts.length = 256 := by simp [byteTexts]

variable {front : List (List Char × Int)}

theorem fallback_cases {id : Nat} (hne : (fallback front).piece id ≠ []) :
    (∃ entry ∈ front, (fallback front).piece id = entry.1 ∧ (fallback front).tokenType id = some entry.2) ∨
      ∃ byte, (fallback front).piece id = byteText byte ∧ (fallback front).tokenType id = some typeByte := by
  simp only [Vocab.piece, Vocab.tokenType, fallback, List.getD_eq_getElem?_getD] at hne ⊢
  by_cases hid : id < front.length
  · refine .inl ⟨front[id], List.getElem_mem hid, ?_, ?_⟩
    · rw [List.getElem?_append_left (by simpa using hid), List.getElem?_map, List.getElem?_eq_getElem hid]
      rfl
    · rw [List.getElem?_append_left (by simpa using hid), List.getElem?_map, List.getElem?_eq_getElem hid]
      rfl
  · rw [List.getElem?_append_right (by simpa using hid), List.length_map] at hne ⊢
    rw [List.getElem?_append_right (by simpa using hid), List.length_map]
    by_cases hbyte : id - front.length < 256
    · refine .inr ⟨UInt8.ofNat (id - front.length), ?_, List.getElem?_replicate_of_lt hbyte⟩
      rw [byteTexts, List.getElem?_map, List.getElem?_range hbyte]
      rfl
    · rw [List.getElem?_eq_none (by rw [length_byteTexts]; omega)] at hne
      exact (hne rfl).elim

theorem get_of_mem {text : List Char} (h : text ∈ vocab.pieces) (hne : text ≠ []) : ∃ id, vocab.get text = some id := by
  refine Option.isSome_iff_exists.mp ?_
  rw [Vocab.get, if_neg (by simpa using hne), List.findIdx?_isSome, List.any_eq_true]
  exact ⟨_, h, beq_self_eq_true _⟩

theorem fallback_covers (hfront : ∀ entry ∈ front, entry.1.length ≠ 6) : (plainSpm front).Covers := by
  intro byte
  have hmem : byteText byte ∈ (fallback front).pieces := by
    refine List.mem_append_right _ (List.mem_map.mpr ⟨byte.toNat, List.mem_range.mpr byte.toNat_lt, ?_⟩)
    rw [UInt8.ofNat_toNat]
  obtain ⟨id, hget⟩ := get_of_mem hmem (List.cons_ne_nil _ _)
  obtain ⟨hpiece, hne⟩ := Vocab.piece_of_get hget
  refine ⟨id, hget, ?_⟩
  rcases fallback_cases (hpiece ▸ hne) with ⟨entry, hentry, htext, -⟩ | ⟨byte', -, htype⟩
  · exact (hfront entry hentry (by rw [← htext, hpiece]; rfl)).elim
  · exact htype

theorem fallback_free {word : List Char}
    (hfront : ∀ entry ∈ front, entry.2 ∈ plainTypes ∨ ¬ entry.1 <:+: word) (hlength : word.length < 6) {engine : Engine K} {rstrip : Bool} :
    (assemble (fallback front) engine rstrip).Free word := by
  intro id ⟨hne, hhidden⟩ hin
  rcases fallback_cases hne with ⟨entry, hentry, htext, htype⟩ | ⟨byte, htext, -⟩
  · rcases hfront entry hentry with hplain | hout
    · exact hhidden entry.2 htype hplain
    · exact hout (htext ▸ hin)
  · have hle : ((fallback front).piece id).length ≤ word.length := hin.length_le
    rw [htext] at hle
    exact absurd (Nat.lt_of_le_of_lt hle hlength) (lt_irrefl 6)

theorem new_fallback (hfront : (front.map fun entry => (utf8 entry.1).length).sum < 2 ^ 31)
    (hlength : front.length < 2 ^ 31) : Vocab.new (fallback front).pieces (fallback front).types = .ok (fallback front) := by
  have hpieces : (fallback front).pieces.length = front.length + 256 := by
    rw [fallback, List.length_append, List.length_map, length_byteTexts]
  have htypes : (fallback front).types.length = front.length + 256 := by
    rw [fallback, List.length_append, List.length_map, List.length_replicate]
  have hbytes : (byteTexts.map fun piece => (utf8 piece).length).sum = 1536 := by decide +kernel
  have hsum : ((fallback front).pieces.map fun piece => (utf8 piece).length).sum < 2 ^ 31 + 1536 := by
    rw [fallback, List.map_append, List.sum_append, hbytes, List.map_map]
    exact Nat.add_lt_add_right hfront _
  rw [Vocab.new, if_neg (by omega), if_neg]
  simp only [Bool.or_eq_true, decide_eq_true_eq, not_or]
  omega

def alike (front : List (List Char × Int)) : Kind Nat := .spm (List.replicate (front.length + 256) 0) false

theorem new_plainSpm (hfront : (front.map fun entry => (utf8 entry.1).length).sum < 2 ^ 31)
    (hlength : front.length < 2 ^ 31) :
    Tokenizer.new (fallback front).pieces (fallback front).types (alike front) false = .ok (plainSpm front) := by
  have hpieces : (fallback front).pieces.length = front.length + 256 := by
    rw [fallback, List.length_append, List.length_map, length_byteTexts]
  rw [Tokenizer.new, new_fallback hfront hlength, alike]
  dsimp only [bind, Except.bind]
  rw [List.length_replicate, if_neg (by omega), List.take_of_length_le (by rw [List.length_replicate]; omega)]
  rfl

/-! ## The text again -/

theorem utf8EncodeChar_space : String.utf8EncodeChar ' ' = [0x20] := by decide

theorem render_escaped {engine : Engine K} (hengine : ∀ c, engine.renderChar c =
    if c = Spm.spaceMark then [0x20] else String.utf8EncodeChar c) {text : List Char} (hmark : Spm.spaceMark ∉ text) :
    (text.map escape).flatMap engine.renderChar = utf8 text := by
  rw [List.flatMap_map, utf8]
  refine List.flatMap_congr fun c hc => ?_
  rw [hengine, escape]
  by_cases hspace : c = ' '
  · rw [if_pos hspace, if_pos rfl, hspace, utf8EncodeChar_space]
  · have hne : c ≠ Spm.spaceMark := fun heq => hmark (heq ▸ hc)
    rw [if_neg hspace, if_neg hne]

theorem render_alphabet {pre : Pretokenizer} (bytes : List UInt8) :
    (bytes.map byteToChar).flatMap (Engine.renderChar (K := K) (.bpe merges (.byte pre))) = bytes := by
  induction bytes with
  | nil => rfl
  | cons byte bytes ih =>
    rw [List.map_cons, List.flatMap_cons, ih, Engine.renderChar, charToByte_byteToChar]
    rfl

theorem renders_bytes {t : Tokenizer K} (hengine : ∀ c, t.engine.renderChar c =
    if c = Spm.spaceMark then [0x20] else String.utf8EncodeChar c)
    (hcovers : ∀ byte, ∃ id, t.vocab.byteToken byte = some id ∧ t.vocab.tokenType id = some typeByte) {c : Char}
    (hmark : c ≠ Spm.spaceMark) : t.Renders (t.vocab.pushByteTokens [c]) [c] := by
  rw [Renders, decode_pushByteTokens hcovers, List.flatMap_singleton, hengine, if_neg hmark, utf8, List.flatMap_singleton]

theorem ne_mark {word : List Char} (hcovered : Spm.spaceMark ∈ word → ∃ id, vocab.get [Spm.spaceMark] = some id)
    {c : Char} (hc : c ∈ word) (hnone : vocab.get [c] = none) : c ≠ Spm.spaceMark := by
  intro heq
  rw [heq] at hc hnone
  obtain ⟨id, hid⟩ := hcovered hc
  exact nomatch hid.symm.trans hnone

theorem render_spelled {t : Tokenizer K} {text : List Char} (hmark : Spm.spaceMark ∉ text) :
    (t.spelled text).flatMap t.engine.renderChar = utf8 (t.written text) := by
  have hwritten : Spm.spaceMark ∉ t.written text := by
    rw [written]
    split
    · split
      · exact List.not_mem_nil
      · exact fun hmem => (List.mem_cons.mp hmem).elim (by decide) hmark
    · exact hmark
  obtain ⟨vocab, engine, specials⟩ := t
  rcases engine with ⟨scores, prefixed⟩ | ⟨merges, pre | _⟩
  · exact render_escaped (fun _ => rfl) hwritten
  · exact render_alphabet _
  · exact render_escaped (fun _ => rfl) hwritten

section
variable [LinearOrder K] (heaps : Heaps K) (u : Unicode)

theorem renders_wordIds {t : Tokenizer K} {merges : Merges} (hsound : merges.Sound t.vocab) {unknown : Unknown} {lookedUp : Bool}
    {word : List Char} (hfree : t.Free word)
    (hunknown : ∀ c ∈ word, t.vocab.get [c] = none → t.Renders (emitPiece t.vocab unknown (.unknown c)) [c]) :
    t.Renders (wordIds heaps merges t.vocab unknown lookedUp word) word := by
  rw [wordIds]
  split
  · rename_i id hid
    split at hid
    · exact renders_get hfree hid
    · exact nomatch hid
  · exact renders_mergeWord hsound heaps.candidates hfree hunknown

theorem renders_encodeRaw {t : Tokenizer K} (hsound : ∀ merges words, t.engine = .bpe merges words → merges.Sound t.vocab)
    {text : List Char} (hne : text ≠ []) (hcovers : t.Covers) (hfree : t.Free (t.spelled text)) (hcovered : t.MarkCovered text) :
    t.Renders (t.encodeRaw heaps u text true) (t.spelled text) := by
  have hempty : text.isEmpty = false := List.isEmpty_eq_false_iff.mpr hne
  obtain ⟨vocab, engine, specials⟩ := t
  rcases engine with ⟨scores, _ | _⟩ | ⟨merges, pre | _⟩
  · refine renders_tokenize scores heaps.bigrams hfree fun c hc hnone => ?_
    exact renders_bytes (fun _ => rfl) hcovers (ne_mark hcovered hc hnone)
  · have htext : Spm.fragmentText true true text = Tokenizer.spelled ⟨vocab, .spm scores true, specials⟩ text := by
      rw [Tokenizer.spelled]
      dsimp only
      rw [written]
      dsimp only
      rw [hempty]
      rfl
    show Renders _ (Spm.tokenize scores vocab (Spm.fragmentText true true text) heaps.bigrams) _
    rw [htext]
    refine renders_tokenize scores heaps.bigrams hfree fun c hc hnone => ?_
    exact renders_bytes (fun _ => rfl) hcovers (ne_mark hcovered hc hnone)
  · have hwords : (pre.split u text).flatMap (fun word => (utf8 word).map byteToChar) = (utf8 text).map byteToChar := by
      rw [← List.map_flatMap]
      refine congrArg _ ?_
      conv_rhs => rw [← split_flatten u pre text]
      rw [utf8, ← List.flatMap_id, List.flatMap_assoc]
      rfl
    show Renders _ _ ((utf8 text).map byteToChar)
    rw [← hwords]
    refine Renders.flatMap fun word hword => ?_
    have hin : (utf8 word).map byteToChar <:+: (utf8 text).map byteToChar := by
      rw [← hwords]
      exact List.infix_of_mem_flatten (List.mem_map_of_mem hword)
    refine renders_wordIds heaps (hsound _ _ rfl) (hfree.of_infix hin) fun c hc hnone => ?_
    obtain ⟨byte, -, rfl⟩ := List.mem_map.mp hc
    obtain ⟨id, hid⟩ := hcovers byte
    cases hid.symm.trans hnone
  · have hwords : (newlineRuns (text.map escape)).flatMap id = text.map escape := by
      rw [List.flatMap_id, newlineRuns_flatten]
    show Renders _ _ (text.map escape)
    rw [← hwords]
    refine Renders.flatMap fun word hword => ?_
    have hin : word <:+: text.map escape := by
      rw [← newlineRuns_flatten (text.map escape)]
      exact List.infix_of_mem_flatten hword
    refine renders_wordIds heaps (hsound _ _ rfl) (hfree.of_infix hin) fun c hc hnone => ?_
    exact renders_bytes (fun _ => rfl) hcovers (ne_mark hcovered (hin.subset hc) hnone)

theorem encode_eq {t : Tokenizer K} {text : List Char} (hne : text ≠ [])
    (hspecials : ∀ special ∈ t.specials, ¬ t.vocab.piece special.id <:+: text) :
    t.encode heaps u text = t.encodeRaw heaps u text true := by
  rw [encode, partitionSpecials_eq hspecials, rawOf, if_neg (by simpa using hne), encodeFragments, encodeFragments, List.append_nil]

/-- **Tokenization is lossless**: the bytes of a text's ids are those of the text. -/
theorem encode_lossless {pieces : List (List Char)} {types : List Int} {kind : Kind K} {rstrip : Bool} {t : Tokenizer K}
    (hnew : Tokenizer.new pieces types kind rstrip = .ok t) (hcovers : t.Covers) {text : List Char} (hmark : Spm.spaceMark ∉ text)
    (hfree : t.Free text) (hspelled : t.Free (t.spelled text)) (hcovered : t.MarkCovered text) :
    (t.encode heaps u text).flatMap t.decodeInto = utf8 (t.written text) := by
  obtain ⟨hassemble, hsound⟩ := new_eq hnew
  have hspecials : ∀ special ∈ t.specials, ¬ t.vocab.piece special.id <:+: text := fun special h =>
    hfree special.id (by rw [hassemble] at h ⊢; exact assemble_hidden h)
  by_cases hne : text = []
  · have hwritten : t.written [] = [] := by
      rw [written]
      split <;> rfl
    rw [hne, hwritten]
    rfl
  · rw [encode_eq heaps u hne hspecials, ← render_spelled hmark]
    exact renders_encodeRaw heaps u hsound hne hcovers hspelled hcovered

end

theorem encode_lossless_plainSpm :
    ((plainSpm [([Spm.spaceMark], typeNormal), (['a', 'b'], typeNormal)]).encode Heaps.leastFirst asciiOnly ['a', 'b', ' ', 'c']).flatMap
        (plainSpm [([Spm.spaceMark], typeNormal), (['a', 'b'], typeNormal)]).decodeInto = utf8 ['a', 'b', ' ', 'c'] :=
  encode_lossless Heaps.leastFirst asciiOnly (new_plainSpm (by decide) (by decide)) (fallback_covers (by decide)) (by decide)
    (fallback_free (by decide) (by decide)) (fallback_free (by decide) (by decide)) fun _ => ⟨0, rfl⟩

/-! ## What is lost -/

/-- No special token and no byte token is spelled in the text. -/
def SpecialFree (t : Tokenizer K) (text : List Char) : Prop :=
  ∀ id type, t.vocab.tokenType id = some type → type ∈ typeByte :: specialTypes → t.vocab.piece id ≠ [] →
    ¬ t.vocab.piece id <:+: text

theorem fallback_specialFree {front : List (List Char × Int)} {text : List Char}
    (hfront : ∀ entry ∈ front, entry.2 ∈ typeByte :: specialTypes → ¬ entry.1 <:+: text) (hlength : text.length < 6)
    {engine : Engine K} {rstrip : Bool} : (assemble (fallback front) engine rstrip).SpecialFree text := by
  intro id type htype hspecial hne hin
  rcases fallback_cases hne with ⟨entry, hentry, htext, hentryType⟩ | ⟨byte, htext, -⟩
  · obtain rfl := Option.some.inj (hentryType.symm.trans htype)
    exact hfront entry hentry hspecial (htext ▸ hin)
  · have hle : ((fallback front).piece id).length ≤ text.length := hin.length_le
    rw [htext] at hle
    exact absurd (Nat.lt_of_le_of_lt hle hlength) (lt_irrefl 6)

theorem encode_specialFree [LinearOrder K] (heaps : Heaps K) (u : Unicode) {vocab : Vocab} {engine : Engine K} {rstrip : Bool} {text : List Char}
    (hne : text ≠ []) (hfree : (assemble vocab engine rstrip).SpecialFree text) :
    (assemble vocab engine rstrip).encode heaps u text = (assemble vocab engine rstrip).encodeRaw heaps u text true := by
  refine encode_eq heaps u hne fun special hspecial => ?_
  obtain ⟨id, hid, rfl⟩ := List.mem_map.mp (List.mem_mergeSort.mp hspecial)
  obtain ⟨hpiece, htype⟩ := Bool.and_eq_true_iff.mp (List.mem_filter.mp hid).2
  obtain ⟨type, heq, hmem⟩ := (Option.any_eq_true _ _).mp htype
  refine hfree id type heq (List.mem_cons_of_mem _ (of_decide_eq_true hmem)) fun hnil => ?_
  rw [show vocab.piece id = [] from hnil] at hpiece
  exact nomatch hpiece

/-- A text whose bytes are not given back, though every byte is covered and no special token and no byte token is spelled in it. -/
def Lost (front : List (List Char × Int)) (kind : Kind Nat) (t : Tokenizer Nat) (text : List Char) : Prop :=
  Tokenizer.new (fallback front).pieces (fallback front).types kind false = .ok t ∧
    t.Covers ∧ Spm.spaceMark ∉ text ∧ t.SpecialFree text ∧
    (t.encode Heaps.leastFirst asciiOnly text).flatMap t.decodeInto ≠ utf8 (t.written text)

theorem lost_plainSpm {front : List (List Char × Int)} {text : List Char}
    (hfront : ∀ entry ∈ front, entry.1.length ≠ 6 ∧ (entry.2 ∈ typeByte :: specialTypes → ¬ entry.1 <:+: text))
    (hsum : (front.map fun entry => (utf8 entry.1).length).sum < 2 ^ 31) (hlength : front.length < 2 ^ 31) (hne : text ≠ [])
    (hmark : Spm.spaceMark ∉ text) (htext : text.length < 6)
    (h : (Spm.naiveText (List.replicate (front.length + 256) 0) (fallback front) (text.map escape)).flatMap (plainSpm front).decodeInto ≠
      utf8 text) : Lost front (alike front) (plainSpm front) text := by
  have hfree : (plainSpm front).SpecialFree text := fallback_specialFree (fun entry hentry => (hfront entry hentry).2) htext
  refine ⟨new_plainSpm hsum hlength, fallback_covers fun entry hentry => (hfront entry hentry).1, hmark, hfree, ?_⟩
  rw [plainSpm, encode_specialFree _ _ hne hfree]
  show (Spm.tokenize _ _ _ Heaps.leastFirst.bigrams).flatMap _ ≠ _
  rw [Spm.tokenize_eq]
  exact h

/-- The pieces of the alphabet, after a token of two of them that renders nothing. -/
def alphabetFront : List (List Char × Int) :=
  (['\u0120'], typeNormal) :: (['a'], typeNormal) :: (['\u0120', 'a'], typeControl) ::
    (List.range 256).map fun n => ([byteToChar (UInt8.ofNat n)], typeNormal)

def gpt2Words : Pretokenizer := ⟨[.gpt2], false, false⟩

def alphabetBpe : Tokenizer Nat := assemble (fallback alphabetFront) (.bpe ⟨[((0, 1), (0, 2))]⟩ (.byte gpt2Words)) false

theorem lost_alphabetBpe : Lost alphabetFront (.byte gpt2Words [['\u0120', ' ', 'a']]) alphabetBpe [' ', 'a'] := by
  have hfree : alphabetBpe.SpecialFree [' ', 'a'] := fallback_specialFree (by decide +kernel) (by decide)
  refine ⟨?_, fun byte => ?_, by decide, hfree, ?_⟩
  · rw [Tokenizer.new, new_fallback (by decide +kernel) (by decide +kernel)]
    rfl
  · have hmem : [byteToChar byte] ∈ (fallback alphabetFront).pieces := by
      refine List.mem_append_left _ (List.mem_map.mpr ⟨([byteToChar byte], typeNormal), ?_, rfl⟩)
      refine List.mem_cons_of_mem _ (List.mem_cons_of_mem _ (List.mem_cons_of_mem _ (List.mem_map.mpr ⟨byte.toNat, ?_, ?_⟩)))
      · exact List.mem_range.mpr byte.toNat_lt
      · rw [UInt8.ofNat_toNat]
    exact get_of_mem hmem (List.cons_ne_nil _ _)
  · rw [alphabetBpe, encode_specialFree _ _ (List.cons_ne_nil _ _) hfree]
    have hsplit : gpt2Words.split asciiOnly [' ', 'a'] = [[' ', 'a']] := by
      show splitStage asciiOnly .gpt2 [[' ', 'a']] = _
      rw [splitStage, List.flatMap_singleton, splitPiece, show matchAt asciiOnly .gpt2 [' ', 'a'] = some (1 + 1) by decide]
      dsimp only
      rw [List.drop_succ_cons, List.drop_zero, splitPiece]
      rfl
    show ((gpt2Words.split asciiOnly [' ', 'a']).flatMap _).flatMap _ ≠ _
    rw [hsplit, List.flatMap_singleton]
    show (mergeWord _ _ Heaps.leastFirst.candidates _ ['\u0120', 'a']).flatMap _ ≠ _
    rw [mergeWord_eq, naiveWord, naive_some rfl, naive_none rfl]
    decide

def markFront : List (List Char × Int) := [([Spm.spaceMark], typeNormal), ([Spm.spaceMark, Spm.spaceMark], typeUserDefined)]

/-- **What is lost**: a space without its mark, spaces whose marks are a token, a control token in the alphabet, and a token of a
type that is none of the known ones. -/
theorem not_lossless :
    Lost [] (alike []) (plainSpm []) [' '] ∧ Lost markFront (alike markFront) (plainSpm markFront) [' ', ' '] ∧
    Lost alphabetFront (.byte gpt2Words [['\u0120', ' ', 'a']]) alphabetBpe [' ', 'a'] ∧
    Lost [(['a'], 7)] (alike [(['a'], 7)]) (plainSpm [(['a'], 7)]) ['a'] := by
  refine ⟨?_, ?_, lost_alphabetBpe, ?_⟩
  · refine lost_plainSpm (by decide) (by decide) (by decide) (List.cons_ne_nil _ _) (by decide) (by decide) ?_
    have hget : (fallback []).get [Spm.spaceMark] = none := by decide +kernel
    rw [Spm.naiveText, naive_none rfl, List.map_singleton, List.map_singleton, List.flatMap_singleton, Spm.emitPiece,
      show escape ' ' = Spm.spaceMark from rfl, hget]
    show ((plainSpm []).vocab.pushByteTokens [Spm.spaceMark]).flatMap _ ≠ _
    rw [decode_pushByteTokens (fallback_covers (by decide))]
    decide
  · refine lost_plainSpm (by decide) (by decide) (by decide) (List.cons_ne_nil _ _) (by decide) (by decide) ?_
    rw [Spm.naiveText, naive_some rfl, naive_none rfl]
    decide
  · refine lost_plainSpm (by decide) (by decide) (by decide) (List.cons_ne_nil _ _) (by decide) (by decide) ?_
    rw [Spm.naiveText, naive_none rfl]
    decide

end Cuca.Local.Tokenizer
