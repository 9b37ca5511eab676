import Cuca.Types
import Mathlib.Data.List.DropRight

/-!
# Redaction policies

The rules of a policy, what a policy must satisfy, and the matchers it is compiled to. A text is its UTF-8 bytes.

* `RedactionRule`, `RedactionConfig`, `validate`;
* `CompiledMatcher.findFrom` : the leftmost match at or after a byte;
* `CompiledRule.compile` : a matcher with its replacement token.
-/

namespace Cuca.Redaction

abbrev Bytes := List UInt8

def bytesOf (s : String) : Bytes := s.toUTF8.data.toList

inductive RedactionRule where
  | literal (kind value : String)
  | prefixed (kind pattern : String) (minLen maxLen : Nat)
  | emailLike (kind : String)
  | digitRun (kind : String) (minDigits maxDigits : Nat)
  deriving DecidableEq, Repr

def RedactionRule.kind : RedactionRule → String
  | literal kind _ => kind
  | prefixed kind _ _ _ => kind
  | emailLike kind => kind
  | digitRun kind _ _ => kind

structure RedactionConfig where
  rules : List RedactionRule
  maxMatchesPerText : Nat
  scrubToolDefinitions : Bool
  deriving Repr

def maxRules : Nat := 256
def maxPatternBytes : Nat := 512
def maxKindBytes : Nat := 32
def maxMatchesPerTextCeiling : Nat := 4096
def redactionMarker : String := "[REDACTED:"

def RedactionConfig.default : RedactionConfig := ⟨[], 1024, true⟩

def invalid (message : String) : PluginError := .validation "redaction-config" message

/-! ## Searches -/

/-- `memmem` : the first place of the needle. -/
def findSub (needle : Bytes) : Bytes → Option Nat
  | [] => if needle.isEmpty then some 0 else none
  | b :: bytes => if needle.isPrefixOf (b :: bytes) then some 0 else (findSub needle bytes).map (· + 1)

def isDigit (b : UInt8) : Bool := 48 ≤ b && b ≤ 57

def isLower (b : UInt8) : Bool := 97 ≤ b && b ≤ 122

def isAlphanumeric (b : UInt8) : Bool := isDigit b || isLower b || (65 ≤ b && b ≤ 90)

/-- A byte of the token alphabet: alphanumeric, `-` or `_`. -/
def isTokenByte (b : UInt8) : Bool := isAlphanumeric b || b == 45 || b == 95

/-- A byte of a local part: alphanumeric, `.`, `_`, `%`, `+` or `-`. -/
def isEmailLocalByte (b : UInt8) : Bool := isAlphanumeric b || b == 46 || b == 95 || b == 37 || b == 43 || b == 45

/-- A byte of a domain: alphanumeric, `.` or `-`. -/
def isEmailDomainByte (b : UInt8) : Bool := isAlphanumeric b || b == 46 || b == 45

def tokenRun (maxLen : Nat) (bytes : Bytes) : Nat := ((bytes.take maxLen).takeWhile isTokenByte).length

/-- Occurrences of the needle from the cursor on, until one has enough token bytes behind it. -/
def findPrefixed (needle : Bytes) (minLen maxLen : Nat) (bytes : Bytes) : Nat → Nat → Option (Nat × Nat)
  | 0, _ => none
  | fuel + 1, cursor =>
    match findSub needle (bytes.drop cursor) with
    | none => none
    | some hit =>
      let start := cursor + hit
      let body := start + needle.length
      let run := tokenRun maxLen (bytes.drop body)
      if run ≥ minLen then some (start, body + run) else findPrefixed needle minLen maxLen bytes fuel (start + 1)

def emailDomain (bytes : Bytes) : Bytes := (bytes.takeWhile isEmailDomainByte).rdropWhile fun b => !isAlphanumeric b

def isDomain (domain : Bytes) : Bool := 3 ≤ domain.length && domain.head? != some 46 && domain.contains 46

/-- The `@`s from the cursor on, until one has a local part before it and a domain behind it. -/
def findEmail (bytes : Bytes) : Nat → Nat → Option (Nat × Nat)
  | 0, _ => none
  | fuel + 1, cursor =>
    match (bytes.drop cursor).findIdx? (· == 64) with
    | none => none
    | some hit =>
      let sign := cursor + hit
      -- leftward over the local part, then on to its first alphanumeric byte
      let localPart := ((bytes.take sign).rtakeWhile isEmailLocalByte).dropWhile fun b => !isAlphanumeric b
      let start := sign - localPart.length
      let domain := emailDomain (bytes.drop (sign + 1))
      if start < sign ∧ isDomain domain = true then some (start, sign + 1 + domain.length)
      else findEmail bytes fuel (sign + 1)

/-- Walks a run of digits with single separators between them: its digits and its end, or at once the end of the last digit
that is allowed. -/
def digitWalk (maxDigits : Nat) : Bytes → Nat → Nat → Nat → Except Nat (Nat × Nat)
  | [], _, digits, runEnd => .ok (digits, runEnd)
  | b :: bytes, cursor, digits, runEnd =>
    if isDigit b then
      if digits + 1 = maxDigits then .error (cursor + 1)
      else digitWalk maxDigits bytes (cursor + 1) (digits + 1) (cursor + 1)
    else if (b == 45 || b == 32) && (bytes.head?.any isDigit) then digitWalk maxDigits bytes (cursor + 1) digits runEnd
    else .ok (digits, runEnd)

/-- Runs of digits from a byte on, until one is long enough; a shorter one is skipped whole. -/
def findDigitRun (minDigits maxDigits : Nat) (bytes : Bytes) : Nat → Nat → Option (Nat × Nat)
  | 0, _ => none
  | fuel + 1, start =>
    match bytes.drop start with
    | [] => none
    | b :: rest =>
      if isDigit b then
        match digitWalk maxDigits (b :: rest) start 0 start with
        | .error stop => some (start, stop)
        | .ok (digits, runEnd) =>
          if digits ≥ minDigits then some (start, runEnd) else findDigitRun minDigits maxDigits bytes fuel runEnd
      else findDigitRun minDigits maxDigits bytes fuel (start + 1)

/-! ## Compiled rules -/

inductive CompiledMatcher where
  | literal (needle : Bytes)
  | prefixed (needle : Bytes) (minLen maxLen : Nat)
  | emailLike
  | digitRun (minDigits maxDigits : Nat)

/-- The leftmost match in the bytes. -/
def CompiledMatcher.find (m : CompiledMatcher) (bytes : Bytes) : Option (Nat × Nat) :=
  match m with
  | literal needle => (findSub needle bytes).map fun hit => (hit, hit + needle.length)
  | prefixed needle minLen maxLen => findPrefixed needle minLen maxLen bytes (bytes.length + 1) 0
  | emailLike => findEmail bytes (bytes.length + 1) 0
  | digitRun minDigits maxDigits => findDigitRun minDigits maxDigits bytes (bytes.length + 1) 0

def CompiledMatcher.findFrom (m : CompiledMatcher) (text : Bytes) (start : Nat) : Option (Nat × Nat) :=
  (m.find (text.drop start)).map fun span => (start + span.1, start + span.2)

structure CompiledRule where
  kind : String
  replacement : Bytes
  matcher : CompiledMatcher

def replacementOf (kind : String) : String := redactionMarker ++ kind ++ "]"

def CompiledRule.compile (rule : RedactionRule) : CompiledRule where
  kind := rule.kind
  replacement := bytesOf (replacementOf rule.kind)
  matcher := match rule with
    | .literal _ value => .literal (bytesOf value)
    | .prefixed _ pattern minLen maxLen => .prefixed (bytesOf pattern) minLen maxLen
    | .emailLike _ => .emailLike
    | .digitRun _ minDigits maxDigits => .digitRun minDigits maxDigits

/-! ## Validation -/

section
variable (debug : String → String)

def isKindByte (b : UInt8) : Bool := isLower b || isDigit b || b == 45 || b == 95

/-- `debug` is the `Debug` text of a string. -/
def validateKind (index : Nat) (kind : String) : Except PluginError Unit :=
  if kind.isEmpty then .error (invalid s!"rules[{index}].kind must not be empty")
  else if kind.utf8ByteSize > maxKindBytes then
    let size := kind.utf8ByteSize
    .error (invalid s!"rules[{index}].kind is {size} bytes, over MAX_KIND_BYTES ({maxKindBytes})")
  else if !(bytesOf kind).all isKindByte then
    let text := debug kind
    .error (invalid s!"rules[{index}].kind must be an ASCII slug of [a-z0-9_-]; got {text}")
  else .ok ()

def validatePattern (index : Nat) (field pattern : String) : Except PluginError Unit :=
  if pattern.isEmpty then .error (invalid s!"rules[{index}].{field} must not be empty")
  else if pattern.utf8ByteSize > maxPatternBytes then
    let size := pattern.utf8ByteSize
    .error (invalid s!"rules[{index}].{field} is {size} bytes, over MAX_PATTERN_BYTES ({maxPatternBytes})")
  else .ok ()

def validateRule (index : Nat) : RedactionRule → Except PluginError Unit
  | .literal kind value =>
    match validateKind debug index kind, validatePattern index "value" value with
    | .error e, _ => .error e
    | .ok (), .error e => .error e
    | .ok (), .ok () =>
      if (findSub (bytesOf redactionMarker) (bytesOf value)).isSome then
        .error (invalid (s!"rules[{index}].value contains the replacement marker \"[REDACTED:\", which would " ++
          "make scrubbing non-idempotent"))
      else .ok ()
  | .prefixed kind pattern minLen maxLen =>
    match validateKind debug index kind, validatePattern index "prefix" pattern with
    | .error e, _ => .error e
    | .ok (), .error e => .error e
    | .ok (), .ok () =>
      if minLen > maxLen then
        .error (invalid s!"rules[{index}].min_len ({minLen}) is over rules[{index}].max_len ({maxLen})")
      else .ok ()
  | .emailLike kind => validateKind debug index kind
  | .digitRun kind minDigits maxDigits =>
    match validateKind debug index kind with
    | .error e => .error e
    | .ok () =>
      if minDigits = 0 then
        .error (invalid (s!"rules[{index}].min_digits must be non-zero: a zero-digit run matches " ++ "everywhere"))
      else if minDigits > maxDigits then
        .error (invalid (s!"rules[{index}].min_digits ({minDigits}) is over rules[{index}].max_digits " ++
          s!"({maxDigits})"))
      else .ok ()

def validateRules (index : Nat) : List RedactionRule → Except PluginError Unit
  | [] => .ok ()
  | rule :: rules =>
    match validateRule debug index rule with
    | .error e => .error e
    | .ok () => validateRules (index + 1) rules

def RedactionConfig.validate (config : RedactionConfig) : Except PluginError Unit :=
  if config.rules.isEmpty then
    .error (invalid "rules must not be empty: an empty policy is an inert no-op, not a redaction policy")
  else if config.rules.length > maxRules then
    let count := config.rules.length
    .error (invalid s!"rules holds {count} entries, over MAX_RULES ({maxRules})")
  else
    match validateRules debug 0 config.rules with
    | .error e => .error e
    | .ok () =>
      if config.maxMatchesPerText = 0 then
        .error (invalid "max_matches_per_text must be non-zero: a zero cap refuses every dirty string")
      else if config.maxMatchesPerText > maxMatchesPerTextCeiling then
        let cap := config.maxMatchesPerText
        .error (invalid s!"max_matches_per_text ({cap}) is over MAX_MATCHES_PER_TEXT ({maxMatchesPerTextCeiling})")
      else .ok ()

/-- `RedactionConfig::new` : the defaults for the rest. -/
def RedactionConfig.new (rules : List RedactionRule) : Except PluginError RedactionConfig :=
  let config := { RedactionConfig.default with rules := rules }
  match config.validate debug with
  | .error e => .error e
  | .ok () => .ok config

end

/-! ## What validation gives -/

/-- A rule as validation leaves it. -/
def RedactionRule.Valid (rule : RedactionRule) : Prop :=
  (bytesOf rule.kind).all isKindByte = true ∧
    match rule with
    | literal _ value => bytesOf value ≠ []
    | prefixed _ pattern minLen maxLen => bytesOf pattern ≠ [] ∧ minLen ≤ maxLen
    | emailLike _ => True
    | digitRun _ minDigits maxDigits => 0 < minDigits ∧ minDigits ≤ maxDigits

variable {debug : String → String}

theorem validateKind_ok {index : Nat} {kind : String} (h : validateKind debug index kind = .ok ()) :
    (bytesOf kind).all isKindByte = true := by
  unfold validateKind at h
  split_ifs at h with hempty hlong hslug
  simpa using hslug

theorem bytesOf_eq_nil_iff {s : String} : bytesOf s = [] ↔ s = "" := by
  rw [bytesOf, Array.toList_eq_nil_iff, ← Array.size_eq_zero_iff]
  exact String.utf8ByteSize_eq_zero_iff

theorem validatePattern_ok {index : Nat} {field pattern : String} (h : validatePattern index field pattern = .ok ()) :
    bytesOf pattern ≠ [] := by
  unfold validatePattern at h
  split_ifs at h with hempty hlong
  intro hnil
  apply hempty
  rw [bytesOf_eq_nil_iff.mp hnil]
  rfl

theorem validateRule_ok {index : Nat} {rule : RedactionRule}
    (h : validateRule debug index rule = .ok ()) : rule.Valid := by
  cases rule with
  | literal kind value =>
    rw [validateRule] at h
    split at h
    · exact nomatch h
    · exact nomatch h
    · rename_i hkind hpattern
      exact ⟨validateKind_ok hkind, validatePattern_ok hpattern⟩
  | prefixed kind pattern minLen maxLen =>
    rw [validateRule] at h
    split at h
    · exact nomatch h
    · exact nomatch h
    · rename_i hkind hpattern
      split_ifs at h with hbounds
      exact ⟨validateKind_ok hkind, validatePattern_ok hpattern, Nat.not_lt.mp hbounds⟩
  | emailLike kind => exact ⟨validateKind_ok h, trivial⟩
  | digitRun kind minDigits maxDigits =>
    rw [validateRule] at h
    split at h
    · exact nomatch h
    · rename_i hkind
      split_ifs at h with hzero hbounds
      exact ⟨validateKind_ok hkind, Nat.pos_of_ne_zero hzero, Nat.not_lt.mp hbounds⟩

theorem validateRules_ok {index : Nat} {rules : List RedactionRule}
    (h : validateRules debug index rules = .ok ()) : ∀ rule ∈ rules, rule.Valid := by
  induction rules generalizing index with
  | nil => exact fun _ hr => absurd hr List.not_mem_nil
  | cons rule rules ih =>
    rw [validateRules] at h
    split at h
    · exact nomatch h
    · rename_i hrule
      exact List.forall_mem_cons.mpr ⟨validateRule_ok hrule, ih h⟩

theorem validate_ok {config : RedactionConfig} (h : config.validate debug = .ok ()) :
    ∀ rule ∈ config.rules, rule.Valid := by
  rw [RedactionConfig.validate] at h
  split at h
  · exact nomatch h
  split at h
  · exact nomatch h
  split at h
  · exact nomatch h
  · rename_i hrules
    exact validateRules_ok hrules

end Cuca.Redaction
