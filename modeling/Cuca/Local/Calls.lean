import Cuca.Lib.Parsing
import Cuca.Local.Output

/-!
# Tool calls in JSON

`{"name": …, "arguments"|"parameters": …}`, alone or in a list. The name may stand in `function`, and the call in a nested object.

The reader of JSON is `serde_json`, which is a parameter.

* `jsonCall`, `parseJsonCalls` : a call, and the calls of a body;
* `parseJsonCalls_ne_nil` : a body that is accepted has a call;
* `isJsonNumber` : what is read as a number;
* `members`, `items`, `value` : objects, arrays and values, up to a depth;
* `parseToolCall` : the name and the arguments of a call.
-/

namespace Cuca.Local.Calls
open Sse

section
variable (fromStr : String → Except String Value)

def isObject : Value → Bool
  | .object _ => true
  | _ => false

def isString : Value → Bool
  | .string _ => true
  | _ => false

/-- One call; its arguments are an object, nothing, or a string that holds an object. -/
def jsonCall (outer : Value) (requireArguments : Bool) : Except String (String × Value) :=
  if isObject outer then
    let inner := ((outer.get "function").filter isObject).getD outer
    let name := ((inner.get "name").or (outer.get "name")).or ((outer.get "function").filter isString)
    match (name.bind Value.asStr).filter fun name => !name.isEmpty with
    | none => .error "missing tool name"
    | some name =>
      let arguments := ((inner.get "arguments").or (inner.get "parameters")).or ((outer.get "arguments").or (outer.get "parameters"))
      match arguments with
      | none => if requireArguments then .error "missing arguments" else .ok (name, .object [])
      | some .null => .ok (name, .object [])
      | some (.object members) => .ok (name, .object members)
      | some (.string text) =>
        match fromStr text with
        | .ok (.object members) => .ok (name, .object members)
        | _ => .error "arguments string is not a JSON object"
      | some _ => .error "arguments are not a JSON object"
  else .error "tool call is not a JSON object"

def parseJsonCalls (body : String) (requireArguments : Bool) : Except String (List (String × Value)) :=
  match fromStr (String.ofList (Sse.trim body)) with
  | .error e => .error e
  | .ok (.array []) => .error "empty tool-call list"
  | .ok (.array (first :: rest)) => (first :: rest).mapM fun item => jsonCall fromStr item requireArguments
  | .ok other => (jsonCall fromStr other requireArguments).map fun call => [call]

theorem parseJsonCalls_ne_nil (body : String) (requireArguments : Bool) {calls : List (String × Value)}
    (h : parseJsonCalls fromStr body requireArguments = .ok calls) : calls ≠ [] := by
  unfold parseJsonCalls at h
  split at h
  · exact absurd h (by simp)
  · exact absurd h (by simp)
  · rename_i first rest _
    rw [List.mapM_cons] at h
    cases hfirst : jsonCall fromStr first requireArguments with
    | error e =>
      rw [hfirst] at h
      exact absurd h (by simp [bind, Except.bind])
    | ok call =>
      rw [hfirst] at h
      cases hrest : rest.mapM fun item => jsonCall fromStr item requireArguments with
      | error e =>
        rw [hrest] at h
        exact absurd h (by simp [bind, Except.bind])
      | ok more =>
        rw [hrest] at h
        have hcalls : call :: more = calls := Except.ok.inj h
        rw [← hcalls]
        exact List.cons_ne_nil call more
  · rename_i other _ _ _
    cases hother : jsonCall fromStr other requireArguments with
    | error e =>
      rw [hother] at h
      exact absurd h (by simp [Except.map])
    | ok call =>
      rw [hother] at h
      have hcalls : [call] = calls := Except.ok.inj h
      rw [← hcalls]
      exact List.cons_ne_nil call []

end

end Cuca.Local.Calls

/-! ## Tool calls in the custom grammar

`call:name{key:<|"|>value<|"|>}`: a name and arguments, with strings between quotes of their own, numbers as in JSON and bare words.

The text is read at byte offsets. A number is read by `serde_json`, which is a parameter.
-/

namespace Cuca.Local.Calls
open Offsets Parsing Sse

def stringQuote : List Char := ['<', '|', '"', '|', '>']

def maxDepth : Nat := 64

def trimStart (s : List Char) : List Char := s.dropWhile isWhitespace

def trimEnd (s : List Char) : List Char := (s.reverse.dropWhile isWhitespace).reverse

def trim (s : List Char) : List Char := trimEnd (trimStart s)

/-! ## Numbers -/

def digits (b : List Char) : Option (List Char) := if b.head?.any Char.isDigit then some (b.dropWhile Char.isDigit) else none

def intPart : List Char → Option (List Char)
  | [] => none
  | c :: b => if c = '0' then some b else if c.isDigit then some (b.dropWhile Char.isDigit) else none

def fractionPart (b : List Char) : Option (List Char) := if b.head? = some '.' then digits (b.drop 1) else some b

def exponentPart (b : List Char) : Option (List Char) :=
  if b.head? = some 'e' ∨ b.head? = some 'E' then
    digits (if (b.drop 1).head? = some '+' ∨ (b.drop 1).head? = some '-' then b.drop 2 else b.drop 1)
  else some b

/-- Whether a word is `-?(0|[1-9][0-9]*)(\.[0-9]+)?([eE][+-]?[0-9]+)?` in full. -/
def isJsonNumber (word : List Char) : Bool :=
  ((intPart (if word.head? = some '-' then word.drop 1 else word)).bind fractionPart).bind exponentPart = some []

/-! ## Values -/

/-- `Map::insert`; members stand in the order in which their keys came. -/
def insertMember (members : List (String × Value)) (key : String) (value : Value) : List (String × Value) :=
  if members.any (·.1 == key) then members.map fun m => if m.1 == key then (key, value) else m else members ++ [(key, value)]

def isDelimiter (c : Char) : Bool := c == ',' || c == '\x7d' || c == ']'

section
variable (numberOf : List Char → Option Number) (src : List Char)

def skipWs : Parsing.Parser Unit := skipWhile src isWhitespace

/-- Consume `expected` or fail. -/
def expect (expected : Char) : Parsing.Parser Unit := do
  let pos ← get
  if (← peek src) = some expected then advance expected.utf8Size
  else throw s!"expected `{expected}` at byte {pos}"

/-- What a bare word stands for. -/
def wordValue (word : List Char) : Value :=
  match if isJsonNumber word then numberOf word else none with
  | some number => .number number
  | none =>
    if word = ['t', 'r', 'u', 'e'] then .bool true
    else if word = ['f', 'a', 'l', 's', 'e'] then .bool false
    else if word = ['n', 'u', 'l', 'l'] then .null
    else .string (String.ofList word)

def bareWord : Parsing.Parser Value := do
  let pos ← get
  let rest ← restOf src
  let stop := (findChar isDelimiter rest).getD (size rest)
  let word := trimEnd (← sliceTo rest stop)
  if word.isEmpty then throw s!"empty value at byte {pos}"
  advance stop
  return wordValue numberOf word

def unquoted (rawKey : List Char) : List Char :=
  ((rawKey.dropPrefix? stringQuote).bind (·.dropSuffix? stringQuote)).getD rawKey

/-- The members of an object up to its end. Each round goes over a character at least. -/
def members (value : Parsing.Parser Value) : Nat → List (String × Value) → Parsing.Parser Value
  | 0, _ => panics
  | rounds + 1, map => do
    let pos ← get
    let rest ← restOf src
    let some colon := findChar (· == ':') rest | throw s!"missing `:` after a key at byte {pos}"
    let rawKey := trim (← sliceTo rest colon)
    let key := unquoted rawKey
    if key.isEmpty ∨ '\x7b' ∈ key ∨ '\x7d' ∈ key then throw s!"invalid key `{String.ofList rawKey}`"
    advance (colon + 1)
    skipWs src
    let map := insertMember map (String.ofList key) (← value)
    skipWs src
    let pos ← get
    let next ← peek src
    if next = some ',' then
      advance 1
      skipWs src
      members value rounds map
    else if next = some '\x7d' then
      advance 1
      return .object map
    else throw s!"expected `,` or `\x7d` at byte {pos}"

/-- `dict`, at a depth that is not too deep. -/
def dict (value : Parsing.Parser Value) : Parsing.Parser Value := do
  expect src '\x7b'
  skipWs src
  if (← peek src) = some '\x7d' then
    advance 1
    return .object []
  members src value ((← restOf src).length + 1) []

/-- The elements of an array up to its end. -/
def items (value : Parsing.Parser Value) : Nat → List Value → Parsing.Parser Value
  | 0, _ => panics
  | rounds + 1, elements => do
    let elements := elements ++ [← value]
    skipWs src
    let pos ← get
    let next ← peek src
    if next = some ',' then
      advance 1
      skipWs src
      items value rounds elements
    else if next = some ']' then
      advance 1
      return .array elements
    else throw s!"expected `,` or `]` at byte {pos}"

/-- `array`, at a depth that is not too deep. -/
def array (value : Parsing.Parser Value) : Parsing.Parser Value := do
  expect src '['
  skipWs src
  if (← peek src) = some ']' then
    advance 1
    return .array []
  items src value ((← restOf src).length + 1) []

/-- One value, with what reads the objects and arrays in it. -/
def valueWith (dict array : Parsing.Parser Value) : Parsing.Parser Value := do
  let rest ← restOf src
  match rest.dropPrefix? stringQuote with
  | some body =>
    let pos ← get
    let some stop := findText stringQuote body | throw s!"unterminated string at byte {pos}"
    advance (size stringQuote * 2 + stop)
    return .string (String.ofList (← sliceTo body stop))
  | none =>
    let next ← peek src
    if next = some '\x7b' then dict
    else if next = some '[' then array
    else bareWord numberOf src

/-- A value with so many levels of objects and arrays below it at most: at depth `maxDepth - levels`. -/
def value : Nat → Parsing.Parser Value
  | 0 => valueWith numberOf src (throw "nesting too deep") (throw "nesting too deep")
  | levels + 1 => valueWith numberOf src (dict src (value levels)) (array src (value levels))

/-- The arguments of a call, and nothing behind them. -/
def arguments : Parsing.Parser Value := do
  let arguments ← dict src (value numberOf src maxDepth)
  skipWs src
  let pos ← get
  if pos = size src then return arguments else throw s!"unexpected text after the call at byte {pos}"

end

/-- The name and the arguments of a call; `none` where the parser panics. -/
def parseToolCall (numberOf : List Char → Option Number) (text : List Char) : Option (Except String (String × Value)) :=
  match (trimStart text).dropPrefix? ['c', 'a', 'l', 'l', ':'] with
  | none => some (.error "missing `call:` prefix")
  | some rest =>
    match findChar (· == '\x7b') rest with
    | none => some (.error "missing `\x7b` after the tool name")
    | some brace =>
      (upTo rest brace).bind fun before =>
        let name := trim before
        if name.isEmpty then some (.error "empty tool name")
        else (outcome (arguments numberOf rest) brace).map (·.map fun r => (String.ofList name, r.1))

end Cuca.Local.Calls
