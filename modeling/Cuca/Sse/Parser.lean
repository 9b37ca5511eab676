import Cuca.Types

/-!
# The SSE stream parser

`SseStreamParser` holds one buffer and the last event id. `feedChunk` appends a chunk, scans it line by line from the
start of the retained bytes, and hands every group of lines that a blank line ends to `parseFrame`.

* `memchr`, `isBlank`, `stripCr` : the byte scans of the source;
* `fromUtf8`, `parseU64` : `std::str::from_utf8` and `str::trim` followed by `str::parse::<u64>`;
* `splitField`, `parseLine`, `parseFrame` : one `field: value` line, and one completed frame;
* `feedLoop`, `feedChunk`, `feedAll` : one chunk, and a list of chunks in order.

Buffers are lists of bytes, and a slice `buffer[scan..]` is `buffer.drop scan`.
-/

namespace Cuca.Sse

def newline : UInt8 := 10
def carriageReturn : UInt8 := 13
def colon : UInt8 := 58
def space : UInt8 := 32

/-- The bytes of an ASCII literal such as `b"data"`. -/
def ascii (s : String) : List UInt8 := s.toList.map fun c => c.toNat.toUInt8

/-- `memchr::memchr`: the index of the first `needle`. -/
def memchr (needle : UInt8) (haystack : List UInt8) : Option Nat := haystack.findIdx? (· == needle)

def isBlank (line : List UInt8) : Bool := line.isEmpty || line == [carriageReturn]

def stripCr (line : List UInt8) : List UInt8 :=
  if line.getLast? = some carriageReturn then line.dropLast else line

/-! ## Values -/

/-- `std::str::Utf8Error`: where the valid prefix ends, and the length of the offending sequence unless the input ended
inside it. -/
structure Utf8Error where
  validUpTo : Nat
  errorLen : Option Nat
  deriving DecidableEq, Repr

/-- `Utf8Error`'s `Display`. -/
def Utf8Error.text (e : Utf8Error) : String :=
  match e.errorLen with
  | some len => s!"invalid utf-8 sequence of {len} bytes from index {e.validUpTo}"
  | none => s!"incomplete utf-8 byte sequence from index {e.validUpTo}"

def isContinuation (b : UInt8) : Bool := 0x80 ≤ b && b ≤ 0xBF

def secondOfThree (b0 b1 : UInt8) : Bool :=
  isContinuation b1 && (b0 != 0xE0 || 0xA0 ≤ b1) && (b0 != 0xED || b1 ≤ 0x9F)

def secondOfFour (b0 b1 : UInt8) : Bool :=
  isContinuation b1 && (b0 != 0xF0 || 0x90 ≤ b1) && (b0 != 0xF4 || b1 ≤ 0x8F)

/-- Where and how the bytes from index `start` on stop being UTF-8. -/
def utf8Error (start : Nat) : List UInt8 → Utf8Error
  | [] => ⟨start, none⟩
  | b0 :: rest =>
    if b0 < 0x80 then utf8Error (start + 1) rest
    else if 0xC2 ≤ b0 && b0 ≤ 0xDF then
      match rest with
      | [] => ⟨start, none⟩
      | b1 :: rest => if isContinuation b1 then utf8Error (start + 2) rest else ⟨start, some 1⟩
    else if 0xE0 ≤ b0 && b0 ≤ 0xEF then
      match rest with
      | [] => ⟨start, none⟩
      | b1 :: rest =>
        if !secondOfThree b0 b1 then ⟨start, some 1⟩ else
        match rest with
        | [] => ⟨start, none⟩
        | b2 :: rest => if isContinuation b2 then utf8Error (start + 3) rest else ⟨start, some 2⟩
    else if 0xF0 ≤ b0 && b0 ≤ 0xF4 then
      match rest with
      | [] => ⟨start, none⟩
      | b1 :: rest =>
        if !secondOfFour b0 b1 then ⟨start, some 1⟩ else
        match rest with
        | [] => ⟨start, none⟩
        | b2 :: rest =>
          if !isContinuation b2 then ⟨start, some 2⟩ else
          match rest with
          | [] => ⟨start, none⟩
          | b3 :: rest => if isContinuation b3 then utf8Error (start + 4) rest else ⟨start, some 3⟩
    else ⟨start, some 1⟩

/-- `std::str::from_utf8`. -/
def fromUtf8 (value : List UInt8) : Except Utf8Error String :=
  match String.fromUTF8? value.toByteArray with
  | some s => .ok s
  | none => .error (utf8Error 0 value)

/-- `char::is_whitespace`: the code points with the property `White_Space`. -/
def isWhitespace (c : Char) : Bool :=
  let n := c.toNat
  (9 ≤ n && n ≤ 13) || n == 0x20 || n == 0x85 || n == 0xA0 || n == 0x1680 || (0x2000 ≤ n && n ≤ 0x200A) ||
    n == 0x2028 || n == 0x2029 || n == 0x202F || n == 0x205F || n == 0x3000

/-- `str::trim`, as characters. -/
def trim (s : String) : List Char := ((s.toList.dropWhile isWhitespace).reverse.dropWhile isWhitespace).reverse

/-- `str::parse::<u64>`: an optional `+`, then decimal digits, at most `u64::MAX`. -/
def parseU64 (cs : List Char) : Option Nat :=
  let digits := match cs with
    | '+' :: ds => ds
    | ds => ds
  if digits.isEmpty || !digits.all Char.isDigit then none
  else
    let n := digits.foldl (fun acc c => acc * 10 + (c.toNat - 48)) 0
    if n < 2 ^ 64 then some n else none

/-! ## Frames -/

/-- One complete SSE frame. -/
structure SseEvent where
  event : String
  data : String
  id : Option String
  retry : Option Nat
  deriving DecidableEq, Repr

/-- The accumulators of `parse_frame`. -/
structure FrameFields where
  eventName : Option String
  data : String
  currentId : Option String
  retry : Option Nat
  deriving DecidableEq, Repr

def FrameFields.empty : FrameFields := ⟨none, "", none, none⟩

def utf8Message (field : String) (e : Utf8Error) : CucaError :=
  .sseParse (field ++ " field is not valid UTF-8: " ++ e.text)

/-- The field and the value of a line, one space after the colon dropped; none for a line without a colon. -/
def splitField (line : List UInt8) : Option (List UInt8 × List UInt8) :=
  match memchr colon line with
  | none => none
  | some sep =>
    let rest := line.drop (sep + 1)
    some (line.take sep, if rest.head? = some space then rest.tail else rest)

/-- Folds one line, its line end stripped, into the accumulators. -/
def parseLine (f : FrameFields) (line : List UInt8) : Except CucaError FrameFields :=
  match splitField line with
  | none => .ok f
  | some (field, value) =>
    if field = ascii "event" then
      match fromUtf8 value with
      | .error e => .error (utf8Message "event" e)
      | .ok s => .ok { f with eventName := some s }
    else if field = ascii "data" then
      match fromUtf8 value with
      | .error e => .error (utf8Message "data" e)
      | .ok s => .ok { f with data := (if f.data.isEmpty then f.data else f.data ++ "\n") ++ s }
    else if field = ascii "id" then
      match fromUtf8 value with
      | .error e => .error (utf8Message "id" e)
      | .ok s => .ok (if s.isEmpty || s.toList.contains '\x00' then f else { f with currentId := some s })
    else if field = ascii "retry" then
      match fromUtf8 value with
      | .error _ => .ok f
      | .ok s => .ok { f with retry := parseU64 (trim s) }
    else .ok f

/-- The lines of `frame[pos..]`, folded in order. The frame ends with a newline, so the loop stops at its end. -/
def parseLoop (frame : List UInt8) : Nat → Nat → FrameFields → Except CucaError FrameFields
  | 0, _, f => .ok f
  | fuel + 1, pos, f =>
    match memchr newline (frame.drop pos) with
    | none => .ok f
    | some rel =>
      match parseLine f (stripCr ((frame.drop pos).take rel)) with
      | .error e => .error e
      | .ok f => parseLoop frame fuel (pos + rel + 1) f

/-- The frame's event, and the id to persist if it carried a valid one. -/
def FrameFields.finish (lastEventId : Option String) (f : FrameFields) : SseEvent × Option String :=
  ({ event := f.eventName.getD "message", data := f.data, id := f.currentId.or lastEventId, retry := f.retry },
    f.currentId)

def parseFrame (lastEventId : Option String) (frame : List UInt8) : Except CucaError (SseEvent × Option String) :=
  (parseLoop frame frame.length 0 FrameFields.empty).map (FrameFields.finish lastEventId)

/-! ## Chunks -/

/-- The parser: the current frame's raw lines with any partial line after them, and the last event id. -/
structure SseStreamParser where
  buffer : List UInt8
  lastEventId : Option String
  deriving DecidableEq, Repr

/-- `SseStreamParser::new`. -/
def SseStreamParser.new : SseStreamParser := ⟨[], none⟩

/-- The scan of `feed_chunk` from the line that starts at `scan`. Every round takes one newline, so the buffer's length
is fuel enough. -/
def SseStreamParser.feedLoop :
    Nat → SseStreamParser → Nat → List SseEvent → Except CucaError (List SseEvent) × SseStreamParser
  | 0, p, _, events => (.ok events, p)
  | fuel + 1, p, scan, events =>
    match memchr newline (p.buffer.drop scan) with
    | none => (.ok events, p)
    | some rel =>
      if isBlank ((p.buffer.drop scan).take rel) then
        match parseFrame p.lastEventId (p.buffer.take scan) with
        | .error e => (.error e, p)
        | .ok (ev, frameId) =>
          feedLoop fuel ⟨p.buffer.drop (scan + rel + 1), frameId.or p.lastEventId⟩ 0 (events ++ [ev])
      else feedLoop fuel p (scan + rel + 1) events

/-- Appends `chunk` and parses every frame it completes. -/
def SseStreamParser.feedChunk (p : SseStreamParser) (chunk : List UInt8) :
    Except CucaError (List SseEvent) × SseStreamParser :=
  let p := { p with buffer := p.buffer ++ chunk }
  p.feedLoop p.buffer.length 0 []

/-- Feeds the chunks in order; answers the result of every call. -/
def SseStreamParser.feedAll (p : SseStreamParser) :
    List (List UInt8) → List (Except CucaError (List SseEvent)) × SseStreamParser
  | [] => ([], p)
  | chunk :: chunks =>
    let (r, p) := p.feedChunk chunk
    let (rs, p) := p.feedAll chunks
    (r :: rs, p)

end Cuca.Sse
