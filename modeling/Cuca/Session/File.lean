import Cuca.Session.Frames

/-!
# Storage of session records in files

One file for each session, to which appends add frames; the file system may stop any of them. A backend that is opened
again on a directory finds its files, and counts forks from 0.

* `Disk`, `AppendIo` : the files, and what the file system does at an append;
* `FileBackend` : `append`, `replay`, `fork`.
-/

namespace Cuca.Session
open Postcard

/-- The directory: the bytes of each `{id}.cslog`, and whether there is a `{id}.jsonl`. -/
structure Disk where
  logs : String → Option Bytes
  legacy : String → Bool

/-- What the file system does at an append: the file cannot be opened, its length cannot be read, or the write stops after
so many bytes. -/
inductive AppendIo where
  | done
  | openFails (e : String)
  | metadataFails (e : String)
  | writeFails (written : Nat) (e : String)
  deriving DecidableEq

/-- What it does at a fork: at the read of the original, and at each append. -/
structure ForkIo where
  readFails : Option String
  appends : Nat → AppendIo

structure FileBackend where
  dir : String
  format : Format

/-- The directory and the fork counter of the process. -/
structure FileStore where
  disk : Disk
  forkCounter : Nat

def FileStore.reopened (disk : Disk) : FileStore := ⟨disk, 0⟩

namespace FileBackend
variable (b : FileBackend)

def path (sessionId : String) : String := s!"{b.dir}/{sessionId}.cslog"

def legacyPath (sessionId : String) : String := s!"{b.dir}/{sessionId}.jsonl"

def isSafe (id : String) : Bool := !(id.toList.contains '/' || id.toList.contains '\\')

def unsafeId (id : String) : PluginError :=
  .validation "session_id" s!"session id `{id}` contains a path separator; refusing to map it to a file"

def checkSafeId (id : String) : Except PluginError Unit := if isSafe id then .ok () else .error (unsafeId id)

def scratch (content : Bytes) (record : SessionRecord) : Bytes :=
  (if content.isEmpty then header else []) ++ b.format.encode record

def setLog (disk : Disk) (sessionId : String) (content : Bytes) : Disk :=
  { disk with logs := Function.update disk.logs sessionId (some content) }

def append (disk : Disk) (io : AppendIo) (record : SessionRecord) : Except PluginError Unit × Disk :=
  match checkSafeId record.sessionId with
  | .error e => (.error e, disk)
  | .ok () =>
    -- opening creates the file
    let content := (disk.logs record.sessionId).getD []
    match io with
    | .openFails e => (.error (.io e), disk)
    | .metadataFails e => (.error (.io e), setLog disk record.sessionId content)
    | .writeFails written e =>
      (.error (.io e), setLog disk record.sessionId (content ++ (b.scratch content record).take written))
    | .done => (.ok (), setLog disk record.sessionId (content ++ b.scratch content record))

def replay (disk : Disk) (readFails : Option String) (sessionId : String) : Except PluginError (List SessionRecord) :=
  match checkSafeId sessionId with
  | .error e => .error e
  | .ok () =>
    match readFails with
    | some e => .error (.io e)
    | none =>
      match disk.logs sessionId with
      | none =>
        if disk.legacy sessionId then
          let path := b.path sessionId
          let legacy := b.legacyPath sessionId
          .error (invalid (s!"session `{sessionId}` has no `{path}`, but a JSON-lines file `{legacy}` exists; " ++
            "this backend reads framed postcard records and will not decode it"))
        else .ok []
      | some bytes => if bytes.isEmpty then .ok [] else b.format.decodeFrames (b.path sessionId) bytes

/-- The appends of a fork, one after the other, up to the first that fails. -/
def appendAll (disk : Disk) (appends : Nat → AppendIo) (k : Nat) : List SessionRecord → Except PluginError Unit × Disk
  | [] => (.ok (), disk)
  | record :: records =>
    match b.append disk (appends k) record with
    | (.error e, disk) => (.error e, disk)
    | (.ok (), disk) => appendAll disk appends (k + 1) records

def newId (s : FileStore) (sessionId pointId : String) : String := s!"{sessionId}:fork:{pointId}:{s.forkCounter}"

def fork (s : FileStore) (io : ForkIo) (sessionId pointId : String) (now : Nat) :
    Except PluginError String × FileStore :=
  match checkSafeId sessionId with
  | .error e => (.error e, s)
  | .ok () =>
    match b.replay s.disk io.readFails sessionId with
    | .error e => (.error e, s)
    | .ok records =>
      match records.findIdx? fun r => r.pointId == pointId with
      | none =>
        (.error (.validation "point_id" s!"no record with point_id `{pointId}` in session `{sessionId}`"), s)
      | some index =>
        let id := newId s sessionId pointId
        let counter := s.forkCounter + 1
        match checkSafeId id with
        | .error e => (.error e, ⟨s.disk, counter⟩)
        | .ok () =>
          match b.appendAll s.disk io.appends 0 (relabelled (records.take (index + 1)) id) with
          | (.error e, disk) => (.error e, ⟨disk, counter⟩)
          | (.ok (), disk) =>
            match b.append disk (io.appends (index + 1)) (auditRecord sessionId pointId id records.length now) with
            | (.error e, disk) => (.error e, ⟨disk, counter⟩)
            | (.ok (), disk) => (.ok id, ⟨disk, counter⟩)

end FileBackend
end Cuca.Session
