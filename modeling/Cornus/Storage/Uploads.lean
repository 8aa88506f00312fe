import Cornus.Lib.Dict
import Cornus.Lib.Run

/-!
# Blob uploads

The upload handlers of the registry over a shared directory tree.  Every system
call is one step, so that the steps of any number of requests interleave.  A
session is a file under its upload id; a request that opened it appends through
its own handle, which stays attached to the file when the file is renamed.

The filesystem upload commits by renaming the session file to the blob's path.
The staged upload commits through `PutBlob`, which first copies to a temporary
file of its own.  Temporary files have unguessable names, so their content is
part of the request that made them.
-/

namespace Cornus.Storage

abbrev Content := List UInt8

def blobPath (hex : String) : String :=
  "blobs/sha256/" ++ String.ofList (hex.toList.take 2) ++ "/" ++ hex

/-- Which upload the backend uses, and the digest function. -/
structure UploadConfig where
  native : Bool
  sha256 : Content → String

/-- What a request wants once it has opened its session. -/
inductive Goal where
  | patch
  | put (expect : String)

structure SessionReader where
  id : String
  file : Nat
  offset : Nat

/-- Where a request stands between two of its system calls. -/
inductive Request where
  | done
  /-- `GetUpload` has seen the session and has yet to open it. -/
  | found (id : String) (goal : Goal)
  /-- `Write` appends through the session's handle. -/
  | writing (id : String) (file : Nat) (goal : Goal)
  /-- `fsUpload.Commit` hashes the session file. -/
  | hashing (id : String) (file : Nat) (expect : String) (read : Content)
  /-- `fsUpload.Commit` is about to look for the blob. -/
  | hashed (id : String) (file : Nat) (hex : String)
  /-- `fsUpload.Commit` is about to rename the session file. -/
  | moving (id : String) (file : Nat) (hex : String)
  | discarding (id : String)
  /-- `PutBlob` copies its reader to a temporary file and into the hash. -/
  | buffering (source : Option SessionReader) (expect : String) (tmp hashed : Content)
  /-- `PutBlob` is about to look for the blob. -/
  | buffered (session : Option String) (tmp : Content) (hex : String)
  /-- `ObjectStore.Put` copies to a temporary file of its own. -/
  | copying (session : Option String) (tmp out : Content) (hex : String)
  /-- `ObjectStore.Put` is about to rename that file. -/
  | storing (session : Option String) (out : Content) (hex : String)

/-- The files, by number, and the names that lead to them. -/
structure UploadState where
  files : List Content := []
  sessions : Dict Nat := ∅
  objects : Dict Nat := ∅
  issued : List String := []
  requests : List Request := []

namespace UploadState

variable (st : UploadState) (file : Nat)

def content : Content :=
  (st.files[file]?).getD []

def setRequest (p : Nat) (request : Request) : UploadState :=
  { st with requests := st.requests.set p request }

def addRequest (request : Request) : UploadState :=
  { st with requests := st.requests ++ [request] }

def append (data : Content) : UploadState :=
  { st with files := st.files.set file (st.content file ++ data) }

def dropSession (id : String) : UploadState :=
  { st with sessions := st.sessions.erase id }

def bind (key : String) (file : Nat) : UploadState :=
  { st with objects := st.objects.put key file }

end UploadState

inductive Action where
  | openSession
  | write (data : Content)
  /-- The body has ended; `abort` when it exceeded the limit. -/
  | close (abort : Bool)
  | commit
  /-- Reads at most `n + 1` bytes. -/
  | read (n : Nat)
  | bodyEnds
  | stat
  | copy (n : Nat)
  | rename
  | remove
  | fail

inductive UploadEvent where
  | newUpload (id : String)
  | patch (id : String)
  | put (id : String) (expect : String)
  | putBlob (expect : String)
  | abortUpload (id : String)
  | act (p : Nat) (action : Action)

/-- After the blob is stored: `CommitUpload` discards the session. -/
def afterPut : Option String → Request
  | none => .done
  | some id => .discarding id

variable (cfg : UploadConfig)

/-- Whether content with this digest meets the digest the client gave. -/
def meets (hex expect : String) : Bool :=
  expect == "" || expect == "sha256:" ++ hex

def bufferedOr (session : Option String) (expect : String) (tmp hashed : Content) : Request :=
  if meets (cfg.sha256 hashed) expect then
    .buffered session tmp (cfg.sha256 hashed)
  else .done

def act (st : UploadState) (p : Nat) : Request → Action → Option UploadState
  | .found id goal, .openSession =>
    match st.sessions.lookup id with
    | none => some (st.setRequest p .done)
    | some file => some (st.setRequest p (.writing id file goal))
  | .writing _ file _, .write data => some (st.append file data)
  | .writing id _ _, .close abort =>
    some (st.setRequest p (if abort then .discarding id else .done))
  | .writing id _ (.put expect), .commit =>
    match st.sessions.lookup id with
    | none => some (st.setRequest p .done)
    | some file =>
      some (st.setRequest p (if cfg.native then .hashing id file expect []
          else .buffering (some ⟨id, file, 0⟩) expect [] []))
  | .hashing id file expect read, .read n =>
    match ((st.content file).drop read.length).take (n + 1) with
    | [] =>
      some (st.setRequest p (if meets (cfg.sha256 read) expect then
          .hashed id file (cfg.sha256 read) else .done))
    | chunk => some (st.setRequest p (.hashing id file expect (read ++ chunk)))
  | .hashed id file hex, .stat =>
    match st.objects.lookup (blobPath hex) with
    | some _ => some (st.setRequest p (.discarding id))
    | none => some (st.setRequest p (.moving id file hex))
  | .moving id _ hex, .rename =>
    match st.sessions.lookup id with
    | none => some (st.setRequest p .done)
    | some file =>
      some (((st.dropSession id).bind (blobPath hex) file).setRequest p .done)
  | .discarding id, .remove =>
    some ((st.dropSession id).setRequest p .done)
  | .buffering none expect tmp hashed, .write data =>
    some (st.setRequest p (.buffering none expect (tmp ++ data) (hashed ++ data)))
  | .buffering none expect tmp hashed, .bodyEnds =>
    some (st.setRequest p (bufferedOr cfg none expect tmp hashed))
  | .buffering (some reader) expect tmp hashed, .read n =>
    match ((st.content reader.file).drop reader.offset).take (n + 1) with
    | [] =>
      some (st.setRequest p (bufferedOr cfg (some reader.id) expect tmp hashed))
    | chunk =>
      some (st.setRequest p (.buffering
          (some { reader with offset := reader.offset + chunk.length })
          expect (tmp ++ chunk) (hashed ++ chunk)))
  | .buffered session tmp hex, .stat =>
    match st.objects.lookup (blobPath hex) with
    | some _ => some (st.setRequest p (afterPut session))
    | none => some (st.setRequest p (.copying session tmp [] hex))
  | .copying session tmp out hex, .copy n =>
    match (tmp.drop out.length).take (n + 1) with
    | [] => some (st.setRequest p (.storing session out hex))
    | chunk =>
      some (st.setRequest p (.copying session tmp (out ++ chunk) hex))
  | .storing session out hex, .rename =>
    some ((({ st with files := st.files ++ [out] } : UploadState).bind
      (blobPath hex) st.files.length).setRequest p (afterPut session))
  | _, .fail => some (st.setRequest p .done)
  | _, _ => none

/-- One step of the system.  A request for an unknown upload is answered at
once; ids drawn by `NewUpload` are new. -/
def uploadStep (st : UploadState) : UploadEvent → Option UploadState
  | .newUpload id =>
    if id ∈ st.issued then none
    else
      some { st with
             files := st.files ++ [[]], sessions := st.sessions.put id st.files.length,
             issued := id :: st.issued }
  | .patch id =>
    match st.sessions.lookup id with
    | none => some st
    | some _ => some (st.addRequest (.found id .patch))
  | .put id expect =>
    match st.sessions.lookup id with
    | none => some st
    | some _ => some (st.addRequest (.found id (.put expect)))
  | .putBlob expect => some (st.addRequest (.buffering none expect [] []))
  | .abortUpload id => some (st.dropSession id)
  | .act p action =>
    match st.requests[p]? with
    | none => none
    | some request => act cfg st p request action

end Cornus.Storage
