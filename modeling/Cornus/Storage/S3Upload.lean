import Cornus.Storage.Uploads

/-!
# Multipart uploads

A session over the multipart API: its sidecar records the parts uploaded so far,
the bytes that do not make a part yet and the state of the running hash.  Each
request reads the sidecar, and replaces it as its last act.  A call to the
service may take effect and be reported, be lost, or take effect and be reported
as failed.
-/

namespace Cornus.Storage

/-- A hash that is fed piece by piece. -/
structure Hash where
  State : Type
  init : State
  write : State → Content → State
  sum : State → String
  write_nil : ∀ state, write state [] = state
  write_append : ∀ state first second,
    write (write state first) second = write state (first ++ second)

namespace Hash

variable (hash : Hash) (content : Content)

def after : hash.State :=
  hash.write hash.init content

def digest : String :=
  hash.sum (hash.after content)

theorem write_after (first second : Content) :
    hash.write (hash.after first) second = hash.after (first ++ second) :=
  hash.write_append hash.init first second

end Hash

/-- The hash, and the tag the service gives a part. -/
structure S3Config where
  hash : Hash
  etag : Content → String

def s3MinPartSize : Nat :=
  5 * 1024 * 1024

def s3MaxSingleCopy : Nat :=
  5 * 1024 * 1024 * 1024

def s3CopyPartSize : Nat :=
  4 * 1024 * 1024 * 1024

/-- A part as the sidecar records it. -/
structure S3Part where
  partNumber : Nat
  etag : String
  size : Nat

/-- The sidecar of an upload. -/
structure S3Session (hash : Hash) where
  parts : List S3Part := []
  hashState : hash.State := hash.init
  tail : Content := []
  total : Nat := 0

/-- How a call to the bucket ends. -/
inductive Fate where
  | done
  | lost
  | unseen
  deriving DecidableEq

def Fate.effective (fate : Fate) : Bool :=
  fate != .lost

def Fate.reported (fate : Fate) : Bool :=
  fate == .done

/-- A multipart upload of the service; its parts are of no use once it was
completed or aborted. -/
structure Multipart where
  isOpen : Bool := true
  parts : AList (fun _ : Nat => Content) := ∅

/-- The service, with the object at the temporary key and the blobs by their
digest, and the sidecar. -/
structure S3State (hash : Hash) where
  multipart : Multipart := {}
  temp : Option Content := none
  blobs : Dict Content := ∅
  sidecar : Option (S3Session hash) := some {}

variable (cfg : S3Config) (multipart : Multipart)

/-- `uploadPart`; no session when the call fails. -/
def uploadPart (session : S3Session cfg.hash) (data : Content) (fate : Fate) :
    Multipart × Option (S3Session cfg.hash) :=
  let number := session.parts.length + 1
  if multipart.isOpen then
    (if fate.effective then
        { multipart with parts := multipart.parts.insert number data }
      else multipart,
      if fate.reported then
        some { session with parts := session.parts ++ [⟨number, cfg.etag data, data.length⟩] }
      else none)
  else (multipart, none)

/-- The loop of `Write` over what the reader delivers; each chunk comes with the
fate of the part it may complete. -/
def writeLoop (multipart : Multipart) (session : S3Session cfg.hash) :
    List (Content × Fate) → Multipart × Option (S3Session cfg.hash)
  | [] => (multipart, some session)
  | (chunk, fate) :: body =>
    let tail := session.tail ++ chunk
    let next := { session with
      hashState := cfg.hash.write session.hashState chunk
      tail
      total := session.total + chunk.length }
    if s3MinPartSize ≤ tail.length then
      match uploadPart cfg multipart { next with tail := [] } tail fate with
      | (multipart, none) => (multipart, none)
      | (multipart, some session) => writeLoop multipart session body
    else writeLoop multipart next body

/-- What a reader delivers, whether it then ends or fails, and whether the
sidecar can be replaced. -/
structure S3Body where
  chunks : List (Content × Fate)
  (ends saves : Bool := true)

def S3Body.content (body : S3Body) : Content :=
  body.chunks.flatMap Prod.fst

variable (st : S3State cfg.hash)

/-- `Write` on the session of the sidecar: the state after it and the total it
returns. -/
def s3Write (body : S3Body) : S3State cfg.hash × Option Nat :=
  match st.sidecar with
  | none => (st, none)
  | some session =>
    match writeLoop cfg st.multipart session body.chunks with
    | (multipart, none) => ({ st with multipart }, none)
    | (multipart, some session) =>
      if body.ends && body.saves then
        ({ st with multipart, sidecar := some session }, some session.total)
      else ({ st with multipart }, none)

/-- The byte ranges of a copy in parts, from an offset on; both ends belong to a
range. -/
def copyRangesFrom (size off : Nat) : List (Nat × Nat) :=
  if off < size then
    (off, min (off + s3CopyPartSize - 1) (size - 1)) ::
      copyRangesFrom size (off + s3CopyPartSize)
  else []
termination_by size - off
decreasing_by
  simp only [s3CopyPartSize]
  omega

def copyRanges (size : Nat) : List (Nat × Nat) :=
  copyRangesFrom size 0

def slice (content : Content) (range : Nat × Nat) : Content :=
  (content.drop range.1).take (range.2 + 1 - range.1)

/-- The fates of the calls of one `Commit`. -/
structure CommitFates where
  abort : Fate := .done
  statFails : Bool := false
  (put part complete copy copyCreate : Fate := .done)
  /-- the copies of the ranges, by part number -/
  copyPart : Nat → Fate := fun _ => .done
  delete : Fate := .done
  removes : Bool := true

variable {hash : Hash}

def abortMultipart (st : S3State hash) (fate : Fate) : S3State hash :=
  if fate.effective then
    { st with multipart := { st.multipart with isOpen := false } }
  else st

def deleteSidecar (st : S3State hash) (removes : Bool) : S3State hash :=
  if removes then { st with sidecar := none } else st

variable (parts : List S3Part)

/-- The parts of a request to complete an upload, as the service holds them. -/
def completedParts : Option (List Content) :=
  parts.mapM fun part =>
    (multipart.parts.lookup part.partNumber).filter fun data =>
      cfg.etag data == part.etag

/-- `CompleteMultipartUpload`, at the temporary key; the second part says whether
it succeeds. -/
def completeMultipart (fate : Fate) : S3State cfg.hash × Bool :=
  match completedParts cfg st.multipart parts with
  | some contents =>
    if st.multipart.isOpen then
      (if fate.effective then
          { st with
            multipart := { st.multipart with isOpen := false }
            temp := some contents.flatten }
        else st, fate.reported)
    else (st, false)
  | none => (st, false)

def copyObject (st : S3State hash) (hex : String) (size : Nat)
    (fates : CommitFates) : S3State hash × Bool :=
  match st.temp with
  | none => (st, false)
  | some content =>
    if size ≤ s3MaxSingleCopy then
      (if fates.copy.effective then
          { st with blobs := st.blobs.put hex content }
        else st, fates.copy.reported)
    else
      let ranges := copyRanges size
      if fates.copyCreate.reported && (List.range ranges.length).all fun number =>
            (fates.copyPart number).reported then
        (if fates.copy.effective then
            { st with blobs := st.blobs.put hex (ranges.flatMap (slice content)) }
          else st, fates.copy.reported)
      else (st, false)

def statFinds (st : S3State hash) (hex : String) (fates : CommitFates) : Bool :=
  !fates.statFails && (st.blobs.lookup hex).isSome

def commitEmpty (hex : String) (fates : CommitFates) : S3State cfg.hash × Option (String × Nat) :=
  let aborted := abortMultipart st fates.abort
  if fates.statFails then (aborted, none)
  else if (st.blobs.lookup hex).isSome then
    (deleteSidecar aborted fates.removes, some (hex, 0))
  else
    let stored := if fates.put.effective then
      { aborted with blobs := aborted.blobs.put hex [] } else aborted
    if fates.put.reported then
      (deleteSidecar stored fates.removes, some (hex, 0))
    else (stored, none)

def commitParts (session : S3Session cfg.hash) (hex : String) (fates : CommitFates) :
    S3State cfg.hash × Option (String × Nat) :=
  if statFinds st hex fates then
    (deleteSidecar (abortMultipart st fates.abort) fates.removes, some (hex, session.total))
  else
    match completeMultipart cfg st session.parts fates.complete with
    | (st, false) => (st, none)
    | (st, true) =>
      let (copied, succeeds) := copyObject st hex session.total fates
      let cleaned := if fates.delete.effective then
        { copied with temp := none } else copied
      (deleteSidecar cleaned fates.removes,
        if succeeds then some (hex, session.total) else none)

/-- `Commit` on the session of the sidecar: the state after it, and the digest
and the size it returns. -/
def s3Commit (expect : String) (fates : CommitFates) : S3State cfg.hash × Option (String × Nat) :=
  match st.sidecar with
  | none => (st, none)
  | some session =>
    let hex := cfg.hash.sum session.hashState
    if meets hex expect = false then
      (deleteSidecar (abortMultipart st fates.abort) fates.removes, none)
    else if session.total = 0 ∧ session.parts = [] then
      commitEmpty cfg st hex fates
    else if session.tail = [] then commitParts cfg st session hex fates
    else
      match uploadPart cfg st.multipart session session.tail fates.part with
      | (multipart, none) => ({ st with multipart }, none)
      | (multipart, some session) =>
        commitParts cfg { st with multipart } session hex fates

end Cornus.Storage
