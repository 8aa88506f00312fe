import Cornus.Lib.Int64
import Cornus.Wire.BlockServer

/-!
# The block proxy

The proxy answers reads of one file from its cache bucket and fills misses from
the caller.  A write goes to the caller first and is then applied to the cached
blocks by the negotiated scheme.  `Session` is the state the two endpoints keep
for one path when requests are issued one at a time.
-/

namespace Cornus.Wire

open BlockCache Lib

/-- A mount, with its store and features. -/
structure Mount (Hash Entry : Type) where
  store : Store Hash Entry
  hashChunk : Bytes → Hash
  chunk : ChunkSize
  features : Features

/-- The caller's file with its write sequence and dirty units, and the proxy's
bucket, sequence table and registered size for it. -/
structure Session (Entry : Type) where
  file : Bytes
  seq : Nat
  dirty : List Nat
  bucket : Option Entry
  last : Nat → Option Nat
  size : Nat

/-- The file, what a request reaches and the write sequence stay inside their
64-bit types, offsets with a chunk to spare: nothing computed for the request
wraps. -/
def Session.InRange {Entry : Type} (session : Session Entry) (chunk : ChunkSize)
    (reach : Nat) : Prop :=
  session.file.len + chunk.bytes ≤ 2 ^ 63 ∧ reach + chunk.bytes ≤ 2 ^ 63 ∧
    session.seq + 1 < 2 ^ 64

instance {Entry : Type} (session : Session Entry) (chunk : ChunkSize) (reach : Nat) :
    Decidable (session.InRange chunk reach) :=
  inferInstanceAs (Decidable (_ ∧ _ ∧ _))

/-- The end of a request that stays in range. -/
theorem Session.InRange.reach_lt {Entry : Type} {session : Session Entry} {chunk : ChunkSize}
    {reach : Nat} (inRange : session.InRange chunk reach) : reach < 2 ^ 63 := by
  have positive := chunk.positive
  have bounded := inRange.2.1
  omega

inductive ReadError where
  | eof
  | einval
deriving DecidableEq

/-- What a `ReadAt` returns. -/
structure ReadResult where
  data : Bytes
  err : Option ReadError

/-! ## The sequence table -/

variable (last : Nat → Option Nat) (b seq : Nat) (strict : Bool)

def admits : Bool :=
  match last b with
  | none => true
  | some cur => if strict then cur < seq else cur ≤ seq

/-- The table after `admit`: a sequence number is recorded only when it is
larger than the recorded one, where a missing one counts as zero. -/
def admitSeq : Nat → Option Nat :=
  if admits last b seq strict ∧ (last b).getD 0 < seq then
    Function.update last b (some seq)
  else last

/-! ## Ranges of a block -/

variable (chunk : ChunkSize)

/-- The sub-range of its block that a demand-filled read asks for at `pos`: the
touched sub-blocks, cut at the end of the valid bytes.  The range is relative to
the block start. -/
def touchedRange (size stop pos : Nat) : Nat × Nat :=
  let b := pos / chunk.bytes
  let blockStart := b * chunk.bytes
  let validEnd := blockValidEnd chunk b size
  let tHi := min stop validEnd
  let subLo := (pos - blockStart) / subBlockSize * subBlockSize
  let subHi := min ((tHi - blockStart + subBlockSize - 1) / subBlockSize * subBlockSize)
    (validEnd - blockStart)
  (subLo, subHi - subLo)

def blockPart (data : Bytes) (off n size b : Nat) : ChunkWrite :=
  let blockStart := b * chunk.bytes
  let lo := max off blockStart
  let hi := min (off + n) (blockStart + chunk.bytes)
  { chunkOff := lo - blockStart
    data := data.slice (lo - off) (hi - lo)
    chunkLen :=
      if size < blockStart + chunk.bytes then size - blockStart
      else chunk.bytes }

def misses (off n b : Nat) : Bool :=
  decide (min (off + n) (b * chunk.bytes + chunk.bytes) ≤ max off (b * chunk.bytes))

variable {Hash Entry : Type} [Inhabited Hash] [DecidableEq Hash]

namespace Mount

/-! ## Reads -/

variable (mount : Mount Hash Entry) (session : Session Entry)

/-- The single-block read behind `readBlockFromCaller`. -/
def readBlockFromCaller (b : Nat) : Bytes × Hash × Nat :=
  match handleRead mount.hashChunk mount.chunk session.file session.seq b 1 with
  | [] => (Padded.blank 0, default, 0)
  | frame :: _ => (frame.data, frame.hash, frame.seq)

/-- A block from the caller, kept if its number admits it. -/
def fetchBlock (b : Nat) : Session Entry × Bytes :=
  let (data, hash, seq) := mount.readBlockFromCaller session b
  if admits session.last b seq false then
    ({ session with
       last := admitSeq session.last b seq false,
       bucket := mount.store.putHashed session.bucket b data hash }, data)
  else (session, data)

/-- A block from the cache, else from the caller. -/
def blockBytes (b chunkLen : Nat) : Session Entry × Bytes :=
  match mount.store.get session.bucket b chunkLen with
  | some buf =>
    if buf.len = chunkLen then (session, buf)
    else mount.fetchBlock session b
  | none => mount.fetchBlock session b

/-- A range of a block from the caller. -/
def fetchSub (b subOff subLen : Nat) : Session Entry × Option Bytes :=
  match handleReadRange mount.chunk session.file session.seq b subOff subLen with
  | none => (session, none)
  | some (seq, data) =>
    if admits session.last b seq false then
      ({ session with
         last := admitSeq session.last b seq false,
         bucket := mount.store.putSub session.bucket b subOff data },
        some data)
    else (session, some data)

def subBlockBytes (b subOff subLen : Nat) : Session Entry × Option Bytes :=
  let fetched := mount.fetchSub session b subOff subLen
  let missed := (fetched.1, fetched.2.map fun data =>
    data.resize (min subLen data.len))
  match mount.store.getSub session.bucket b subOff subLen with
  | some buf => if buf.len = subLen then (session, some buf) else missed
  | none => missed

/-- One turn of the loop of `ReadAt`: the bytes at hand for position `pos` and
the offset of their first one. -/
def bytesAt (size stop pos : Nat) : Session Entry × Option (Nat × Bytes) :=
  let b := pos / mount.chunk.bytes
  let blockStart := b * mount.chunk.bytes
  if mount.features.subBlockFill then
    let (subLo, subLen) := touchedRange mount.chunk size stop pos
    let (next, data) := mount.subBlockBytes session b subLo subLen
    (next, data.map fun bytes => (blockStart + subLo, bytes))
  else
    let (next, data) := mount.blockBytes session b (blockValidEnd mount.chunk b size - blockStart)
    (next, some (blockStart, data))

/-- The loop of `ReadAt`, with the bytes copied so far and whether a fetch
failed.  Every turn that continues copies at least one byte. -/
def readLoop (mount : Mount Hash Entry) (size stop : Nat) :
    Nat → Session Entry → Nat → Bytes → Session Entry × Bytes × Bool
  | 0, session, _, out => (session, out, false)
  | fuel + 1, session, pos, out =>
    if pos < stop then
      match mount.bytesAt session size stop pos with
      | (next, none) => (next, out, true)
      | (next, some (base, data)) =>
        let inData := pos - base
        if data.len ≤ inData then (next, out, false)
        else
          let n := min (stop - pos) (data.len - inData)
          if n = 0 then (next, out, false)
          else
            mount.readLoop size stop fuel next (pos + n) (out.splice out.len (data.slice inData n))
    else (session, out, false)

/-- The part of `ReadAt` after the end of the request is cut at the size. -/
def readUpTo (off length stop : Nat) : Session Entry × ReadResult :=
  let (next, out, failed) :=
    mount.readLoop session.size stop (stop - off) session off (Padded.blank 0)
  if failed then
    if 0 < out.len then (next, { data := out, err := none })
    else (next, { data := Padded.blank 0, err := some .einval })
  else if out.len < length then
    (next, { data := out, err := some .eof })
  else (next, { data := out, err := none })

/-- `ReadAt`.  The end of the request is a 64-bit sum; a negative one leaves
nothing to read. -/
def readAt (off length : Nat) : Session Entry × ReadResult :=
  if session.size ≤ off then (session, { data := Padded.blank 0, err := some .eof })
  else
    mount.readUpTo session off length (min (int64 (off + length)) session.size).toNat

/-! ## Writes -/

variable (data : Bytes) (off n size seq : Nat)

def classicTurn (session : Session Entry) (entry : UnitHash Hash) : Session Entry :=
  let b := entry.blockIdx
  if misses mount.chunk off n b then session
  else if admits session.last b seq true then
    let part := blockPart mount.chunk data off n size b
    { session with
      last := admitSeq session.last b seq true
      bucket := mount.store.writeChunk session.bucket b part.chunkOff
        part.data part.chunkLen entry.hash }
  else session

variable (units : List (UnitHash Hash))

/-- The reply to a write, unit by unit. -/
def applyWriteClassic : Session Entry :=
  units.foldl (mount.classicTurn data off n size seq) session

def throughTurn (session : Session Entry) (b : Nat) : Session Entry :=
  if misses mount.chunk off n b then session
  else if admits session.last b seq true then
    let part := blockPart mount.chunk data off n size b
    { session with
      last := admitSeq session.last b seq true
      bucket := mount.store.writeThrough session.bucket b part.chunkOff part.data part.chunkLen }
  else session

/-- The written bytes go into the cached chunks. -/
def applyWriteThrough : Session Entry :=
  (writtenBlocks mount.chunk off n).foldl (mount.throughTurn data off n size seq) session

/-- Drop the block of a unit whose cached digest differs. -/
def verifyUnit (bucket : Option Entry) (unit : UnitHash Hash) : Option Entry :=
  match mount.store.hashRange bucket unit.blockIdx unit.subOff unit.subLen with
  | some hash =>
    if hash = unit.hash then bucket
    else mount.store.drop bucket unit.blockIdx
  | none => bucket

def verifyUnits : Session Entry :=
  { session with bucket := units.foldl mount.verifyUnit session.bucket }

/-- The written bytes, then the hashes of the reply. -/
def applyWriteSubBlock : Session Entry :=
  mount.verifyUnits (mount.applyWriteThrough session data off n size seq) units

/-- `handleWrite` at the caller: the session after it and its reply. -/
def handleWrite (data : Bytes) (mtimeNs : Nat) : Session Entry × WriteReply Hash :=
  let file := fileWriteAt session.file off data
  let seq := session.seq + 1
  ({ session with
      file
      seq
      dirty :=
        if mount.features.deferHash then
          markDirty mount.chunk mount.features session.dirty off data.len
            file.len
        else session.dirty },
    { n := data.len
      size := file.len
      mtimeNs
      seq
      units := replyUnits mount.hashChunk mount.chunk mount.features file data
        off data.len file.len })

def applyScheme (data : Bytes) (reply : WriteReply Hash) : Session Entry :=
  if mount.features.deferHash then
    mount.applyWriteThrough session data off reply.n reply.size reply.seq
  else if mount.features.subBlockHash then
    mount.applyWriteSubBlock session data off reply.n reply.size reply.seq reply.units
  else
    mount.applyWriteClassic session data off reply.n reply.size reply.seq reply.units

def applyReply (data : Bytes) (reply : WriteReply Hash) : Session Entry :=
  let applied :=
    mount.applyScheme { session with size := reply.size } off data reply
  { applied with bucket := mount.store.setHint applied.bucket reply.size reply.mtimeNs }

/-- `WriteAt`. -/
def writeAt (data : Bytes) (mtimeNs : Nat) : Session Entry :=
  let (written, reply) := mount.handleWrite session off data mtimeNs
  mount.applyReply written off data reply

/-! ## Attributes, fsync and open -/

/-- `SetAttr`; a new size resizes the cache. -/
def setAttr (size : Option Nat) : Session Entry :=
  match size with
  | none => session
  | some newSize =>
    { session with
      file := session.file.resize newSize,
      bucket := mount.store.resize session.bucket newSize, size := newSize }

/-- `FSync`.  `order` is the order in which the caller's dirty set is
ranged. -/
def fsync (order : List Nat) : Session Entry :=
  if mount.features.deferHash then
    let offs := if order.isPerm session.dirty then order else session.dirty
    let drained : Except Empty (List (UnitHash Hash)) :=
      drainDirtyUnits mount.chunk mount.features (.ok session.file.len) (fun off length =>
          .ok (hashUnit mount.hashChunk session.file off length)) offs
    match drained with
    | .ok units =>
      (fsyncFrames mount.chunk units).foldl mount.verifyUnits { session with dirty := [] }
    | .error impossible => nomatch impossible
  else session

/-- The part of `Open` after the caller opened the file. -/
def openFile (mtimeNs : Nat) : Session Entry :=
  let size := session.file.len
  let stale :=
    match mount.store.hint session.bucket with
    | some (hintSize, hintTime) =>
      decide (hintSize ≠ size ∨ hintTime ≠ mtimeNs)
    | none => false
  { session with
    size
    last := if stale then fun _ => none else session.last
    bucket := mount.store.setHint (if stale then mount.store.invalidate session.bucket
        else session.bucket) size mtimeNs }

end Mount

/-! ## Requests on the handles of one path -/

/-- A request.  The modification time a request observes and the order in which
a set is ranged are the environment's choice. -/
inductive Request where
  | openFile (handle mtimeNs : Nat)
  | readAt (handle off length : Nat)
  | writeAt (handle off : Nat) (data : Bytes) (mtimeNs : Nat)
  | setAttr (handle : Nat) (size : Option Nat)
  | fsync (handle : Nat) (order : List Nat)

/-- The first offset past what a request asks for. -/
def Request.reach : Request → Nat
  | .readAt _ off length => off + length
  | .writeAt _ off data _ => off + data.len
  | .setAttr _ (some size) => size
  | _ => 0

/-- The session of a path with the handles that were opened. -/
structure Endpoint (Entry : Type) where
  session : Session Entry
  opened : Nat → Bool

/-- A mount that was just attached: nothing is open or cached. -/
def Endpoint.fresh (file : Bytes) : Endpoint Entry :=
  { session :=
      { file
        seq := 0
        dirty := []
        bucket := none
        last := fun _ => none
        size := 0 }
    opened := fun _ => false }

/-- One request.  Reads, writes and fsyncs need an open handle. -/
def Mount.step (mount : Mount Hash Entry) (endpoint : Endpoint Entry)
    (request : Request) : Option (Endpoint Entry) :=
  match request with
  | .openFile handle mtimeNs =>
    some
      { session := mount.openFile endpoint.session mtimeNs
        opened := Function.update endpoint.opened handle true }
  | .readAt handle off length =>
    if endpoint.opened handle then
      some { endpoint with session := (mount.readAt endpoint.session off length).1 }
    else none
  | .writeAt handle off data mtimeNs =>
    if endpoint.opened handle then
      some { endpoint with session := mount.writeAt endpoint.session off data mtimeNs }
    else none
  | .setAttr _ size =>
    some { endpoint with session := mount.setAttr endpoint.session size }
  | .fsync handle order =>
    if endpoint.opened handle then
      some { endpoint with session := mount.fsync endpoint.session order }
    else none

end Cornus.Wire
