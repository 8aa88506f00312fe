import Cornus.BlockCache.Store
import Mathlib.Algebra.Group.Nat.Defs

/-!
# The caller's block server

The caller owns the file.  It serves block reads and ranged reads, applies
writes, and reports with each write the digests of the coherence units the
write touched: whole blocks, sub-blocks, or nothing when the digests are
deferred to the next fsync.  Every number of a list travels in a 16-bit count.
-/

namespace Cornus.Wire

open BlockCache

/-- The negotiated coherence features.  Demand-fill implies sub-block
digests. -/
structure Features where
  (subBlockHash deferHash subBlockFill : Bool)
  fillHashes : subBlockFill = true → subBlockHash = true

def classicFeatures : Features :=
  { subBlockHash := false, deferHash := false, subBlockFill := false, fillHashes := id }

variable (Hash : Type)

/-- A write unit with its hash. -/
structure UnitHash where
  (blockIdx subOff subLen : Nat)
  hash : Hash

structure ReadFrame where
  (blockIdx seq : Nat)
  hash : Hash
  data : Bytes
  (eof final : Bool)

structure WriteReply where
  (n size mtimeNs seq : Nat)
  units : List (UnitHash Hash)

section Units

variable (chunk : ChunkSize) (features : Features)

/-- A sub-block, or a whole chunk. -/
def unitSize : Nat :=
  if features.subBlockHash then subBlockSize else chunk.bytes

/-- The end of the valid bytes of a block of a file of the given size. -/
def blockValidEnd (b size : Nat) : Nat :=
  min (b * chunk.bytes + chunk.bytes) size

/-- The blocks `first` to `last` of a write of `n` bytes. -/
def writtenBlocks (off n : Nat) : List Nat :=
  if n = 0 then []
  else List.range' (off / chunk.bytes) ((off + n - 1) / chunk.bytes + 1 - off / chunk.bytes)

/-- The inner loop of `forEachWriteUnit`: the units of block `b` that the
written range overlaps, with their valid lengths. -/
def blockUnits (unit off n size b : Nat) : List (Nat × Nat × Nat) :=
  let blockStart := b * chunk.bytes
  let validEnd := blockValidEnd chunk b size
  let lo := max off blockStart
  let hi := min (min (off + n) size) validEnd
  if hi ≤ lo then []
  else
    let first := (lo - blockStart) / unit * unit
    (List.range ((hi - blockStart - first + unit - 1) / unit)).map fun step =>
      let so := first + step * unit
      (b, so, min (blockStart + so + unit) validEnd - (blockStart + so))

/-- The units that a write touches. -/
def forEachWriteUnit (off n size : Nat) : List (Nat × Nat × Nat) :=
  (writtenBlocks chunk off n).flatMap (blockUnits chunk (unitSize chunk features) off n size)

end Units

/-- What the reader of an encoded list recovers: the count is a 16-bit
field. -/
def putUnitHashes {Hash : Type} (units : List (UnitHash Hash)) : List (UnitHash Hash) :=
  units.take (units.length % 2 ^ 16)

section Digests

variable {Hash : Type} (hashChunk : Bytes → Hash) (chunk : ChunkSize) (file : Bytes)
  (absOff length : Nat)

def hashUnit : Hash :=
  hashChunk (fileReadAt file absOff length)

/-- A unit the write covers is hashed from the write buffer, any other from
the file. -/
def unitHashCovering (data : Bytes) (off n : Nat) : Hash :=
  if off ≤ absOff ∧ absOff + length ≤ off + n then
    hashChunk (data.slice (absOff - off) length)
  else hashUnit hashChunk file absOff length

variable (features : Features)

def writeUnits (file : Bytes) (data : Bytes) (off n size : Nat) : List (UnitHash Hash) :=
  (forEachWriteUnit chunk features off n size).map
    fun (blockIdx, subOff, length) =>
      { blockIdx
        subOff
        subLen := length
        hash := unitHashCovering hashChunk file
          (blockIdx * chunk.bytes + subOff) length data off n }

def classicEntries (data : Bytes) (off n size : Nat) : List (UnitHash Hash) :=
  (writtenBlocks chunk off n).filterMap fun b =>
    let blockStart := b * chunk.bytes
    let validEnd := blockValidEnd chunk b size
    if validEnd ≤ blockStart then none
    else some
      { blockIdx := b
        subOff := 0
        subLen := 0
        hash := unitHashCovering hashChunk file blockStart
          (validEnd - blockStart) data off n }

/-- The part of a write reply after the fixed fields.  `file` is the file the
digests are read from. -/
def replyUnits (file : Bytes) (data : Bytes) (off n size : Nat) : List (UnitHash Hash) :=
  if features.deferHash then []
  else if features.subBlockHash then
    putUnitHashes (writeUnits hashChunk chunk features file data off n size)
  else putUnitHashes (classicEntries hashChunk chunk file data off n size)

/-- `readBlock`: the valid bytes of a block, its digest, and whether the block
exists in a file of the given size. -/
def readBlock [Inhabited Hash] (file : Bytes) (blockIdx size : Nat) : Bytes × Hash × Bool :=
  let off := blockIdx * chunk.bytes
  if size ≤ off then (Padded.blank 0, default, false)
  else
    let buf := fileReadAt file off (blockValidEnd chunk blockIdx size - off)
    (buf, hashChunk buf, true)

/-- One turn of the loop of `handleRead`, with `left` turns after it. -/
def readFrame [Inhabited Hash] (file : Bytes) (seq size b left : Nat) : ReadFrame Hash :=
  let (data, hash, present) := readBlock hashChunk chunk file b size
  let atEOF := !present || decide (size ≤ b * chunk.bytes + data.len)
  { blockIdx := b, seq, hash, data, eof := atEOF, final := left == 0 || atEOF }

theorem readFrame_spec [Inhabited Hash] (seq b left : Nat) (within : size ≤ file.len) :
    let data := (readFrame hashChunk chunk file seq size b left).data
    data.len = min chunk.bytes (size - b * chunk.bytes) ∧ ∀ index, index < data.len →
        data.get index = file.get (b * chunk.bytes + index) := by
  simp only [readFrame, readBlock]
  split_ifs with past
  · refine ⟨?_, ?_⟩
    · simp only [Padded.blank_len]
      omega
    · intro index below
      simp at below
  · refine ⟨?_, ?_⟩
    · simp only [fileReadAt_len, blockValidEnd]
      omega
    · intro index below
      exact fileReadAt_get _ below

def readFrames [Inhabited Hash] (file : Bytes) (seq size : Nat)
    (b : Nat) : Nat → List (ReadFrame Hash)
  | 0 => []
  | left + 1 =>
    let frame := readFrame hashChunk chunk file seq size b left
    frame ::
      if frame.final then [] else readFrames file seq size (b + 1) left

/-- The frames of a read. -/
def handleRead [Inhabited Hash] (file : Bytes) (seq blockIdx nBlocks : Nat) :
    List (ReadFrame Hash) :=
  readFrames hashChunk chunk file seq file.len blockIdx (max nBlocks 1)

/-- `handleReadRange`: the label and the bytes, or `EINVAL` for an empty or
oversized range. -/
def handleReadRange (seq blockIdx subOff subLen : Nat) : Option (Nat × Bytes) :=
  if subLen = 0 ∨ chunk.bytes < subLen then none
  else some (seq, fileReadAt file (blockIdx * chunk.bytes + subOff) subLen)

end Digests

def insertDirty (dirty : List Nat) (unit : Nat) : List Nat :=
  if unit ∈ dirty then dirty else dirty ++ [unit]

/-- The units of a write become dirty. -/
def markDirty (chunk : ChunkSize) (features : Features) (dirty : List Nat)
    (off n size : Nat) : List Nat :=
  (forEachWriteUnit chunk features off n size).foldl (fun dirty (blockIdx, subOff, _) =>
      insertDirty dirty (blockIdx * chunk.bytes + subOff)) dirty

variable {Hash Errno : Type} (chunk : ChunkSize) (features : Features)

/-- The unit a dirty offset stands for in a file of the given size; a unit
past the end is skipped. -/
def dirtyUnit (size unit : Nat) : Option (Nat × Nat × Nat) :=
  let blockIdx := unit / chunk.bytes
  let validEnd := blockValidEnd chunk blockIdx size
  let length := min (unit + unitSize chunk features) validEnd - unit
  if size ≤ unit ∨ length = 0 then none
  else some (blockIdx, unit - blockIdx * chunk.bytes, length)

/-- The loop of `drainDirtyUnits`, ending at the first unit that cannot be
read. -/
def hashDirty (features : Features) (size : Nat) (hash : Nat → Nat → Except Errno Hash) :
    List Nat → Except Errno (List (UnitHash Hash))
  | [] => .ok []
  | unit :: units =>
    match dirtyUnit chunk features size unit with
    | none => hashDirty features size hash units
    | some (blockIdx, subOff, length) => do
      let digest ← hash unit length
      let rest ← hashDirty features size hash units
      .ok ({ blockIdx, subOff, subLen := length, hash := digest } :: rest)

/-- `drainDirtyUnits` on the removed set, in the order in which it is
ranged. -/
def drainDirtyUnits (stat : Except Errno Nat)
    (hash : Nat → Nat → Except Errno Hash) (offs : List Nat) :
    Except Errno (List (UnitHash Hash)) :=
  if offs.isEmpty then .ok []
  else do
    let size ← stat
    hashDirty chunk features size hash offs

/-- The number of units in one frame of an fsync reply. -/
def maxPer : Nat :=
  max 1 ((chunk.bytes + 4096 - 64) / 24)

/-- A list, cut into frames of `size` items. -/
def splitFrames {α : Type} (size : Nat) : Nat → List α → List (List α)
  | 0, _ => []
  | _ + 1, [] => []
  | fuel + 1, units =>
    units.take size :: splitFrames size fuel (units.drop size)

/-- The unit lists the proxy decodes from the frames of an fsync reply. -/
def fsyncFrames (units : List (UnitHash Hash)) : List (List (UnitHash Hash)) :=
  if units.isEmpty then [[]]
  else (splitFrames (maxPer chunk) units.length units).map putUnitHashes

end Cornus.Wire
