import Cornus.BlockCache.Store

/-!
# The on-disk store

`DiskStore` keeps a bucket as one sparse backing file and a sidecar index.  The
index carries a chunk bitmap, a sub-block bitmap over the whole file and a
table of hashes.  Bitmaps grow by whole bytes, and an index that is not written
back leaves the previous one in force, also after the backing file changed.
-/

namespace Cornus.BlockCache

/-- `diskIndex`, without the echo of the file's identity. -/
structure DiskIndex (Hash : Type) [Inhabited Hash] where
  curSize : Nat
  bitmap : Padded Bool
  subBitmap : Padded Bool
  hashes : Padded Hash
  hint : Option (Nat × Nat)

/-- The index and the data file of one cached file. -/
structure DiskEntry (Hash : Type) [Inhabited Hash] where
  index : DiskIndex Hash
  data : Bytes

namespace DiskStore

variable {Hash : Type} [Inhabited Hash] (chunk : ChunkSize)

/-- Exact as long as `size` stays a chunk below 2^63, where the sum of the
source's `int64` wraps. -/
def numChunks (size : Nat) : Nat :=
  if size = 0 then 0 else (size + chunk.bytes - 1) / chunk.bytes

/-- The first sub-block of a chunk. -/
def firstSub (idx : Nat) : Nat :=
  idx * chunk.bytes / subBlockSize

/-- The last sub-block of a chunk. -/
def lastSub (idx : Nat) : Nat :=
  ((idx + 1) * chunk.bytes - 1) / subBlockSize

/-- A bitmap grown to whole bytes so that bit `position` is addressable. -/
def growBits (bitmap : Padded Bool) (position : Nat) : Padded Bool :=
  if bitmap.len / 8 ≤ position / 8 then
    bitmap.resize (8 * (position / 8 + 1))
  else bitmap

variable (index : DiskIndex Hash)

/-- `grow`: the chunk's bit and hash become addressable. -/
def grow (idx : Nat) : DiskIndex Hash :=
  { index with
    bitmap := growBits index.bitmap idx
    hashes :=
      if index.hashes.len ≤ idx then index.hashes.resize (idx + 1)
      else index.hashes }

/-- `ensureSubBitmap`. -/
def ensureSubBitmap (sub : Nat) : DiskIndex Hash :=
  { index with subBitmap := growBits index.subBitmap sub }

/-- Set every sub-block bit of an inclusive range. -/
def setSubs (first last : Nat) : DiskIndex Hash :=
  let ready := ensureSubBitmap index last
  { ready with subBitmap := ready.subBitmap.setRange first (last + 1 - first) true }

/-- `setChunkSubBits`. -/
def setChunkSubBits (idx : Nat) : DiskIndex Hash :=
  setSubs index (firstSub chunk idx) (lastSub chunk idx)

/-- `clearChunkSubBits`. -/
def clearChunkSubBits (idx : Nat) : DiskIndex Hash :=
  { index with
    subBitmap := index.subBitmap.setRange (firstSub chunk idx)
      (lastSub chunk idx + 1 - firstSub chunk idx) false }

/-- The chunk is present as a whole, with its hash. -/
def markChunk (idx : Nat) (hash : Hash) : DiskIndex Hash :=
  let grown := grow index idx
  let marked := setChunkSubBits chunk
    { grown with bitmap := grown.bitmap.set idx true } idx
  { marked with hashes := marked.hashes.set idx hash }

/-- Nothing of the chunk is present. -/
def clearChunk (idx : Nat) : DiskIndex Hash :=
  let cleared := clearChunkSubBits chunk
    { index with bitmap := index.bitmap.set idx false } idx
  { cleared with hashes := cleared.hashes.set idx default }

/-- The first loop of `Resize`: clear `count` chunks from `idx` on. -/
def clearChunks (chunk : ChunkSize) (index : DiskIndex Hash) (idx : Nat)
    (count : Nat) : DiskIndex Hash :=
  match count with
  | 0 => index
  | count + 1 =>
    clearChunks chunk (clearChunk chunk index idx) (idx + 1) count

/-- The index of a file of which nothing is cached. -/
def freshIndex (backing : Nat) : DiskIndex Hash :=
  { curSize := backing, bitmap := Padded.blank (8 * ((numChunks chunk backing + 7) / 8)),
    subBitmap := Padded.blank 0, hashes := Padded.blank (numChunks chunk backing), hint := none }

variable (bucket : Option (DiskEntry Hash))

/-- `loadOrFresh`: the current index, or a fresh one, with the backing file
truncated to at least `minBacking`. -/
def loadOrFresh (minBacking : Nat) : DiskEntry Hash :=
  match bucket with
  | none =>
    { index := freshIndex chunk minBacking, data := Padded.blank minBacking }
  | some file =>
    if file.index.curSize < minBacking then
      { index := { file.index with curSize := minBacking }, data := file.data.resize minBacking }
    else file

/-- `readData`: a full read, or the error of a short one. -/
def readData (data : Bytes) (off length : Nat) : Option Bytes :=
  if length = 0 ∨ off + length ≤ data.len then some (data.slice off length)
  else none

/-- `bitSet` on either bitmap for global sub-block `sub`. -/
def subPresent (sub : Nat) : Bool :=
  index.subBitmap.get sub ||
    index.bitmap.get (sub * subBlockSize / chunk.bytes)

/-- `Get`: a chunk that is present as a whole. -/
def get (chunk : ChunkSize) (bucket : Option (DiskEntry Hash))
    (idx length : Nat) : Option Bytes := do
  let file ← bucket
  if !file.index.bitmap.get idx then none
  else readData file.data (idx * chunk.bytes) length

/-- `PutHashed`. -/
def putHashed (idx : Nat) (data : Bytes) (hash : Hash) : Option (DiskEntry Hash) :=
  let file := loadOrFresh chunk bucket (idx * chunk.bytes + data.len)
  some
    { index := markChunk chunk file.index idx hash
      data := file.data.splice (idx * chunk.bytes) data }

/-- `GetSub`: a range whose sub-blocks are all present. -/
def getSub (idx subOff length : Nat) : Option Bytes := do
  let file ← bucket
  let absOff := idx * chunk.bytes + subOff
  if !Padded.allRange (subPresent chunk file.index) (subSpan absOff length).1
      (spanCount absOff length) then none
  else readData file.data absOff length

/-- `PutSub`; the sub-blocks that the data touches are marked. -/
def putSub (idx subOff : Nat) (data : Bytes) : Option (DiskEntry Hash) :=
  let absOff := idx * chunk.bytes + subOff
  let file := loadOrFresh chunk bucket (absOff + data.len)
  some
    { index := setSubs file.index (subSpan absOff data.len).1
        (subSpan absOff data.len).2
      data := file.data.splice absOff data }

/-- `WriteChunk`.  When the read of the read-modify-write is short the call
fails with the index still as it was. -/
def writeChunk [DecidableEq Hash] (hashChunk : Bytes → Hash)
    (chunk : ChunkSize) (bucket : Option (DiskEntry Hash))
    (idx chunkOff : Nat) (data : Bytes) (chunkLen : Nat)
    (callerHash : Hash) : Option (DiskEntry Hash) :=
  let present := (bucket.map (·.index.bitmap.get idx)).getD false
  let full := chunkOff = 0 ∧ data.len = chunkLen
  if ¬full ∧ present = false then bucket
  else
    let start := idx * chunk.bytes
    let file := loadOrFresh chunk bucket (start + chunkOff + data.len)
    if full then
      some
        { index := markChunk chunk file.index idx callerHash
          data := file.data.splice start data }
    else
      match readData file.data start chunkLen with
      | none => bucket.map fun stored => { stored with data := file.data }
      | some cur =>
        let merged := (cur.splice chunkOff data).resize chunkLen
        let written := file.data.splice (start + chunkOff) data
        if hashChunk merged = callerHash then
          some
            { index := markChunk chunk file.index idx callerHash, data := written }
        else
          some
            { index := clearChunk chunk (grow file.index idx) idx, data := written }

/-- Whether `WriteThrough` finds any of the written bytes cached. -/
def writeCached (idx chunkOff length : Nat) : Bool :=
  match bucket with
  | none => false
  | some file =>
    let absOff := idx * chunk.bytes + chunkOff
    file.index.bitmap.get idx ||
      !Padded.allRange (fun sub => !file.index.subBitmap.get sub)
        (subSpan absOff length).1 (spanCount absOff length)

/-- `WriteThrough`; a partial write needs the chunk cached. -/
def writeThrough (idx chunkOff : Nat) (data : Bytes) (chunkLen : Nat) : Option (DiskEntry Hash) :=
  let full := chunkOff = 0 ∧ data.len = chunkLen
  if ¬full ∧ writeCached chunk bucket idx chunkOff data.len = false then bucket
  else
    let absOff := idx * chunk.bytes + chunkOff
    let file := loadOrFresh chunk bucket (absOff + data.len)
    let grown := grow file.index idx
    let marked :=
      if full then
        setChunkSubBits chunk
          { grown with bitmap := grown.bitmap.set idx true } idx
      else setSubs grown (subSpan absOff data.len).1 (subSpan absOff data.len).2
    some
      { index := { marked with hashes := marked.hashes.set idx default }
        data := file.data.splice absOff data }

/-- `HashRange`, over a range that is present. -/
def hashRange (hashChunk : Bytes → Hash) (chunk : ChunkSize)
    (bucket : Option (DiskEntry Hash)) (idx off length : Nat) :
    Option Hash := do
  let file ← bucket
  let start := idx * chunk.bytes
  let present := fun sub =>
    file.index.subBitmap.get sub || file.index.bitmap.get idx
  if !Padded.allRange present (subSpan (start + off) length).1
      (spanCount (start + off) length) then none
  else if chunk.bytes < off + length ∨
      file.index.curSize < start + off + length then none
  else
    let buf ← readData file.data (start + off) length
    some (hashChunk buf)

/-- `ChunkHash` of a whole chunk. -/
def chunkHash (idx : Nat) : Option Hash := do
  let file ← bucket
  if !file.index.bitmap.get idx then none
  else some (file.index.hashes.get idx)

/-- `Drop`. -/
def drop (idx : Nat) : Option (DiskEntry Hash) :=
  bucket.map fun file =>
    { file with index := clearChunk chunk file.index idx }

/-- `Resize`, which also drops the chunk that the new end cuts. -/
def resize (chunk : ChunkSize) (bucket : Option (DiskEntry Hash))
    (newSize : Nat) : Option (DiskEntry Hash) :=
  match bucket with
  | none =>
    some
      { index := freshIndex chunk newSize, data := Padded.blank newSize }
  | some file =>
    let dropFrom := newSize / chunk.bytes
    let cut := clearChunks chunk file.index dropFrom
      (file.index.bitmap.len - dropFrom)
    let settled :=
      if 0 < file.index.curSize then
        clearChunk chunk cut ((file.index.curSize - 1) / chunk.bytes)
      else cut
    let count := numChunks chunk newSize
    some
      { index :=
          { settled with
            curSize := newSize
            bitmap :=
              if (count + 7) / 8 < settled.bitmap.len / 8 then
                settled.bitmap.resize (8 * ((count + 7) / 8))
              else settled.bitmap
            hashes :=
              if count < settled.hashes.len then
                settled.hashes.resize count
              else settled.hashes }
        data := file.data.resize newSize }

/-- The size and time recorded for revalidation. -/
def hint (bucket : Option (DiskEntry Hash)) : Option (Nat × Nat) :=
  bucket.bind (·.index.hint)

/-- `SetHint`. -/
def setHint (size mtimeNs : Nat) : Option (DiskEntry Hash) :=
  let file := bucket.getD
    { index := freshIndex chunk 0, data := Padded.blank 0 }
  some { file with index := { file.index with hint := some (size, mtimeNs) } }

end DiskStore

/-- The operations of `DiskStore`. -/
def diskStore {Hash : Type} [Inhabited Hash] [DecidableEq Hash]
    (hashChunk : Bytes → Hash) (chunk : ChunkSize) :
    Store Hash (DiskEntry Hash) :=
  { get := DiskStore.get chunk, getSub := DiskStore.getSub chunk,
    putSub := DiskStore.putSub chunk, putHashed := DiskStore.putHashed chunk,
    writeChunk := DiskStore.writeChunk hashChunk chunk,
    writeThrough := DiskStore.writeThrough chunk,
    hashRange := DiskStore.hashRange hashChunk chunk, chunkHash := DiskStore.chunkHash,
    drop := DiskStore.drop chunk, resize := DiskStore.resize chunk, hint := DiskStore.hint,
    setHint := DiskStore.setHint chunk }

end Cornus.BlockCache
