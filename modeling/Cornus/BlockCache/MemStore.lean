import Cornus.BlockCache.Store

/-!
# The in-memory store

`MemStore` keeps a bucket as a map from chunk index to bytes.  A chunk that was
demand-filled also has a presence bitmap; a chunk without one is wholly
present.  In-place growth inside a chunk's spare capacity and the out-of-place
fallbacks of the source compute the same bytes, so both are one `splice`.
-/

namespace Cornus.BlockCache

open Function

/-- `memEntry`. -/
structure MemEntry (Hash : Type) where
  curSize : Nat
  chunks : Nat → Option Bytes
  present : Nat → Option (Padded Bool)
  hashes : Nat → Option Hash
  hint : Option (Nat × Nat)

namespace MemStore

variable {Hash : Type}

/-- An entry of which nothing is cached. -/
def newMemEntry : MemEntry Hash :=
  { curSize := 0
    chunks := fun _ => none
    present := fun _ => none
    hashes := fun _ => none
    hint := none }

variable (bucket : Option (MemEntry Hash))

/-- The entry, made where there is none. -/
def entry : MemEntry Hash :=
  bucket.getD newMemEntry

/-- `bmWords`, in bits: a bitmap of 64-bit words that addresses `count`
sub-blocks. -/
def bitmapBits (count : Nat) : Nat :=
  64 * ((count + 63) / 64)

/-- The sub-blocks of a range become present. -/
def markSpan (bitmap : Padded Bool) (off length : Nat) : Padded Bool :=
  bitmap.setRange (subSpan off length).1 (spanCount off length) true

variable (file : MemEntry Hash)

/-- `rangePresent`. -/
def rangePresent (idx off length : Nat) : Bool :=
  match file.chunks idx with
  | none => false
  | some _ =>
    match file.present idx with
    | none => true
    | some bitmap =>
      Padded.allRange bitmap.get (subSpan off length).1 (spanCount off length)

/-- `Get`: a chunk held as a whole. -/
def get (idx length : Nat) : Option Bytes := do
  let file ← bucket
  let data ← file.chunks idx
  if (file.present idx).isSome then none
  else some (data.resize (min length data.len))

/-- `GetSub`: a range whose sub-blocks are all present. -/
def getSub (idx subOff length : Nat) : Option Bytes := do
  let file ← bucket
  let data ← file.chunks idx
  if !rangePresent file idx subOff length then none
  else if data.len < subOff + length then none
  else some (data.slice subOff length)

variable (chunk : ChunkSize)

/-- `PutSub`, which starts a presence bitmap on a new chunk. -/
def putSub (bucket : Option (MemEntry Hash))
    (idx subOff : Nat) (data : Bytes) : Option (MemEntry Hash) :=
  let file := entry bucket
  let need := subOff + data.len
  let wasFull := (file.chunks idx).isSome && (file.present idx).isNone
  let buf := ((file.chunks idx).getD (Padded.blank 0)).splice subOff data
  let bitmap := (file.present idx).getD (Padded.blank (bitmapBits chunk.subs))
  some { file with
      chunks := update file.chunks idx (some buf)
      present :=
        if wasFull then file.present
        else update file.present idx (some (markSpan bitmap subOff data.len))
      curSize := max file.curSize need }

/-- `PutHashed`. -/
def putHashed (bucket : Option (MemEntry Hash))
    (idx : Nat) (data : Bytes) (hash : Hash) : Option (MemEntry Hash) :=
  let file := entry bucket
  some { file with
      chunks := update file.chunks idx (some data),
      present := update file.present idx none, hashes := update file.hashes idx (some hash),
      curSize := max file.curSize (idx * chunk.bytes + data.len) }

/-- `WriteChunk`.  On a hash mismatch the chunk and its hash are deleted; the
presence bitmap is left as it was. -/
def writeChunk [DecidableEq Hash] (hashChunk : Bytes → Hash)
    (chunk : ChunkSize) (bucket : Option (MemEntry Hash))
    (idx chunkOff : Nat) (data : Bytes) (chunkLen : Nat)
    (callerHash : Hash) : Option (MemEntry Hash) :=
  let file := entry bucket
  let grown := max file.curSize (idx * chunk.bytes + chunkOff + data.len)
  if chunkOff = 0 ∧ data.len = chunkLen then
    some { file with
        chunks := update file.chunks idx (some data),
        present := update file.present idx none,
        hashes := update file.hashes idx (some callerHash), curSize := grown }
  else
    match file.chunks idx with
    | none => bucket
    | some cur =>
      let merged := ((cur.resize chunkLen).splice chunkOff data).resize chunkLen
      if hashChunk merged = callerHash then
        some { file with
            chunks := update file.chunks idx (some merged),
            hashes := update file.hashes idx (some callerHash), curSize := grown }
      else
        some { file with
            chunks := update file.chunks idx none,
            hashes := update file.hashes idx none, curSize := grown }

/-- `WriteThrough`; a partial write needs the chunk held. -/
def writeThrough [Inhabited Hash] (chunk : ChunkSize)
    (bucket : Option (MemEntry Hash)) (idx chunkOff : Nat) (data : Bytes)
    (chunkLen : Nat) : Option (MemEntry Hash) :=
  let file := entry bucket
  let grown := max file.curSize (idx * chunk.bytes + chunkOff + data.len)
  if chunkOff = 0 ∧ data.len = chunkLen then
    some { file with
        chunks := update file.chunks idx (some data),
        present := update file.present idx none, hashes := update file.hashes idx (some default),
        curSize := grown }
  else
    match file.chunks idx with
    | none => bucket
    | some cur =>
      some { file with
          chunks :=
            update file.chunks idx (some (cur.splice chunkOff data))
          present := update file.present idx ((file.present idx).map (markSpan · chunkOff data.len))
          hashes := update file.hashes idx (some default)
          curSize := grown }

/-- `HashRange`, over a range that is present. -/
def hashRange (hashChunk : Bytes → Hash) (bucket : Option (MemEntry Hash))
    (idx off length : Nat) : Option Hash := do
  let file ← bucket
  let data ← file.chunks idx
  if data.len < off + length then none
  else if !rangePresent file idx off length then none
  else some (hashChunk (data.slice off length))

/-- `ChunkHash` of a chunk that is held. -/
def chunkHash [Inhabited Hash] (bucket : Option (MemEntry Hash)) (idx : Nat) : Option Hash := do
  let file ← bucket
  let _ ← file.chunks idx
  some ((file.hashes idx).getD default)

/-- Delete the data, the bitmap and the hash of one chunk. -/
def forget (idx : Nat) : MemEntry Hash :=
  { file with
    chunks := update file.chunks idx none, present := update file.present idx none,
    hashes := update file.hashes idx none }

/-- `Drop`. -/
def drop (idx : Nat) : Option (MemEntry Hash) :=
  bucket.map (forget · idx)

/-- `Resize`.  The loop ranges over the cached chunks, so a bitmap without its
chunk survives it. -/
def resize (bucket : Option (MemEntry Hash)) (newSize : Nat) : Option (MemEntry Hash) :=
  let file := entry bucket
  let dropFrom := newSize / chunk.bytes
  let gone := fun idx => dropFrom ≤ idx ∧ (file.chunks idx).isSome
  let kept : MemEntry Hash :=
    { file with
      chunks := fun idx => if gone idx then none else file.chunks idx
      present := fun idx => if gone idx then none else file.present idx
      hashes := fun idx => if gone idx then none else file.hashes idx }
  let settled :=
    if 0 < file.curSize then
      forget kept ((file.curSize - 1) / chunk.bytes)
    else kept
  some { settled with curSize := newSize }

/-- The size and time recorded for revalidation. -/
def hint (bucket : Option (MemEntry Hash)) : Option (Nat × Nat) :=
  bucket.bind (·.hint)

/-- `SetHint`. -/
def setHint (size mtimeNs : Nat) : Option (MemEntry Hash) :=
  some { entry bucket with hint := some (size, mtimeNs) }

end MemStore

/-- The operations of `MemStore`. -/
def memStore {Hash : Type} [Inhabited Hash] [DecidableEq Hash]
    (hashChunk : Bytes → Hash) (chunk : ChunkSize) : Store Hash (MemEntry Hash) :=
  { get := MemStore.get, getSub := MemStore.getSub, putSub := MemStore.putSub chunk,
    putHashed := MemStore.putHashed chunk, writeChunk := MemStore.writeChunk hashChunk chunk,
    writeThrough := MemStore.writeThrough chunk, hashRange := MemStore.hashRange hashChunk,
    chunkHash := MemStore.chunkHash, drop := MemStore.drop, resize := MemStore.resize chunk,
    hint := MemStore.hint, setHint := MemStore.setHint }

end Cornus.BlockCache
