import Cornus.Lib.Padded

/-!
# The block cache's store interface

A store keeps one bucket per cached file.  The bucket of a file is a table of
fixed-size chunks; presence is tracked per chunk and, for demand-filled
chunks, per sub-block.  `Store` lists the operations of a bucket; the two
backends are `MemStore` and `DiskStore`.
-/

namespace Cornus.BlockCache

/-- The content of a file or of a buffer. -/
abbrev Bytes := Padded UInt8

variable {index off length : Nat}

theorem Bytes.zero_of_past (data : Bytes) (past : data.len ≤ index) : data.get index = 0 :=
  data.pad index past

/-- `SubBlockSize`: the unit at which a chunk's presence is tracked. -/
def subBlockSize : Nat := 4096

/-- A chunk size the two endpoints may agree on: a positive multiple of the
sub-block size. -/
structure ChunkSize where
  bytes : Nat
  positive : 0 < bytes
  aligned : subBlockSize ∣ bytes

namespace ChunkSize

variable (chunk : ChunkSize)

/-- The sub-blocks of a chunk. -/
def subs : Nat :=
  (chunk.bytes + subBlockSize - 1) / subBlockSize

theorem bytes_eq_subs_mul : chunk.bytes = chunk.subs * subBlockSize := by
  obtain ⟨count, equality⟩ := chunk.aligned
  have exactly : chunk.subs = count := by
    simp only [subs, equality, subBlockSize]
    omega
  rw [exactly, equality, Nat.mul_comm]

theorem position_outside (ne : other ≠ idx) (inChunk : index < chunk.bytes)
    (fits : off + length ≤ chunk.bytes) : ¬(idx * chunk.bytes + off ≤ other * chunk.bytes + index ∧
      other * chunk.bytes + index < idx * chunk.bytes + off + length) := by
  rintro ⟨above, below⟩
  rcases Nat.lt_or_gt_of_ne ne with earlier | later
  · have step : (other + 1) * chunk.bytes ≤ idx * chunk.bytes := Nat.mul_le_mul_right _ earlier
    rw [Nat.add_mul] at step
    omega
  · have step : (idx + 1) * chunk.bytes ≤ other * chunk.bytes := Nat.mul_le_mul_right _ later
    rw [Nat.add_mul] at step
    omega

end ChunkSize

def onePage : ChunkSize :=
  { bytes := 4096
    positive := by decide
    aligned := by decide }

/-- `subSpan`: the inclusive range of sub-blocks that cover
`[off, off + length)`. -/
def subSpan (off length : Nat) : Nat × Nat :=
  if length = 0 then (off / subBlockSize, off / subBlockSize)
  else (off / subBlockSize, (off + length - 1) / subBlockSize)

/-- The number of sub-blocks a range touches. -/
def spanCount (off length : Nat) : Nat :=
  (subSpan off length).2 + 1 - (subSpan off length).1

/-- Position `index` lies in a sub-block of `subSpan off length`. -/
def Touched (off length index : Nat) : Prop :=
  (subSpan off length).1 ≤ index / subBlockSize ∧ index / subBlockSize ≤ (subSpan off length).2

theorem touched_of_inside (above : off ≤ index) (below : index < off + length) :
    Touched off length index := by
  have nonempty : length ≠ 0 := by omega
  simp only [Touched, subSpan, nonempty, if_false, subBlockSize]
  omega

theorem exists_inside_of_span (nonempty : 0 < length)
    (above : (subSpan off length).1 ≤ sub) (below : sub ≤ (subSpan off length).2) :
    ∃ index, off ≤ index ∧ index < off + length ∧ index / subBlockSize = sub := by
  have positive : length ≠ 0 := by omega
  simp only [subSpan, positive, if_false, subBlockSize] at above below
  refine ⟨max off (sub * 4096), ?_, ?_, ?_⟩
  · omega
  · omega
  · simp only [subBlockSize]
    omega

theorem subSpan_le (off length : Nat) : (subSpan off length).1 ≤ (subSpan off length).2 := by
  unfold subSpan
  split_ifs
  · exact Nat.le_refl _
  · exact Nat.div_le_div_right (by omega)

theorem allRange_span_iff {holds : Nat → Bool} :
    Padded.allRange holds (subSpan off length).1 (spanCount off length) = true ↔
      ∀ sub, (subSpan off length).1 ≤ sub → sub ≤ (subSpan off length).2 → holds sub = true := by
  have ordered := subSpan_le off length
  simp only [Padded.allRange_eq_true_iff, spanCount]
  refine forall₂_congr fun sub above => imp_congr_left ?_
  omega

/-- A write to one chunk: where it starts, its bytes, and the valid length of
the chunk after it. -/
structure ChunkWrite where
  chunkOff : Nat
  data : Bytes
  chunkLen : Nat

/-- The write covers its chunk. -/
def ChunkWrite.Full (part : ChunkWrite) : Prop :=
  part.chunkOff = 0 ∧ part.data.len = part.chunkLen

/-! ## Files -/

variable (file : Bytes)

/-- `ReadAt` on a file; it ends where the file ends. -/
def fileReadAt (off length : Nat) : Bytes :=
  file.slice off (min length (file.len - off))

/-- `WriteAt` on a file; a write of nothing does not extend it. -/
def fileWriteAt (off : Nat) (data : Bytes) : Bytes :=
  if data.len = 0 then file else file.splice off data

theorem fileReadAt_len (off length : Nat) :
    (fileReadAt file off length).len = min length (file.len - off) := rfl

theorem fileReadAt_get (below : index < (fileReadAt file off length).len) :
    (fileReadAt file off length).get index = file.get (off + index) :=
  Padded.slice_get_of_lt file below

theorem fileWriteAt_get (off : Nat) (data : Bytes) (position : Nat) :
    (fileWriteAt file off data).get position = if off ≤ position ∧ position < off + data.len then
        data.get (position - off)
      else file.get position := by
  unfold fileWriteAt
  by_cases empty : data.len = 0
  · rw [if_pos empty, if_neg (by omega)]
  · rw [if_neg empty, Padded.splice_get]

theorem fileWriteAt_len (off : Nat) (data : Bytes) : (fileWriteAt file off data).len =
      if data.len = 0 then file.len else max file.len (off + data.len) := by
  unfold fileWriteAt
  split_ifs
  · rfl
  · rfl

theorem fileWriteAt_grows (old : Bytes) (off : Nat) (data : Bytes) :
    old.len ≤ (fileWriteAt old off data).len := by
  rw [fileWriteAt_len]
  split_ifs
  · exact Nat.le_refl _
  · exact Nat.le_max_left _ _

/-! ## Operations -/

/-- The store operations on the bucket of one file.  `none` is a bucket that
does not exist. -/
structure Store (Hash Entry : Type) where
  get : Option Entry → (idx length : Nat) → Option Bytes
  getSub : Option Entry → (idx subOff length : Nat) → Option Bytes
  putSub : Option Entry → (idx subOff : Nat) → Bytes → Option Entry
  putHashed : Option Entry → (idx : Nat) → Bytes → Hash → Option Entry
  writeChunk : Option Entry → (idx chunkOff : Nat) → Bytes → (chunkLen : Nat) → Hash → Option Entry
  writeThrough : Option Entry → (idx chunkOff : Nat) → Bytes → (chunkLen : Nat) → Option Entry
  hashRange : Option Entry → (idx off length : Nat) → Option Hash
  chunkHash : Option Entry → (idx : Nat) → Option Hash
  drop : Option Entry → (idx : Nat) → Option Entry
  resize : Option Entry → (newSize : Nat) → Option Entry
  hint : Option Entry → Option (Nat × Nat)
  setHint : Option Entry → (size mtimeNs : Nat) → Option Entry

/-- `Invalidate`, which forgets the file. -/
def Store.invalidate {Hash Entry : Type} (_store : Store Hash Entry)
    (_bucket : Option Entry) : Option Entry :=
  none

/-- `Rename`: move a bucket, unless nothing is cached under the old name. -/
def Store.rename {Hash Entry Key : Type} [DecidableEq Key]
    (_store : Store Hash Entry) (buckets : Key → Option Entry)
    (oldKey newKey : Key) : Key → Option Entry :=
  if oldKey = newKey then buckets
  else
    match buckets oldKey with
    | none => buckets
    | some entry =>
      Function.update (Function.update buckets newKey (some entry)) oldKey none

end Cornus.BlockCache
