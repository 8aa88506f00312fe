import Cornus.BlockCache.Store

/-!
# What a store promises about single bytes

The two backends keep presence in different shapes.  A `View` reads either of
them byte by byte: which positions of a chunk the bucket claims to hold
(`Marked`), what it would answer there (`byte`), and how far the bytes it
physically keeps reach (`Holds`).  `View.Lawful` states what each operation does
to these readings.  Everything the block proxy does with a cache is proved from
the laws alone, so a backend is used through them and never unfolded again.
-/

namespace Cornus.BlockCache

/-- A byte-level reading of buckets. -/
structure View (Entry : Type) where
  /-- The bucket has the shape every operation keeps. -/
  Sound : Option Entry → Prop
  /-- Position `index` of chunk `idx` is claimed to be cached. -/
  Marked : Option Entry → (idx index : Nat) → Prop
  /-- The byte kept at position `index` of chunk `idx`. -/
  byte : Option Entry → (idx index : Nat) → UInt8
  /-- The first `length` bytes of chunk `idx` are physically kept. -/
  Holds : Option Entry → (idx length : Nat) → Prop
  /-- Chunk `idx` is cached as a whole. -/
  Whole : Option Entry → (idx : Nat) → Prop
  /-- Nothing of chunk `idx` is cached. -/
  Vacant : Option Entry → (idx : Nat) → Prop
  /-- A write-through that does not cover the chunk is applied to it. -/
  Splices : Option Entry → (idx chunkOff length : Nat) → Prop
  /-- The read-modify-write of a whole chunk can read its `chunkLen` bytes once
  the backing reaches `writeEnd`. -/
  Ready : Option Entry → (idx writeEnd chunkLen : Nat) → Prop

namespace View

variable {Hash Entry : Type} (view : View Entry)

/-- A range of a chunk. -/
def bytes (bucket : Option Entry) (idx off length : Nat) : Bytes :=
  { len := length
    get := fun index =>
      if index < length then view.byte bucket idx (off + index) else 0
    pad := fun index past => by simp [Nat.not_lt.mpr past]; rfl }

variable (chunk : ChunkSize) (before after : Option Entry) (idx : Nat)

/-- An operation on chunk `idx` left every other chunk alone. -/
structure Frame : Prop where
  sound : view.Sound after
  marked : ∀ other index, other ≠ idx → index < chunk.bytes →
    (view.Marked after other index ↔ view.Marked before other index)
  byte : ∀ other index, other ≠ idx → index < chunk.bytes →
    view.byte after other index = view.byte before other index
  holds : ∀ other length, other ≠ idx → view.Holds before other length →
    view.Holds after other length
  whole : ∀ other, other ≠ idx → view.Whole before other → view.Whole after other
  vacant : ∀ other, other ≠ idx → view.Vacant before other → view.Vacant after other
  splices : ∀ other off length, other ≠ idx → off < chunk.bytes →
    off + length ≤ chunk.bytes → view.Splices after other off length →
    view.Splices before other off length
  ready : ∀ other writeEnd chunkLen, other ≠ idx → view.Ready before other writeEnd chunkLen →
    view.Ready after other writeEnd chunkLen

theorem Frame.refl {view : View Entry} {chunk : ChunkSize} (sound : view.Sound bucket) (idx : Nat) :
    Frame view chunk bucket bucket idx where
  sound
  marked := fun _ _ _ _ => Iff.rfl
  byte := fun _ _ _ _ => rfl
  holds := fun _ _ _ held => held
  whole := fun _ _ whole => whole
  vacant := fun _ _ vacant => vacant
  splices := fun _ _ _ _ _ _ spliced => spliced
  ready := fun _ _ _ _ ready => ready

/-- Chunk `idx` was replaced by `data` and is cached as a whole. -/
structure Overwrites (data : Bytes) : Prop extends Frame view chunk before after idx where
  inside : ∀ index, index < data.len → view.byte after idx index = data.get index
  beyond : ∀ index, data.len ≤ index → index < chunk.bytes → view.byte after idx index = 0 ∨
      view.byte after idx index = view.byte before idx index
  becomesWhole : view.Whole after idx

/-- `data` was written at `off` of chunk `idx`, and the sub-blocks it touches
were marked. -/
structure SplicesIn (idx off : Nat) (data : Bytes) : Prop
    extends Frame view chunk before after idx where
  inside : ∀ index, off ≤ index → index < off + data.len →
    view.byte after idx index = data.get (index - off)
  outside : ∀ index, ¬(off ≤ index ∧ index < off + data.len) → index < chunk.bytes →
    view.byte after idx index = view.byte before idx index
  newMarks : ∀ index, index < chunk.bytes → view.Marked after idx index →
    view.Marked before idx index ∨ Touched off data.len index
  staysWhole : view.Whole before idx → view.Whole after idx
  keepsHolding : ∀ length, view.Holds before idx length → view.Holds after idx length
  reaches : view.Holds after idx (off + data.len)

/-- Chunk `idx` was dropped; at most the bytes of a write at `off` changed. -/
structure Drops (idx off length : Nat) : Prop extends Frame view chunk before after idx where
  becomesVacant : view.Vacant after idx
  outside : ∀ index, ¬(off ≤ index ∧ index < off + length) → index < chunk.bytes →
    view.byte after idx index = 0 ∨ view.byte after idx index = view.byte before idx index

/-- The laws a backend satisfies through its view. -/
structure Lawful (hashChunk : Bytes → Hash)
    (chunk : ChunkSize) (store : Store Hash Entry) : Prop where
  sound_none : view.Sound none
  vacant_none : ∀ idx, view.Vacant none idx
  byte_none : ∀ idx index, view.byte none idx index = 0
  vacant_marked : ∀ {bucket idx index}, view.Sound bucket →
    view.Vacant bucket idx → index < chunk.bytes → ¬view.Marked bucket idx index
  whole_marked : ∀ {bucket idx index}, view.Whole bucket idx → view.Marked bucket idx index
  marked_sub : ∀ {bucket idx left right}, left / subBlockSize = right / subBlockSize →
    view.Marked bucket idx left → view.Marked bucket idx right
  holds_le : ∀ {bucket idx length longer}, length ≤ longer →
    view.Holds bucket idx longer → view.Holds bucket idx length
  get_spec : ∀ {bucket idx length data},
    store.get bucket idx length = some data → data.len ≤ length ∧
      view.Whole bucket idx ∧ ∀ index, index < data.len →
        data.get index = view.byte bucket idx index
  getSub_spec : ∀ {bucket idx subOff length data}, view.Sound bucket →
    subOff + length ≤ chunk.bytes →
    store.getSub bucket idx subOff length = some data →
    data.len = length ∧ ∀ index, index < length → view.Marked bucket idx (subOff + index) ∧
        data.get index = view.byte bucket idx (subOff + index)
  hashRange_spec : ∀ {bucket idx off length hash}, view.Sound bucket → off + length ≤ chunk.bytes →
    store.hashRange bucket idx off length = some hash →
    hash = hashChunk (view.bytes bucket idx off length) ∧
      ∀ index, index < length → view.Marked bucket idx (off + index)
  hashRange_some : ∀ {bucket idx off length}, view.Sound bucket →
    0 < length → off + length ≤ chunk.bytes →
    (∀ index, index < length → view.Marked bucket idx (off + index)) →
    view.Holds bucket idx (off + length) → ∃ hash, store.hashRange bucket idx off length = some hash
  putHashed_spec : ∀ {bucket idx data hash}, view.Sound bucket → data.len ≤ chunk.bytes →
    Overwrites view chunk bucket (store.putHashed bucket idx data hash) idx data
  putSub_spec : ∀ {bucket idx subOff data}, view.Sound bucket →
    subOff < chunk.bytes → subOff + data.len ≤ chunk.bytes →
    SplicesIn view chunk bucket (store.putSub bucket idx subOff data) idx subOff data
  writeThrough_full : ∀ {bucket idx data}, view.Sound bucket → data.len ≤ chunk.bytes →
    Overwrites view chunk bucket (store.writeThrough bucket idx 0 data data.len) idx data
  writeThrough_partial : ∀ {bucket idx chunkOff data chunkLen},
    view.Sound bucket → chunkOff < chunk.bytes →
    chunkOff + data.len ≤ chunk.bytes →
    ¬(chunkOff = 0 ∧ data.len = chunkLen) →
    view.Splices bucket idx chunkOff data.len →
    SplicesIn view chunk bucket (store.writeThrough bucket idx chunkOff data chunkLen)
      idx chunkOff data
  writeThrough_skip : ∀ {bucket idx chunkOff data chunkLen}, ¬(chunkOff = 0 ∧ data.len = chunkLen) →
    ¬view.Splices bucket idx chunkOff data.len →
    store.writeThrough bucket idx chunkOff data chunkLen = bucket
  unspliced_unmarked : ∀ {bucket idx chunkOff length index},
    view.Sound bucket → index < chunk.bytes →
    ¬view.Splices bucket idx chunkOff length →
    Touched chunkOff length index → ¬view.Marked bucket idx index
  vacant_unspliced : ∀ {bucket idx chunkOff length}, view.Sound bucket →
    chunkOff < chunk.bytes → chunkOff + length ≤ chunk.bytes →
    view.Vacant bucket idx → ¬view.Splices bucket idx chunkOff length
  writeChunk_full : ∀ {bucket idx data hash}, view.Sound bucket → data.len ≤ chunk.bytes →
    Overwrites view chunk bucket (store.writeChunk bucket idx 0 data data.len hash) idx data
  writeChunk_vacant : ∀ {bucket idx chunkOff data chunkLen hash},
    ¬(chunkOff = 0 ∧ data.len = chunkLen) → view.Vacant bucket idx →
    store.writeChunk bucket idx chunkOff data chunkLen hash = bucket
  writeChunk_match : ∀ {bucket idx chunkOff data chunkLen hash},
    view.Sound bucket → chunkOff + data.len ≤ chunkLen →
    chunkLen ≤ chunk.bytes → ¬(chunkOff = 0 ∧ data.len = chunkLen) →
    view.Whole bucket idx →
    view.Ready bucket idx (chunkOff + data.len) chunkLen →
    hashChunk ((view.bytes bucket idx 0 chunkLen).splice chunkOff data) = hash →
    Overwrites view chunk bucket (store.writeChunk bucket idx chunkOff data chunkLen hash) idx
      ((view.bytes bucket idx 0 chunkLen).splice chunkOff data)
  writeChunk_mismatch : ∀ {bucket idx chunkOff data chunkLen hash},
    view.Sound bucket → chunkOff + data.len ≤ chunkLen →
    chunkLen ≤ chunk.bytes → ¬(chunkOff = 0 ∧ data.len = chunkLen) →
    view.Whole bucket idx →
    view.Ready bucket idx (chunkOff + data.len) chunkLen →
    hashChunk ((view.bytes bucket idx 0 chunkLen).splice chunkOff data) ≠ hash →
    Drops view chunk bucket (store.writeChunk bucket idx chunkOff data chunkLen hash) idx
      chunkOff data.len
  drop_spec : ∀ {bucket idx}, view.Sound bucket →
    Drops view chunk bucket (store.drop bucket idx) idx 0 0
  resize_sound : ∀ {bucket newSize}, view.Sound bucket → view.Sound (store.resize bucket newSize)
  resize_marked : ∀ {bucket newSize idx index}, view.Sound bucket → index < chunk.bytes →
    view.Marked (store.resize bucket newSize) idx index →
    view.Marked bucket idx index ∧ (idx * chunk.bytes + index < newSize →
        view.byte (store.resize bucket newSize) idx index = view.byte bucket idx index)
  resize_beyond : ∀ {bucket newSize idx index}, view.Sound bucket →
    index < chunk.bytes → newSize ≤ idx * chunk.bytes + index →
    view.byte (store.resize bucket newSize) idx index = 0
  resize_uniform : ∀ {bucket newSize idx}, view.Sound bucket →
    view.Whole bucket idx ∨ view.Vacant bucket idx →
    view.Whole (store.resize bucket newSize) idx ∨ view.Vacant (store.resize bucket newSize) idx
  setHint_sound : ∀ {bucket size mtimeNs}, view.Sound bucket →
    view.Sound (store.setHint bucket size mtimeNs)
  setHint_marked : ∀ {bucket size mtimeNs idx index},
    view.Marked (store.setHint bucket size mtimeNs) idx index ↔ view.Marked bucket idx index
  setHint_byte : ∀ {bucket size mtimeNs idx index},
    view.byte (store.setHint bucket size mtimeNs) idx index = view.byte bucket idx index
  setHint_whole : ∀ {bucket size mtimeNs idx},
    view.Whole (store.setHint bucket size mtimeNs) idx ↔ view.Whole bucket idx
  setHint_vacant : ∀ {bucket size mtimeNs idx},
    view.Vacant (store.setHint bucket size mtimeNs) idx ↔ view.Vacant bucket idx

end View

end Cornus.BlockCache
