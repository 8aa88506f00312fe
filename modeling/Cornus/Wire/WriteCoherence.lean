import Cornus.Wire.ReadCoherence

/-!
# Writes to a coherent session

A write reaches the caller's file at once and the cached blocks one by one.
After the first loop a touched block agrees with the new file except where a
sub-block was marked that the write covers only in part; these positions are
`Exposed`.  Verification against the caller's digests settles them when the
stored bytes reach the end of their unit.
-/

namespace Cornus.Wire

open BlockCache List Padded Nat Mount

/-! ## The part of a write in one block -/

section Parts

variable {chunk : ChunkSize} {old data : Bytes} {off n b size : Nat}

theorem misses_eq_false_iff : misses chunk off n b = false ↔ max off (b * chunk.bytes) <
        min (off + n) (b * chunk.bytes + chunk.bytes) := by
  rw [misses, decide_eq_false_iff_not, Nat.not_le]

theorem mem_writtenBlocks : b ∈ writtenBlocks chunk off n ↔ misses chunk off n b = false := by
  have positive := chunk.positive
  rw [misses_eq_false_iff, writtenBlocks]
  split_ifs with empty
  · simp only [not_mem_nil, false_iff]
    omega
  · have lower : off / chunk.bytes ≤ b ↔ off < b * chunk.bytes + chunk.bytes := by
      rw [← Nat.lt_succ_iff, div_lt_iff_lt_mul positive, succ_mul]
    have upper : b ≤ (off + n - 1) / chunk.bytes ↔
        b * chunk.bytes ≤ off + n - 1 := le_div_iff_mul_le positive
    have ordered : off / chunk.bytes ≤ (off + n - 1) / chunk.bytes :=
      Nat.div_le_div_right (by omega)
    rw [mem_range'_1]
    omega

theorem nodup_writtenBlocks : (writtenBlocks chunk off n).Nodup := by
  unfold writtenBlocks
  split_ifs
  · exact nodup_nil
  · exact nodup_range'

theorem length_writtenBlocks_le (fits : n ≤ chunk.bytes) :
    (writtenBlocks chunk off n).length ≤ 2 := by
  unfold writtenBlocks
  split_ifs with empty
  · simp
  rw [length_range']
  have step : (off + n - 1) / chunk.bytes ≤ (off + chunk.bytes) / chunk.bytes :=
    Nat.div_le_div_right (by omega)
  rw [add_div_right _ chunk.positive] at step
  omega

/-- What the apply loops compute for a touched block. -/
structure PartSpec (chunk : ChunkSize) (old new : Bytes) (off n b : Nat)
    (part : ChunkWrite) : Prop extends WriteSpec chunk old new b part where
  offset : part.chunkOff = max off (b * chunk.bytes) - b * chunk.bytes
  length : part.data.len = min (off + n) (b * chunk.bytes + chunk.bytes) - max off (b * chunk.bytes)

/-- The part of a write in block `b`, for the file it produces. -/
abbrev writtenPart (chunk : ChunkSize) (old data : Bytes) (off b : Nat) : ChunkWrite :=
  blockPart chunk data off data.len (fileWriteAt old off data).len b

theorem blockPart_spec (hit : misses chunk off data.len b = false) :
    PartSpec chunk old (fileWriteAt old off data) off data.len b
      (writtenPart chunk old data off b) := by
  rw [misses_eq_false_iff] at hit
  have total := fileWriteAt_len old off data
  rw [if_neg (by omega)] at total
  have valid : (writtenPart chunk old data off b).chunkLen = min chunk.bytes
        ((fileWriteAt old off data).len - b * chunk.bytes) := by
    simp only [blockPart]
    split_ifs
    · omega
    · omega
  refine ⟨⟨⟨?_, ?_, ?_, ?_⟩, ?_, valid, ?_⟩, rfl, rfl⟩
  · intro index above below
    simp only [blockPart, slice_len] at above below
    rw [fileWriteAt_get, if_pos (by omega)]
    simp only [blockPart]
    rw [slice_get_of_lt _ (by omega)]
    congr 1
    omega
  · intro index inChunk outside
    simp only [blockPart, slice_len] at outside
    rw [fileWriteAt_get, if_neg (by omega)]
  · omega
  · intro index above below
    simp only [blockPart, slice_len] at above below
    omega
  · simp only [blockPart, slice_len]
    omega
  · rw [valid]
    simp only [blockPart, slice_len]
    omega

theorem fileWriteAt_of_misses (missed : misses chunk off data.len b = true)
    (inChunk : index < chunk.bytes) :
    (fileWriteAt old off data).get (b * chunk.bytes + index) =
      old.get (b * chunk.bytes + index) := by
  simp only [misses, decide_eq_true_eq] at missed
  rw [fileWriteAt_get, if_neg (by omega)]

end Parts

/-! ## Exposed positions -/

variable {Hash Entry : Type}

/-- The end of the sub-block unit of position `index`, relative to the block
start. -/
def unitEnd (chunk : ChunkSize) (size b index : Nat) : Nat :=
  min (index / subBlockSize * subBlockSize + subBlockSize) (size - b * chunk.bytes)

variable {mount : Mount Hash Entry} {old new data : Bytes} {off size seq : Nat}

/-! ## The write-through loop -/

/-- The session fields an apply loop leaves alone. -/
structure Applies (label : Nat) (before after : Session Entry) : Prop
    extends Refills before after where
  last : ∀ bound, label ≤ bound → (∀ b value, before.last b = some value → value ≤ bound) →
    ∀ b value, after.last b = some value → value ≤ bound

theorem Applies.refl (seq : Nat) (session : Session Entry) : Applies seq session session :=
  { Refills.refl session with last := fun _ _ fresh => fresh }

theorem Applies.trans {third : Session Entry}
    (left : Applies seq first second) (right : Applies seq second third) :
    Applies seq first third :=
  { left.toRefills.trans right.toRefills with
    last := fun bound reached fresh =>
      right.last bound reached (left.last bound reached fresh) }

variable (suspect : Nat → Nat → Prop) (limit : Nat → Nat → Nat)

/-- Progress of the write-through loop: the blocks still to come agree with the
old file, all others with the new one up to held suspects. -/
structure ThroughLoop (view : View Entry) (chunk : ChunkSize)
    (old data : Bytes) (off seq : Nat) (suspect : Nat → Nat → Prop)
    (limit : Nat → Nat → Nat) (blocks : List Nat) (session : Session Entry) : Prop where
  sound : view.Sound session.bucket
  nodup : blocks.Nodup
  hits : ∀ b ∈ blocks, misses chunk off data.len b = false
  fresh : ∀ b ∈ blocks, ∀ value, session.last b = some value → value < seq
  pending : ∀ b ∈ blocks, View.BlockAgrees view chunk old session.bucket b fun _ => False
  done : ∀ b, b ∉ blocks → View.BlockAgrees view chunk (fileWriteAt old off data) session.bucket b
      fun index => suspect b index ∧ view.Holds session.bucket b (limit b index)
  exposed : ∀ b ∈ blocks, ∀ index, index < chunk.bytes →
    Exposed view chunk session.bucket (writtenPart chunk old data off b)
      (fileWriteAt old off data).len b index →
    suspect b index ∧ (view.Holds session.bucket b (limit b index) ∨ limit b index ≤
        (writtenPart chunk old data off b).chunkOff + (writtenPart chunk old data off b).data.len)

variable {suspect limit} {session : Session Entry} {b : Nat} {chunk : ChunkSize}

theorem throughTurn_loop (lawful : mount.Lawful view)
    (loop : ThroughLoop view mount.chunk old data off seq suspect limit (b :: blocks) session) :
    let next := mount.throughTurn data off data.len (fileWriteAt old off data).len seq session b
    ThroughLoop view mount.chunk old data off seq suspect limit blocks next ∧
      Applies seq session next ∧ (view.Uniform session.bucket → view.Uniform next.bucket) := by
  have mem : b ∈ b :: blocks := mem_cons_self
  have hit := loop.hits b mem
  have admitted : admits session.last b seq true = true := admits_of_lt (loop.fresh b mem)
  have spec := @blockPart_spec mount.chunk old data off b hit
  obtain ⟨frame, agrees, uniformly⟩ :=
    writeThrough_agrees lawful loop.sound (loop.pending b mem) spec.toWriteSpec
  have nodup := nodup_cons.mp loop.nodup
  have apart : ∀ other, other ∈ blocks → other ≠ b := by
    intro other later same
    exact nodup.1 (same ▸ later)
  simp only [throughTurn, hit, Bool.false_eq_true, if_false, admitted, if_true]
  refine ⟨?_, ?_, ?_⟩
  · constructor
    · exact frame.sound
    · exact nodup.2
    · intro other later
      exact loop.hits other (mem_cons_of_mem _ later)
    · intro other later
      simp only [admitSeq_of_ne (apart other later)]
      exact loop.fresh other (mem_cons_of_mem _ later)
    · intro other later
      exact frame.agrees (apart other later) (loop.pending other (mem_cons_of_mem _ later))
    · intro other settled
      by_cases here : other = b
      · subst here
        apply agrees.mono
        rintro index inChunk ⟨exposed, holds⟩
        obtain ⟨suspected, reach⟩ := loop.exposed other mem index inChunk exposed
        exact ⟨suspected, holds _ reach⟩
      · have before := loop.done other (by simp [here, settled])
        apply (frame.agrees here before).mono
        rintro index _ ⟨suspected, held⟩
        exact ⟨suspected, frame.holds other _ here held⟩
    · intro other later index inChunk exposed
      have otherSpec := @blockPart_spec mount.chunk old data off other
        (loop.hits other (mem_cons_of_mem _ later))
      have valid := otherSpec.valid
      have fits := otherSpec.fits
      have nonempty := otherSpec.nonempty
      have earlier := exposed.of_frame frame (apart other later) (by omega) (by omega) inChunk
      obtain ⟨suspected, reach⟩ := loop.exposed other
        (mem_cons_of_mem _ later) index inChunk earlier
      refine ⟨suspected, ?_⟩
      rcases reach with held | covered
      · exact .inl (frame.holds other _ (apart other later) held)
      · exact .inr covered
  · exact ⟨⟨rfl, rfl, rfl, rfl⟩, fun bound reached fresh =>
      admitSeq_le reached fresh⟩
  · exact frame.uniform uniformly

theorem applyWriteThrough_loop (lawful : mount.Lawful view)
    (loop : ThroughLoop view mount.chunk old data off seq suspect limit blocks session) :
    let next := blocks.foldl
      (mount.throughTurn data off data.len (fileWriteAt old off data).len seq) session
    ThroughLoop view mount.chunk old data off seq suspect limit [] next ∧
      Applies seq session next ∧ (view.Uniform session.bucket → view.Uniform next.bucket) := by
  induction blocks generalizing session with
  | nil => exact ⟨loop, Applies.refl seq session, fun uniform => uniform⟩
  | cons b blocks ih =>
    obtain ⟨next, applied, kept⟩ := throughTurn_loop lawful loop
    obtain ⟨final, rest, still⟩ := ih next
    exact ⟨final, applied.trans rest, fun uniform => still (kept uniform)⟩

variable {bucket : Option Entry}

theorem agrees_of_not_written (agrees : View.BlockAgrees view chunk old bucket b fun _ => False)
    (outside : b ∉ writtenBlocks chunk off data.len) :
    View.BlockAgrees view chunk (fileWriteAt old off data) bucket b fun _ => False := by
  have missed : misses chunk off data.len b = true := by
    rw [mem_writtenBlocks, Bool.not_eq_false] at outside
    exact outside
  exact agrees.of_file (fun index inChunk =>
    fileWriteAt_of_misses missed inChunk) (fileWriteAt_grows old off data)

theorem ThroughLoop.start (coherent : view.Coherent chunk old session.bucket)
    (fresh : ∀ b value, session.last b = some value → value < seq)
    (exposed : ∀ b index, misses chunk off data.len b = false → index < chunk.bytes →
      Exposed view chunk session.bucket (writtenPart chunk old data off b)
        (fileWriteAt old off data).len b index →
      suspect b index ∧ (view.Holds session.bucket b (limit b index) ∨ limit b index ≤
          (writtenPart chunk old data off b).chunkOff +
          (writtenPart chunk old data off b).data.len)) :
    ThroughLoop view chunk old data off seq suspect limit
      (writtenBlocks chunk off data.len) session where
  sound := coherent.sound
  nodup := nodup_writtenBlocks
  hits := fun _ mem => mem_writtenBlocks.mp mem
  fresh := fun b _ => fresh b
  pending := fun b _ => coherent.block b
  done := by
    intro b outside
    apply (agrees_of_not_written (coherent.block b) outside).mono
    intro index _ absurd
    exact absurd.elim
  exposed := fun b mem index inChunk marked =>
    exposed b index (mem_writtenBlocks.mp mem) inChunk marked

theorem applyWriteThrough_unexposed (lawful : mount.Lawful view)
    (coherent : view.Coherent mount.chunk old session.bucket)
    (fresh : ∀ b value, session.last b = some value → value < seq)
    (unexposed : ∀ b index, misses mount.chunk off data.len b = false → index < mount.chunk.bytes →
      ¬Exposed view mount.chunk session.bucket (writtenPart mount.chunk old data off b)
        (fileWriteAt old off data).len b index) :
    let new := fileWriteAt old off data
    let next := mount.applyWriteThrough session data off data.len new.len seq
    view.Coherent mount.chunk new next.bucket ∧ Applies seq session next ∧
      (view.Uniform session.bucket → view.Uniform next.bucket) := by
  have start : ThroughLoop view mount.chunk old data off seq (fun _ _ => False) (fun _ _ => 0)
      (writtenBlocks mount.chunk off data.len) session := by
    apply ThroughLoop.start coherent fresh
    intro b index hit inChunk exposed
    exact absurd exposed (unexposed b index hit inChunk)
  obtain ⟨final, applied, uniform⟩ := applyWriteThrough_loop lawful start
  refine ⟨⟨final.sound, ?_⟩, applied, uniform⟩
  intro b
  apply (final.done b not_mem_nil).mono
  rintro index _ ⟨absurd, _⟩
  exact absurd

/-! ## The units of a write -/

variable (hashChunk : Bytes → Hash)

/-- A unit lies in one sub-block of its block, inside the file, and carries the
digest of the file's bytes there. -/
structure UnitSpec (chunk : ChunkSize) (file : Bytes) (unit : UnitHash Hash) : Prop where
  nonempty : 0 < unit.subLen
  fits : unit.subOff + unit.subLen ≤ chunk.bytes
  single : ∀ index, unit.subOff ≤ index → index < unit.subOff + unit.subLen →
    index / subBlockSize = unit.subOff / subBlockSize
  digest : unit.hash = hashChunk
    (file.slice (unit.blockIdx * chunk.bytes + unit.subOff) unit.subLen)

/-- Position `index` of block `b` lies in a unit the bucket keeps in full. -/
def InHeldUnit (view : View Entry) (bucket : Option Entry)
    (units : List (UnitHash Hash)) (b index : Nat) : Prop :=
  ∃ unit ∈ units, unit.blockIdx = b ∧ unit.subOff ≤ index ∧
    index < unit.subOff + unit.subLen ∧ view.Holds bucket b (unit.subOff + unit.subLen)

section Units

variable {chunk : ChunkSize} {n b : Nat}

theorem blockUnits_spec (mem : unit ∈ blockUnits chunk subBlockSize off n size b) :
    unit.1 = b ∧ 0 < unit.2.2 ∧ unit.2.1 + unit.2.2 ≤ chunk.bytes ∧
      b * chunk.bytes + unit.2.1 + unit.2.2 ≤ size ∧
      ∀ index, unit.2.1 ≤ index → index < unit.2.1 + unit.2.2 →
        index / subBlockSize = unit.2.1 / subBlockSize := by
  obtain ⟨count, aligned⟩ := chunk.aligned
  simp only [blockUnits] at mem
  split_ifs at mem with empty
  · cases mem
  obtain ⟨step, inRange, rfl⟩ := mem_map.mp mem
  rw [mem_range] at inRange
  simp only [blockValidEnd, subBlockSize] at *
  refine ⟨trivial, ?_, ?_, ?_, ?_⟩
  · omega
  · omega
  · omega
  · intro index above below
    omega

theorem mem_blockUnits (hit : misses chunk off n b = false) (reach : off + n ≤ size)
    (inChunk : index < chunk.bytes) (touched : Touched (max off (b * chunk.bytes) - b * chunk.bytes)
      (min (off + n) (b * chunk.bytes + chunk.bytes) - max off (b * chunk.bytes)) index)
    (below : b * chunk.bytes + index < size) : (b, index / subBlockSize * subBlockSize,
        unitEnd chunk size b index - index / subBlockSize * subBlockSize) ∈
      blockUnits chunk subBlockSize off n size b := by
  obtain ⟨count, aligned⟩ := chunk.aligned
  rw [misses_eq_false_iff] at hit
  have nonempty : min (off + n) (b * chunk.bytes + chunk.bytes) -
      max off (b * chunk.bytes) ≠ 0 := by omega
  simp only [Touched, subSpan, nonempty, if_false] at touched
  simp only [blockUnits]
  rw [if_neg (by
    simp only [blockValidEnd]
    omega)]
  apply mem_map.mpr
  refine ⟨index / subBlockSize -
    (max off (b * chunk.bytes) - b * chunk.bytes) / subBlockSize, ?_, ?_⟩
  · rw [mem_range]
    simp only [blockValidEnd, subBlockSize] at *
    omega
  · simp only [blockValidEnd, unitEnd, subBlockSize, Prod.mk.injEq, true_and] at *
    omega

theorem unitHashCovering_eq {length : Nat}
    (inFile : absOff + length ≤ (fileWriteAt old off data).len) :
    unitHashCovering hashChunk (fileWriteAt old off data) absOff length data off data.len =
      hashChunk ((fileWriteAt old off data).slice absOff length) := by
  unfold unitHashCovering
  split_ifs with covered
  · congr 1
    apply Padded.ext_get
    · rfl
    · intro index below
      simp only [slice_len] at below
      rw [slice_get_of_lt _ below, slice_get_of_lt _ below, fileWriteAt_get, if_pos (by omega)]
      congr 1
      omega
  · unfold hashUnit fileReadAt
    rw [Nat.min_eq_left (by omega)]

variable {features : Features}

theorem unitSize_of_subBlockHash (subBlock : features.subBlockHash = true) :
    unitSize chunk features = subBlockSize := by
  simp [unitSize, subBlock]

theorem writeUnits_spec (subBlock : features.subBlockHash = true) :
    ∀ unit ∈ writeUnits hashChunk chunk features (fileWriteAt old off data)
        data off data.len (fileWriteAt old off data).len,
      UnitSpec hashChunk chunk (fileWriteAt old off data) unit := by
  intro unit mem
  simp only [writeUnits, forEachWriteUnit, mem_map, mem_flatMap,
    unitSize_of_subBlockHash subBlock] at mem
  obtain ⟨⟨blockIdx, subOff, subLen⟩, ⟨b, _, inBlock⟩, rfl⟩ := mem
  obtain ⟨same, nonempty, fits, inFile, single⟩ := blockUnits_spec inBlock
  simp only at same nonempty fits inFile single
  subst same
  exact ⟨nonempty, fits, single, unitHashCovering_eq hashChunk inFile⟩

/-- The reply carries the unit of every touched position, when the count of
units fits its field. -/
theorem unit_of_touched (subBlock : features.subBlockHash = true)
    (hit : misses chunk off data.len b = false) (inChunk : index < chunk.bytes)
    (touched : Touched (max off (b * chunk.bytes) - b * chunk.bytes)
      (min (off + data.len) (b * chunk.bytes + chunk.bytes) - max off (b * chunk.bytes)) index)
    (below : b * chunk.bytes + index < (fileWriteAt old off data).len)
    (few : (forEachWriteUnit chunk features off data.len
      (fileWriteAt old off data).len).length < 2 ^ 16) :
    ∃ unit ∈ putUnitHashes (writeUnits hashChunk chunk features
        (fileWriteAt old off data) data off data.len (fileWriteAt old off data).len),
      unit.blockIdx = b ∧ unit.subOff ≤ index ∧ index < unit.subOff + unit.subLen ∧
        unit.subOff + unit.subLen = unitEnd chunk (fileWriteAt old off data).len b index := by
  have total := fileWriteAt_len old off data
  have overlap := misses_eq_false_iff.mp hit
  rw [if_neg (by omega)] at total
  have mem := mem_blockUnits hit (by omega) inChunk touched below
  have reach : index < unitEnd chunk (fileWriteAt old off data).len b index := by
    simp only [unitEnd, subBlockSize]
    omega
  have start : index / subBlockSize * subBlockSize ≤ index := div_mul_le_self _ _
  have all : writeUnits hashChunk chunk features (fileWriteAt old off data)
      data off data.len (fileWriteAt old off data).len = putUnitHashes
        (writeUnits hashChunk chunk features (fileWriteAt old off data) data
          off data.len (fileWriteAt old off data).len) := by
    rw [putUnitHashes, mod_eq_of_lt (by simpa [writeUnits] using few), take_length]
  have listed : (b, index / subBlockSize * subBlockSize,
      unitEnd chunk (fileWriteAt old off data).len b index - index / subBlockSize * subBlockSize) ∈
      forEachWriteUnit chunk features off data.len (fileWriteAt old off data).len := by
    rw [forEachWriteUnit, unitSize_of_subBlockHash subBlock]
    exact mem_flatMap.mpr ⟨b, mem_writtenBlocks.mpr hit, mem⟩
  rw [← all]
  refine ⟨_, mem_map.mpr ⟨_, listed, rfl⟩, rfl, start, ?_, ?_⟩
  · simp only
    omega
  · simp only
    omega

end Units

/-! ## Verification -/

variable [DecidableEq Hash]

/-- Where the loop of `verifyUnits` finds equal digests, the bytes are equal too: the
cached bytes of a unit and the caller's do not collide. -/
def Mount.Tells (mount : Mount Hash Entry) (view : View Entry) (file : Bytes) :
    Option Entry → List (UnitHash Hash) → Prop
  | _, [] => True
  | bucket, unit :: units =>
    (mount.hashChunk (view.bytes bucket unit.blockIdx unit.subOff unit.subLen) = unit.hash →
      view.bytes bucket unit.blockIdx unit.subOff unit.subLen =
        file.slice (unit.blockIdx * mount.chunk.bytes + unit.subOff) unit.subLen) ∧
    mount.Tells view file (mount.verifyUnit bucket unit) units

theorem tells_of_injective (injective : Function.Injective mount.hashChunk)
    (specs : ∀ unit ∈ units, UnitSpec mount.hashChunk mount.chunk file unit)
    (bucket : Option Entry) : mount.Tells view file bucket units := by
  induction units generalizing bucket with
  | nil => trivial
  | cons unit units ih =>
    refine ⟨?_, ih (fun later mem => specs later (mem_cons_of_mem _ mem)) _⟩
    intro same
    exact injective (same.trans (specs unit mem_cons_self).digest)

theorem verifyUnit_agrees (lawful : mount.Lawful view)
    (tells : mount.Tells view file bucket (unit :: units))
    (sound : view.Sound bucket) (spec : UnitSpec mount.hashChunk mount.chunk file unit)
    (agrees : ∀ b, View.BlockAgrees view mount.chunk file bucket b
      (InHeldUnit view bucket (unit :: units) b)) :
    view.Sound (mount.verifyUnit bucket unit) ∧ ∀ b, View.BlockAgrees view mount.chunk file
        (mount.verifyUnit bucket unit) b
        (InHeldUnit view (mount.verifyUnit bucket unit) units b) := by
  unfold verifyUnit
  split
  · rename_i hash found
    obtain ⟨digest, _⟩ := lawful.hashRange_spec sound spec.fits found
    split_ifs with same
    · refine ⟨sound, ?_⟩
      intro b
      refine ⟨?_, (agrees b).clean⟩
      intro index inChunk marked
      rcases (agrees b).agrees index inChunk marked with equal | suspected
      · exact .inl equal
      obtain ⟨candidate, mem, rfl, above, below, held⟩ := suspected
      rcases mem_cons.mp mem with rfl | later
      · left
        have bytes := tells.1 (digest.symm.trans same)
        have here := congrArg (fun bytes => bytes.get (index - candidate.subOff)) bytes
        simp only [View.bytes] at here
        rw [if_pos (by omega), slice_get_of_lt _ (by omega)] at here
        have position : candidate.subOff + (index - candidate.subOff) = index := by omega
        rw [add_assoc, position] at here
        exact here
      · exact .inr ⟨candidate, later, rfl, above, below, held⟩
    · have drops : View.Drops view mount.chunk bucket
          (mount.store.drop bucket unit.blockIdx) unit.blockIdx 0 0 :=
        lawful.drop_spec sound
      refine ⟨drops.sound, ?_⟩
      intro b
      by_cases here : b = unit.blockIdx
      · subst here
        apply (drops.agrees lawful (agrees _) (Nat.le_refl _) (by
          intro index _ below
          omega)).mono
        intro index _ absurd
        exact absurd.elim
      · apply (drops.toFrame.agrees here (agrees b)).mono
        rintro index _ ⟨candidate, mem, rfl, above, below, held⟩
        rcases mem_cons.mp mem with rfl | later
        · exact absurd rfl here
        · exact ⟨candidate, later, rfl, above, below, drops.holds _ _ here held⟩
  · rename_i missing
    refine ⟨sound, ?_⟩
    intro b
    refine ⟨?_, (agrees b).clean⟩
    intro index inChunk marked
    rcases (agrees b).agrees index inChunk marked with equal | suspected
    · exact .inl equal
    obtain ⟨candidate, mem, rfl, above, below, held⟩ := suspected
    rcases mem_cons.mp mem with rfl | later
    · exfalso
      have all : ∀ position, position < candidate.subLen → view.Marked bucket candidate.blockIdx
            (candidate.subOff + position) := by
        intro position within
        apply lawful.marked_sub _ marked
        exact (spec.single index above below).trans (spec.single _ (by omega) (by omega)).symm
      obtain ⟨hash, found⟩ := lawful.hashRange_some sound spec.nonempty spec.fits all held
      rw [missing] at found
      cases found
    · exact .inr ⟨candidate, later, rfl, above, below, held⟩

theorem verifyUnits_coherent (lawful : mount.Lawful view)
    (tells : mount.Tells view file bucket units) (sound : view.Sound bucket)
    (specs : ∀ unit ∈ units, UnitSpec mount.hashChunk mount.chunk file unit)
    (agrees : ∀ b, View.BlockAgrees view mount.chunk file bucket b
      (InHeldUnit view bucket units b)) :
    view.Coherent mount.chunk file (units.foldl mount.verifyUnit bucket) := by
  induction units generalizing bucket with
  | nil =>
    refine ⟨sound, ?_⟩
    intro b
    apply (agrees b).mono
    rintro index _ ⟨unit, mem, _⟩
    cases mem
  | cons unit units ih =>
    obtain ⟨kept, remaining⟩ := verifyUnit_agrees lawful tells sound
      (specs unit mem_cons_self) agrees
    apply ih tells.2 kept _ remaining
    intro later mem
    exact specs later (mem_cons_of_mem _ mem)

theorem verifyUnit_keeps (lawful : mount.Lawful view)
    (unit : UnitHash Hash) (coherent : view.Coherent mount.chunk file bucket) :
    view.Coherent mount.chunk file (mount.verifyUnit bucket unit) ∧
      (view.Uniform bucket → view.Uniform (mount.verifyUnit bucket unit)) := by
  unfold verifyUnit
  split
  · split_ifs
    · exact ⟨coherent, fun uniform => uniform⟩
    have drops : View.Drops view mount.chunk bucket
        (mount.store.drop bucket unit.blockIdx) unit.blockIdx 0 0 :=
      lawful.drop_spec coherent.sound
    exact ⟨coherent.drop lawful unit.blockIdx, drops.uniform fun _ => .inr drops.becomesVacant⟩
  · exact ⟨coherent, fun uniform => uniform⟩

theorem verifyUnits_keeps (lawful : mount.Lawful view) (units : List (UnitHash Hash))
    (coherent : view.Coherent mount.chunk file bucket) :
    view.Coherent mount.chunk file (units.foldl mount.verifyUnit bucket) ∧ (view.Uniform bucket →
        view.Uniform (units.foldl mount.verifyUnit bucket)) := by
  induction units generalizing bucket with
  | nil => exact ⟨coherent, fun uniform => uniform⟩
  | cons unit units ih =>
    obtain ⟨kept, still⟩ := verifyUnit_keeps lawful unit coherent
    obtain ⟨final, uniform⟩ := ih kept
    exact ⟨final, fun start => uniform (still start)⟩

/-- The condition under which a write-through with sub-block digests settles
every position it exposes: the digests are sent with the write, their count fits
its field, and the stored bytes reach the end of the position's unit. -/
def WriteSafe (mount : Mount Hash Entry) (view : View Entry)
    (session : Session Entry) (off : Nat) (data : Bytes) : Prop :=
  let size := (fileWriteAt session.file off data).len
  ∀ b index, misses mount.chunk off data.len b = false →
    index < mount.chunk.bytes →
    Exposed view mount.chunk session.bucket
      (writtenPart mount.chunk session.file data off b) size b index →
    mount.features.deferHash = false ∧
      (forEachWriteUnit mount.chunk mount.features off data.len size).length < 2 ^ 16 ∧
      (view.Holds session.bucket b (unitEnd mount.chunk size b index) ∨
        unitEnd mount.chunk size b index ≤
          (writtenPart mount.chunk session.file data off b).chunkOff +
            (writtenPart mount.chunk session.file data off b).data.len)

/-- The proxy's state when it applies the reply of a write. -/
def Mount.repliedSession (mount : Mount Hash Entry) (session : Session Entry) (off : Nat)
    (data : Bytes) : Session Entry :=
  let written := (mount.handleWrite session off data 0).1
  { written with size := written.file.len }

/-- No unit of a write with inline digests collides when it is verified. -/
def WriteTells (mount : Mount Hash Entry) (view : View Entry) (session : Session Entry)
    (off : Nat) (data : Bytes) : Prop :=
  let replied := mount.repliedSession session off data
  mount.features.deferHash = false → mount.Tells view replied.file
    (mount.applyWriteThrough replied data off data.len replied.size replied.seq).bucket
    (putUnitHashes (writeUnits mount.hashChunk mount.chunk mount.features replied.file data off
      data.len replied.size))

theorem writeTells_of_injective (injective : Function.Injective mount.hashChunk)
    (subBlock : mount.features.subBlockHash = true) (session : Session Entry) (off : Nat)
    (data : Bytes) : WriteTells mount view session off data :=
  fun _ => tells_of_injective injective (fun unit mem =>
    writeUnits_spec mount.hashChunk subBlock unit (mem_of_mem_take mem)) _

theorem applyWriteSubBlock_coherent (lawful : mount.Lawful view)
    (subBlock : mount.features.subBlockHash = true)
    (coherent : view.Coherent mount.chunk old session.bucket)
    (fresh : ∀ b value, session.last b = some value → value < seq)
    (safe : WriteSafe mount view { session with file := old } off data)
    (tells : mount.Tells view (fileWriteAt old off data)
      (mount.applyWriteThrough session data off data.len (fileWriteAt old off data).len seq).bucket
      (putUnitHashes (writeUnits mount.hashChunk mount.chunk mount.features
        (fileWriteAt old off data) data off data.len (fileWriteAt old off data).len))) :
    let new := fileWriteAt old off data
    let next := mount.applyWriteSubBlock session data off data.len new.len seq (putUnitHashes
      (writeUnits mount.hashChunk mount.chunk mount.features new data off data.len new.len))
    view.Coherent mount.chunk new next.bucket ∧ Applies seq session next := by
  dsimp only
  have start : ThroughLoop view mount.chunk old data off seq
      (fun b index => misses mount.chunk off data.len b = false ∧
        Exposed view mount.chunk session.bucket (writtenPart mount.chunk old data off b)
          (fileWriteAt old off data).len b index)
      (unitEnd mount.chunk (fileWriteAt old off data).len)
      (writtenBlocks mount.chunk off data.len) session := by
    apply ThroughLoop.start coherent fresh
    intro b index hit inChunk exposed
    exact ⟨⟨hit, exposed⟩, (safe b index hit inChunk exposed).2.2⟩
  obtain ⟨final, applied, _⟩ := applyWriteThrough_loop lawful start
  refine ⟨?_, { applied with }⟩
  apply verifyUnits_coherent lawful tells final.sound
  · intro unit mem
    exact writeUnits_spec mount.hashChunk subBlock unit (mem_of_mem_take mem)
  · intro b
    apply (final.done b not_mem_nil).mono
    rintro index inChunk ⟨⟨hit, exposed⟩, held⟩
    have spec := @blockPart_spec mount.chunk old data off b hit
    have touched := exposed.touched
    rw [spec.offset, spec.length] at touched
    obtain ⟨unit, mem, block, above, within, ends⟩ :=
      unit_of_touched mount.hashChunk subBlock hit inChunk touched
        exposed.below (safe b index hit inChunk exposed).2.1
    exact ⟨unit, mem, block, above, within, ends ▸ held⟩

end Cornus.Wire
