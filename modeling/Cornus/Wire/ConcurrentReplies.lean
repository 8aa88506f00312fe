import Cornus.Wire.ConcurrentHistory

/-!
# What replies say about later versions

A reply is computed from the version of the file at its stat, which may have
later writes than its own.  At a position that no later write covers, all of
these versions agree, so the digests and sizes of a reply are as good as those
of the version right after its write.
-/

namespace Cornus.Wire

open BlockCache Lib List Padded Mount WriteModel

/-! ## Versions and positions -/

section Versions

variable {base : Bytes} {log : List (Nat × Bytes)} {pos : Nat}

theorem version_get_of_covers
    (found : log[index]? = some (off, data)) (covers : fileWrites.Covers (off, data) pos) :
    (fileWrites.version base log (index + 1)).get pos = data.get (pos - off) := by
  rw [version_succ found]
  exact (fileWriteAt_get _ off data pos).trans (if_pos covers)

theorem lt_len_of_covers {count : Nat} {write : Nat × Bytes}
    (found : log[index]? = some write) (covers : fileWrites.Covers write pos)
    (before : index < count) : pos < (fileWrites.version base log count).len := by
  obtain ⟨above, below⟩ : write.1 ≤ pos ∧ pos < write.1 + write.2.len := covers
  have reached : pos < (fileWrites.version base log (index + 1)).len := by
    rw [version_succ found]
    have length : (fileWrites.apply (fileWrites.version base log index)
        write).len = _ := fileWriteAt_len _ write.1 write.2
    rw [if_neg (by omega)] at length
    omega
  exact Nat.lt_of_lt_of_le reached (fileWrites_version_len_le log before)

/-- Past the end of a version, a position that no later write covers was never
written. -/
theorem quiet_zero_of_past {count : Nat} (past : (fileWrites.version base log count).len ≤ pos)
    (quiet : fileWrites.Quiet log count pos) : fileWrites.Quiet log 0 pos := by
  intro index write _ found covers
  rcases Nat.lt_or_ge index count with early | late
  · have inside := @lt_len_of_covers base log pos index count write found covers early
    omega
  · exact quiet index write late found covers

theorem version_get_of_unwritten {count : Nat}
    (unwritten : fileWrites.Quiet log 0 pos) (past : base.len ≤ pos) :
    (fileWrites.version base log count).get pos = 0 := by
  have same := @WriteModel.read_version_of_quiet _ _ _ _ fileWrites base log
    pos 0 count (Nat.zero_le _) unwritten
  rw [version_zero] at same
  exact same.trans (Bytes.zero_of_past base past)

theorem version_get_eq (ordered : early ≤ late) (quiet : fileWrites.Quiet log early pos) :
    (fileWrites.version base log late).get pos = (fileWrites.version base log early).get pos :=
  read_version_of_quiet ordered quiet

theorem base_len_le (count : Nat) : base.len ≤ (fileWrites.version base log count).len := by
  have grown := @fileWrites_version_len_le base log 0 count (Nat.zero_le _)
  rwa [version_zero] at grown

end Versions

/-! ## The parts of a write -/

section Parts

variable {chunk : ChunkSize} {off b size : Nat}

theorem misses_of_covers (inChunk : index < chunk.bytes)
    (covers : fileWrites.Covers (off, data) (b * chunk.bytes + index)) :
    misses chunk off data.len b = false := by
  obtain ⟨above, below⟩ : off ≤ b * chunk.bytes + index ∧
    b * chunk.bytes + index < off + data.len := covers
  rw [misses_eq_false_iff]
  omega

/-- The part of a write in block `b`, for a file that may have grown since. -/
structure PartShape (chunk : ChunkSize) (off : Nat) (data : Bytes)
    (size b : Nat) (part : ChunkWrite) : Prop where
  offset : part.chunkOff = max off (b * chunk.bytes) - b * chunk.bytes
  length : part.data.len = min (off + data.len)
    (b * chunk.bytes + chunk.bytes) - max off (b * chunk.bytes)
  nonempty : 0 < part.data.len
  fits : part.chunkOff + part.data.len ≤ part.chunkLen
  valid : part.chunkLen = min chunk.bytes (size - b * chunk.bytes)
  covers : ∀ index, index < chunk.bytes →
    ((part.chunkOff ≤ index ∧ index < part.chunkOff + part.data.len) ↔
      fileWrites.Covers (off, data) (b * chunk.bytes + index))
  bytes : ∀ index, part.chunkOff ≤ index → index < part.chunkOff + part.data.len →
    part.data.get (index - part.chunkOff) = data.get (b * chunk.bytes + index - off)

theorem blockPart_shape (hit : misses chunk off data.len b = false)
    (reach : off + data.len ≤ size) :
    PartShape chunk off data size b (blockPart chunk data off data.len size b) := by
  rw [misses_eq_false_iff] at hit
  have valid : (blockPart chunk data off data.len size b).chunkLen =
      min chunk.bytes (size - b * chunk.bytes) := by
    simp only [blockPart]
    split_ifs
    · omega
    · omega
  refine ⟨rfl, rfl, ?_, ?_, valid, ?_, ?_⟩
  · simp only [blockPart, slice_len]
    omega
  · rw [valid]
    simp only [blockPart, slice_len]
    omega
  · intro index inChunk
    simp only [blockPart, slice_len, fileWrites]
    omega
  · intro index above below
    simp only [blockPart, slice_len] at above below ⊢
    rw [slice_get_of_lt _ (by omega)]
    congr 1
    omega

end Parts

/-! ## The turns and units of a reply -/

variable {Hash Entry : Type} {mount : TellingMount Hash Entry} {reply : WriteReply Hash}

section

variable (facts : ReplyFacts mount base log seq off data reply)
include facts

theorem ReplyFacts.positive : 0 < reply.seq := by
  obtain ⟨index, exactly, _⟩ := facts.place
  omega

theorem ReplyFacts.reach (nonempty : 0 < data.len) : off + data.len ≤ reply.size := by
  obtain ⟨index, exactly, found⟩ := facts.place
  obtain ⟨count, after, _, size, _⟩ := facts.version
  have last : fileWrites.Covers (off, data) (off + data.len - 1) := by
    constructor
    · simp only
      omega
    · simp only
      omega
  have inside := @lt_len_of_covers base log _ index count _ found last (by omega)
  omega

theorem ReplyFacts.shape (hit : misses mount.chunk off reply.n b = false) :
    PartShape mount.chunk off data reply.size b
      (blockPart mount.chunk data off reply.n reply.size b) := by
  rw [facts.length] at hit ⊢
  apply blockPart_shape hit
  apply facts.reach
  rw [misses_eq_false_iff] at hit
  omega

theorem ReplyFacts.turn (hit : misses mount.chunk off data.len b = false) :
    ∃ turn ∈ mount.turns off reply, turn.b = b := by
  have written := mem_writtenBlocks.mpr hit
  unfold turns
  split_ifs with through
  · rw [facts.length]
    exact ⟨_, mem_map.mpr ⟨b, written, rfl⟩, rfl⟩
  · obtain ⟨count, _, _, size, units, _⟩ := facts.version
    have overlap := misses_eq_false_iff.mp hit
    have reach := facts.reach (by omega)
    simp only [Bool.or_eq_true, not_or, Bool.not_eq_true] at through
    rw [entries, entriesOf, through.2, if_neg Bool.false_ne_true] at units
    have valid : ¬blockValidEnd mount.chunk b
        (fileWrites.version base log count).len ≤ b * mount.chunk.bytes := by
      simp only [blockValidEnd]
      omega
    let entry : UnitHash Hash :=
      { blockIdx := b
        subOff := 0
        subLen := 0
        hash := unitHashCovering mount.hashChunk
          (fileWrites.version base log count) (b * mount.chunk.bytes)
          (blockValidEnd mount.chunk b (fileWrites.version base log count).len -
            b * mount.chunk.bytes) data off data.len }
    have mem : entry ∈ reply.units := by
      rw [units]
      refine mem_filterMap.mpr ⟨b, written, ?_⟩
      simp only [if_neg valid, entry]
    exact ⟨_, mem_map.mpr ⟨entry, mem, rfl⟩, rfl⟩

/-- In the classic scheme a turn carries the digest of its block in the version
the reply was computed from, unless the write covers the block. -/
theorem ReplyFacts.classic (classic : mount.features.subBlockHash = false)
    (inline : mount.features.deferHash = false) {turn : Turn Hash}
    (mem : turn ∈ mount.turns off reply)
    (partly : ¬(blockPart mount.chunk data off reply.n reply.size turn.b).Full) :
    ∃ count hash, turn.hash = some hash ∧ reply.seq ≤ count ∧ count ≤ log.length ∧
      reply.size = (fileWrites.version base log count).len ∧
      hash = mount.hashChunk ((fileWrites.version base log count).slice
        (turn.b * mount.chunk.bytes) (blockPart mount.chunk data off reply.n
          reply.size turn.b).chunkLen) ∧
      (fileWrites.version base log count).slice (turn.b * mount.chunk.bytes)
        (blockPart mount.chunk data off reply.n reply.size turn.b).chunkLen ∈ mount.hashed := by
  obtain ⟨count, after, within, size, units, hashed⟩ := facts.version
  rw [entries, entriesOf, classic, if_neg Bool.false_ne_true] at units
  rw [turns, inline, classic, Bool.or_self, if_neg Bool.false_ne_true, units] at mem
  obtain ⟨unit, listed, rfl⟩ := mem_map.mp mem
  obtain ⟨b, written, computed⟩ := mem_filterMap.mp listed
  have hit := mem_writtenBlocks.mp written
  have shape := facts.shape (facts.length ▸ hit)
  have overlap := misses_eq_false_iff.mp hit
  have reach := facts.reach (by omega)
  have valid : ¬blockValidEnd mount.chunk b
      (fileWrites.version base log count).len ≤ b * mount.chunk.bytes := by
    simp only [blockValidEnd]
    omega
  simp only [if_neg valid, Option.some.injEq] at computed
  subst computed
  simp only at partly ⊢
  have length : blockValidEnd mount.chunk b
      (fileWrites.version base log count).len - b * mount.chunk.bytes =
      (blockPart mount.chunk data off reply.n reply.size b).chunkLen := by
    rw [shape.valid, size, blockValidEnd]
    omega
  have uncovered : ¬(off ≤ b * mount.chunk.bytes ∧ b * mount.chunk.bytes +
      (blockPart mount.chunk data off reply.n reply.size b).chunkLen ≤ off + data.len) := by
    intro covered
    have fits := shape.fits
    have valid := shape.valid
    have offset := shape.offset
    have length := shape.length
    exact partly ⟨by omega, by omega⟩
  have read : fileReadAt (fileWrites.version base log count) (b * mount.chunk.bytes)
      (blockPart mount.chunk data off reply.n reply.size b).chunkLen =
      (fileWrites.version base log count).slice (b * mount.chunk.bytes)
        (blockPart mount.chunk data off reply.n reply.size b).chunkLen := by
    rw [fileReadAt]
    congr 1
    rw [shape.valid, size]
    omega
  refine ⟨count, _, rfl, after, within, size, ?_, hashed ?_⟩
  · rw [length, unitHashCovering, if_neg uncovered, hashUnit, read]
  · rw [Mount.hashes, entriesOf, classic, if_neg Bool.false_ne_true]
    refine ⟨_, mem_filterMap.mpr ⟨b, written, if_neg valid⟩, ?_⟩
    simp only [length, unitHashCovering, if_neg uncovered, hashUnit, read]

theorem ReplyFacts.unit (subBlock : mount.features.subBlockHash = true)
    (inChunk : index < mount.chunk.bytes)
    (covers : fileWrites.Covers (off, data) (b * mount.chunk.bytes + index)) :
    ∃ unit ∈ reply.units, unit.blockIdx = b ∧ unit.subOff ≤ index ∧
      index < unit.subOff + unit.subLen := by
  obtain ⟨count, _, _, size, units, _⟩ := facts.version
  have hit := misses_of_covers inChunk covers
  obtain ⟨above, below⟩ : off ≤ b * mount.chunk.bytes + index ∧
    b * mount.chunk.bytes + index < off + data.len := covers
  have reach := facts.reach (by omega)
  rw [size] at reach
  have mem := @mem_blockUnits off
    (fileWrites.version base log count).len mount.chunk data.len b index hit
    reach inChunk (touched_of_inside (by omega) (by omega)) (by omega)
  rw [entries, entriesOf, subBlock, if_pos rfl] at units
  rw [units]
  have listed := mem_flatMap.mpr ⟨b, mem_writtenBlocks.mpr hit, mem⟩
  rw [← @unitSize_of_subBlockHash mount.chunk _ subBlock] at listed
  refine ⟨_, mem_map.mpr ⟨_, listed, rfl⟩, rfl, ?_, ?_⟩
  · exact Nat.div_mul_le_self _ _
  · simp only [unitEnd, subBlockSize]
    omega

/-- What a unit of the reply says about the bytes it covers: for a position that
no later write covers, the digest is taken over the position's final byte. -/
theorem ReplyFacts.digest (subBlock : mount.features.subBlockHash = true)
    {unit : UnitHash Hash} (mem : unit ∈ reply.units) :
    unit.subOff + unit.subLen ≤ mount.chunk.bytes ∧
      ∃ bytes ∈ mount.hashed, unit.hash = mount.hashChunk bytes ∧ bytes.len = unit.subLen ∧
        ∀ index, unit.subOff ≤ index → index < unit.subOff + unit.subLen →
          fileWrites.LastWriter log reply.seq (unit.blockIdx * mount.chunk.bytes + index) →
          bytes.get (index - unit.subOff) = (fileWrites.version base log log.length).get
              (unit.blockIdx * mount.chunk.bytes + index) := by
  obtain ⟨place, exactly, found⟩ := facts.place
  obtain ⟨count, after, within, size, units, hashed⟩ := facts.version
  rw [entries, entriesOf, subBlock, if_pos rfl] at units
  rw [units] at mem
  obtain ⟨⟨blockIdx, subOff, subLen⟩, listed, rfl⟩ := mem_map.mp mem
  have taken : unitHashCovering (fun bytes => bytes) (fileWrites.version base log count)
      (blockIdx * mount.chunk.bytes + subOff) subLen data off data.len ∈ mount.hashed := by
    apply hashed
    rw [Mount.hashes, entriesOf, subBlock, if_pos rfl]
    exact ⟨_, mem_map.mpr ⟨_, listed, rfl⟩, rfl⟩
  simp only [forEachWriteUnit, mem_flatMap, unitSize_of_subBlockHash subBlock] at listed
  obtain ⟨b, _, inBlock⟩ := listed
  obtain ⟨same, nonempty, fits, inFile, _⟩ := blockUnits_spec inBlock
  simp only at same nonempty fits inFile ⊢
  subst same
  refine ⟨fits, ?_⟩
  unfold unitHashCovering at taken ⊢
  split_ifs at taken ⊢ with covered
  · refine ⟨_, taken, rfl, rfl, ?_⟩
    intro index above below last
    rw [slice_get_of_lt _ (by omega)]
    have covers : fileWrites.Covers (off, data) (blockIdx * mount.chunk.bytes + index) := by
      constructor
      · simp only
        omega
      · simp only
        omega
    have final := @version_get_eq base log _ reply.seq log.length
      (Nat.le_trans after within) last.quiet
    have written := @version_get_of_covers base log _ place off data found covers
    rw [final, ← exactly, written]
    congr 1
    omega
  · refine ⟨_, taken, rfl, ?_, ?_⟩
    · rw [hashUnit, fileReadAt_len]
      omega
    · intro index above below last
      rw [hashUnit, fileReadAt_get _ (by rw [fileReadAt_len]; omega)]
      have final := @version_get_eq base log _ reply.seq log.length
        (Nat.le_trans after within) last.quiet
      have seen := @version_get_eq base log _ reply.seq count after last.quiet
      rw [final, ← seen]
      congr 1
      omega

end

end Cornus.Wire
