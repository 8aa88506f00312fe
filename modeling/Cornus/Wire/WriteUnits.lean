import Cornus.Lib.Int64
import Cornus.Wire.BlockServer
import Mathlib.Data.List.Basic

/-!
# The units of a written range

`forEachWriteUnit` and `drainDirtyUnits` cut a file into units of one size, block by
block.  Here they stand over any chunk size and any unit size that divides it; the
server's own are the sizes its features give.  They are given with exact numbers, as
the block server uses them, and in the 64 bits of the source, where the end of the
last block below 2^63 overflows.
-/

namespace Cornus.Wire

open BlockCache List Nat Lib

/-- A chunk size and a unit size that divides it. -/
structure UnitSizes where
  (chunk unit : Nat)
  positive : 0 < chunk
  divides : unit ∣ chunk

namespace UnitSizes

variable (sizes : UnitSizes) (off n size : Nat)

/-- The end of the valid bytes of a block. -/
def validEnd (b : Nat) : Nat :=
  min (b * sizes.chunk + sizes.chunk) size

/-- A unit as the callback gets it: its block, its offset there and its valid length. -/
def unitAt (b so : Nat) : Nat × Nat × Nat :=
  (b, so, min (b * sizes.chunk + so + sizes.unit) (sizes.validEnd size b) - (b * sizes.chunk + so))

/-- The units of a block that the written range meets. -/
def blockUnits (b : Nat) : List (Nat × Nat × Nat) :=
  let blockStart := b * sizes.chunk
  let lo := max off blockStart
  let hi := min (min (off + n) size) (sizes.validEnd size b)
  if hi ≤ lo then []
  else
    let first := (lo - blockStart) / sizes.unit * sizes.unit
    (range ((hi - blockStart - first + sizes.unit - 1) / sizes.unit)).map fun step =>
      sizes.unitAt size b (first + step * sizes.unit)

/-- The units of all blocks of the written range. -/
def forEachUnit : List (Nat × Nat × Nat) :=
  (if n = 0 then []
  else range' (off / sizes.chunk) ((off + n - 1) / sizes.chunk + 1 - off / sizes.chunk)).flatMap
    (sizes.blockUnits off n size)

/-- The unit of a recorded offset. -/
def drained (recorded : Nat) : Option (Nat × Nat × Nat) :=
  let blockIdx := recorded / sizes.chunk
  let length := min (recorded + sizes.unit) (sizes.validEnd size blockIdx) - recorded
  if size ≤ recorded ∨ length = 0 then none
  else some (blockIdx, recorded - blockIdx * sizes.chunk, length)

/-- The absolute offset, as `markDirty` records it. -/
def start (piece : Nat × Nat × Nat) : Nat :=
  piece.1 * sizes.chunk + piece.2.1

/-- `blockValidEnd` in 64 bits. -/
def validEnd64 (b : Nat) : Int :=
  min (int64 (b * sizes.chunk + sizes.chunk)) size

/-- A unit that ends at `subEnd`. -/
def unitAt64 (b so : Nat) : Nat × Nat × Nat :=
  let blockStart := b * sizes.chunk
  let subEnd := min (int64 (blockStart + so + sizes.unit)) (sizes.validEnd64 size b)
  (b, so, (subEnd - (blockStart + so : Nat)).toNat)

/-- The inner loop of `forEachWriteUnit`. -/
def blockUnits64 (b : Nat) : List (Nat × Nat × Nat) :=
  let blockStart := b * sizes.chunk
  let lo := max off blockStart
  let hi := min (min (int64 (off + n)) size) (sizes.validEnd64 size b)
  if hi ≤ lo then []
  else
    let first := (lo - blockStart) / sizes.unit * sizes.unit
    (range ((hi.toNat - blockStart - first + sizes.unit - 1) / sizes.unit)).map fun step =>
      sizes.unitAt64 size b (first + step * sizes.unit)

/-- `forEachWriteUnit`, as the list of its calls. -/
def forEachUnit64 : List (Nat × Nat × Nat) :=
  let last := int64 (off + n - 1)
  (if n = 0 ∨ last < 0 then []
  else range' (off / sizes.chunk) (last.toNat / sizes.chunk + 1 - off / sizes.chunk)).flatMap
    (sizes.blockUnits64 off n size)

/-- What `drainDirtyUnits` makes of a recorded offset. -/
def drained64 (recorded : Nat) : Option (Nat × Nat × Nat) :=
  let blockIdx := recorded / sizes.chunk
  let validEnd := sizes.validEnd64 size blockIdx
  let length := if validEnd < int64 (recorded + sizes.unit) then validEnd - recorded else sizes.unit
  if size ≤ recorded ∨ length ≤ 0 then none
  else some (blockIdx, recorded - blockIdx * sizes.chunk, length.toNat)

/-- The units are aligned, lie each in one block, follow each other without overlap, meet
the written range of the file and cover it, and are found again from their offsets. -/
structure Covers (units : List (Nat × Nat × Nat)) : Prop where
  aligned : ∀ piece ∈ units, sizes.unit ∣ piece.2.1 ∧ piece.2.2 ≤ sizes.unit
  within : ∀ piece ∈ units, piece.2.1 + piece.2.2 ≤ sizes.chunk
  apart : units.Pairwise fun piece later => sizes.start piece + piece.2.2 ≤ sizes.start later
  meets : ∀ piece ∈ units,
    max off (sizes.start piece) < min (min (off + n) size) (sizes.start piece + piece.2.2)
  covered : ∀ byte, off ≤ byte → byte < min (off + n) size →
    ∃ piece ∈ units, sizes.start piece ≤ byte ∧ byte < sizes.start piece + piece.2.2
  found : ∀ piece ∈ units, sizes.drained64 size (sizes.start piece) = some piece

/-- Nothing is written in the file, or neither the end of the write nor the end of the
last block that it meets overflows. -/
def Fits : Prop :=
  min (off + n) size ≤ off ∨ off + n < 2 ^ 63 ∧
    (min (off + n) size - 1) / sizes.chunk * sizes.chunk + sizes.chunk < 2 ^ 63

variable {sizes : UnitSizes} {off n size b : Nat}

theorem unit_pos : 0 < sizes.unit :=
  pos_of_dvd_of_pos sizes.divides sizes.positive

theorem lt_steps_iff (positive : 0 < width) :
    step < (high - first + width - 1) / width ↔ first + step * width < high := by
  rw [← succ_le_iff, Nat.le_div_iff_mul_le positive, succ_mul]
  omega

/-- The aligned offsets of block `b` at which a unit meets the written range. -/
def Meets (sizes : UnitSizes) (off n size b so : Nat) : Prop :=
  sizes.unit ∣ so ∧ max off (b * sizes.chunk + so) <
    min (min (off + n) (sizes.validEnd size b)) (b * sizes.chunk + so + sizes.unit)

theorem mem_blockUnits_iff : piece ∈ sizes.blockUnits off n size b ↔
    ∃ so, sizes.Meets off n size b so ∧ sizes.unitAt size b so = piece := by
  have positive := @unit_pos sizes
  have inFile : sizes.validEnd size b ≤ size := Nat.min_le_right _ _
  simp only [blockUnits, Meets]
  split_ifs with empty
  · simp only [not_mem_nil, false_iff]
    rintro ⟨so, ⟨_, meets⟩, _⟩
    omega
  generalize written : max off (b * sizes.chunk) - b * sizes.chunk = lo
  have below := div_mul_le_self lo sizes.unit
  have above : lo < lo / sizes.unit * sizes.unit + sizes.unit := lt_div_mul_add positive
  simp only [mem_map, mem_range, lt_steps_iff positive]
  constructor
  · rintro ⟨step, inside, rfl⟩
    refine ⟨_, ⟨Nat.dvd_add (Nat.dvd_mul_left ..) (Nat.dvd_mul_left ..), ?_⟩, rfl⟩
    omega
  · rintro ⟨_, ⟨⟨count, rfl⟩, meets⟩, rfl⟩
    have reached : lo / sizes.unit < count + 1 := by
      rw [Nat.div_lt_iff_lt_mul positive, succ_mul, Nat.mul_comm count]
      omega
    have offset : lo / sizes.unit * sizes.unit + (count - lo / sizes.unit) * sizes.unit =
        sizes.unit * count := by
      rw [← Nat.add_mul, Nat.add_sub_of_le (le_of_lt_succ reached), Nat.mul_comm]
    exact ⟨count - lo / sizes.unit, by omega, by rw [offset]⟩

theorem mem_forEachUnit_iff : piece ∈ sizes.forEachUnit off n size ↔
    ∃ b so, sizes.Meets off n size b so ∧ sizes.unitAt size b so = piece := by
  simp only [forEachUnit, mem_flatMap, mem_blockUnits_iff]
  refine exists_congr fun b => and_iff_right_of_imp ?_
  rintro ⟨so, ⟨_, meets⟩, _⟩
  have first : off / sizes.chunk < b + 1 := by
    rw [Nat.div_lt_iff_lt_mul sizes.positive, succ_mul]
    unfold validEnd at meets
    omega
  have last : b ≤ (off + n - 1) / sizes.chunk := by
    rw [Nat.le_div_iff_mul_le sizes.positive]
    omega
  rw [if_neg (by omega), mem_range'_1]
  omega

theorem unitAt_within (so : Nat) (meets : sizes.Meets off n size b so) :
    so + (sizes.unitAt size b so).2.2 ≤ sizes.chunk := by
  have inside := meets.2
  simp only [unitAt, validEnd] at *
  omega

theorem pairwise_blockUnits : (sizes.blockUnits off n size b).Pairwise
    fun piece later => sizes.start piece + piece.2.2 ≤ sizes.start later := by
  simp only [blockUnits]
  split_ifs
  · exact .nil
  refine pairwise_map.mpr (pairwise_lt_range.imp fun {step next} before => ?_)
  have gap := mul_le_mul_right sizes.unit (succ_le_of_lt before)
  rw [succ_mul] at gap
  simp only [start, unitAt]
  omega

theorem pairwise_forEachUnit : (sizes.forEachUnit off n size).Pairwise
    fun piece later => sizes.start piece + piece.2.2 ≤ sizes.start later := by
  refine pairwise_flatMap.mpr ⟨fun _ _ => pairwise_blockUnits, ?_⟩
  split_ifs
  · exact .nil
  refine (pairwise_lt_range').imp fun {b next} before piece mem later laterMem => ?_
  have gap := mul_le_mul_right sizes.chunk (succ_le_of_lt before)
  rw [succ_mul] at gap
  obtain ⟨so, meets, rfl⟩ := mem_blockUnits_iff.mp mem
  obtain ⟨next, _, rfl⟩ := mem_blockUnits_iff.mp laterMem
  have within := unitAt_within so meets
  simp only [start, unitAt] at *
  omega

theorem drained_unitAt (meets : sizes.Meets off n size b so) :
    sizes.drained size (b * sizes.chunk + so) = some (sizes.unitAt size b so) := by
  obtain ⟨_, inside⟩ := meets
  have inFile : sizes.validEnd size b ≤ size := Nat.min_le_right _ _
  have block : (b * sizes.chunk + so) / sizes.chunk = b := by
    unfold validEnd at inside
    exact Nat.div_eq_of_lt_le (Nat.le_add_right ..) (by rw [succ_mul]; omega)
  simp only [drained, block]
  rw [if_neg (by omega), Nat.add_sub_cancel_left]
  rfl

/-- The unit of a byte of the written range. -/
theorem meets_of_byte (above : off ≤ byte) (below : byte < min (off + n) size) :
    ∃ so, so = byte % sizes.chunk / sizes.unit * sizes.unit ∧
      sizes.Meets off n size (byte / sizes.chunk) so ∧
      byte / sizes.chunk * sizes.chunk + so ≤ byte ∧
      byte < min (byte / sizes.chunk * sizes.chunk + so + sizes.unit)
        (sizes.validEnd size (byte / sizes.chunk)) := by
  have whole := Nat.div_add_mod' byte sizes.chunk
  have inBlock := mod_lt byte sizes.positive
  have first := div_mul_le_self (byte % sizes.chunk) sizes.unit
  have next := @lt_div_mul_add (byte % sizes.chunk) _ (@unit_pos sizes)
  refine ⟨_, rfl, ⟨Nat.dvd_mul_left .., ?_⟩, ?_⟩
  all_goals
    unfold validEnd
    omega

/-- The valid end of a block that does not overflow. -/
theorem validEnd64_eq (whole : b * sizes.chunk + sizes.chunk < 2 ^ 63) :
    sizes.validEnd64 size b = sizes.validEnd size b := by
  rw [validEnd64, validEnd, int64_of_lt whole]
  omega

theorem add_unit_le (meets : sizes.Meets off n size b so) : so + sizes.unit ≤ sizes.chunk := by
  obtain ⟨⟨count, rfl⟩, inside⟩ := meets
  obtain ⟨units, total⟩ := sizes.divides
  have inBlock : sizes.unit * count < sizes.unit * units := by
    rw [← total]
    unfold validEnd at inside
    omega
  have step := Nat.mul_le_mul_left sizes.unit (Nat.lt_of_mul_lt_mul_left inBlock)
  rw [total]
  rwa [mul_succ] at step

theorem unitAt64_eq (meets : sizes.Meets off n size b so)
    (whole : b * sizes.chunk + sizes.chunk < 2 ^ 63) :
    sizes.unitAt64 size b so = sizes.unitAt size b so := by
  have fits := add_unit_le meets
  simp only [unitAt64, unitAt, validEnd64_eq whole]
  rw [int64_of_lt (by omega)]
  simp only [Prod.mk.injEq, true_and]
  omega

theorem blockUnits64_eq (ends : off + n < 2 ^ 63)
    (whole : b * sizes.chunk + sizes.chunk < 2 ^ 63) :
    sizes.blockUnits64 off n size b = sizes.blockUnits off n size b := by
  have high : min (min (int64 (off + n)) size) (sizes.validEnd64 size b) =
      (min (min (off + n) size) (sizes.validEnd size b) : Nat) := by
    rw [int64_of_lt ends, validEnd64_eq whole]
    omega
  simp only [blockUnits64, blockUnits, high, Int.toNat_natCast]
  by_cases empty : min (min (off + n) size) (sizes.validEnd size b) ≤ max off (b * sizes.chunk)
  · rw [if_pos empty, if_pos (by omega)]
  · rw [if_neg empty, if_neg (by omega)]
    apply map_congr_left
    intro step mem
    have member : sizes.unitAt size b ((max off (b * sizes.chunk) - b * sizes.chunk) /
        sizes.unit * sizes.unit + step * sizes.unit) ∈ sizes.blockUnits off n size b := by
      rw [blockUnits, if_neg empty]
      exact mem_map_of_mem mem
    obtain ⟨so, meets, same⟩ := mem_blockUnits_iff.mp member
    cases (congrArg (·.2.1) same : so = _)
    exact unitAt64_eq meets whole

/-- A block from which a unit comes ends below 2^63, and so does the write. -/
theorem whole_of_mem_blockUnits64 (ends : off + n < 2 ^ 64) (inFile : size < 2 ^ 63)
    (small : sizes.chunk < 2 ^ 63) (mem : piece ∈ sizes.blockUnits64 off n size b) :
    off + n < 2 ^ 63 ∧ b * sizes.chunk + sizes.chunk < 2 ^ 63 := by
  simp only [blockUnits64] at mem
  split_ifs at mem with empty
  · cases mem
  rw [validEnd64] at empty
  obtain ⟨written, block, started⟩ : 0 ≤ int64 (off + n) ∧
      0 ≤ int64 (b * sizes.chunk + sizes.chunk) ∧ b * sizes.chunk < size := by
    clear ends inFile small
    omega
  refine ⟨?_, ?_⟩
  · by_contra overflows
    exact absurd (int64_neg (Nat.le_of_not_lt overflows) ends) (Int.not_lt.mpr written)
  · by_contra overflows
    exact absurd (int64_neg (Nat.le_of_not_lt overflows) (by omega)) (Int.not_lt.mpr block)

theorem blockUnits64_eq_nil (past : min (off + n) size ≤ max off (b * sizes.chunk))
    (ends : off + n < 2 ^ 63 ∨ size ≤ off) : sizes.blockUnits64 off n size b = [] := by
  rw [blockUnits64, if_pos]
  rcases ends with fits | outside
  · rw [int64_of_lt fits]
    omega
  · omega

theorem forEachUnit64_eq (fits : sizes.Fits off n size) :
    sizes.forEachUnit64 off n size = sizes.forEachUnit off n size := by
  rcases fits with none_ | ⟨ends, whole⟩
  · have empty : sizes.forEachUnit off n size = [] := by
      rw [eq_nil_iff_forall_not_mem]
      intro piece mem
      obtain ⟨b, so, ⟨_, inside⟩, _⟩ := mem_forEachUnit_iff.mp mem
      have inFile : sizes.validEnd size b ≤ size := Nat.min_le_right _ _
      omega
    rw [empty, forEachUnit64, flatMap_eq_nil_iff]
    intro b mem
    by_cases nothing : n = 0
    · simp [nothing] at mem
    · exact blockUnits64_eq_nil (by omega) (.inr (by omega))
  · have natural : ¬((off + n - 1 : Nat) : Int) < 0 := by omega
    simp only [forEachUnit64, forEachUnit, int64_of_lt (by omega : off + n - 1 < 2 ^ 63), natural,
      or_false, Int.toNat_natCast]
    apply flatMap_congr
    intro b _
    by_cases past : min (off + n) size ≤ b * sizes.chunk
    · rw [blockUnits64_eq_nil (by omega) (.inl ends), blockUnits,
        if_pos (by have := Nat.min_le_right (min (off + n) size) (sizes.validEnd size b); omega)]
    · apply blockUnits64_eq ends
      have before : b ≤ (min (off + n) size - 1) / sizes.chunk :=
        (Nat.le_div_iff_mul_le sizes.positive).mpr (by omega)
      have scaled := Nat.mul_le_mul_right sizes.chunk before
      omega

/-- A recorded offset with room for a unit in a block that does not overflow. -/
theorem drained64_eq {recorded : Nat}
    (whole : recorded / sizes.chunk * sizes.chunk + sizes.chunk < 2 ^ 63)
    (room : recorded % sizes.chunk + sizes.unit ≤ sizes.chunk) :
    sizes.drained64 size recorded = sizes.drained size recorded := by
  have split := Nat.div_add_mod' recorded sizes.chunk
  have positive := @unit_pos sizes
  simp only [drained64, drained, validEnd64_eq whole,
    int64_of_lt (by omega : recorded + sizes.unit < 2 ^ 63)]
  generalize sizes.validEnd size (recorded / sizes.chunk) = stop
  have length : (if (stop : Int) < (recorded + sizes.unit : Nat) then (stop - recorded : Int)
      else sizes.unit) = (min (recorded + sizes.unit) stop : Nat) - (recorded : Int) := by
    split_ifs <;> omega
  rw [length]
  apply if_congr (by omega) rfl
  simp only [Option.some.injEq, Prod.mk.injEq, true_and]
  omega

theorem drained64_unitAt (meets : sizes.Meets off n size b so)
    (whole : b * sizes.chunk + sizes.chunk < 2 ^ 63) :
    sizes.drained64 size (b * sizes.chunk + so) = some (sizes.unitAt size b so) := by
  have fits := add_unit_le meets
  have positive := @unit_pos sizes
  have inBlock : so < sizes.chunk := by omega
  have block : (b * sizes.chunk + so) / sizes.chunk = b :=
    Nat.div_eq_of_lt_le (Nat.le_add_right ..) (by rw [succ_mul]; omega)
  rw [drained64_eq, drained_unitAt meets]
  · rw [block]
    exact whole
  · rw [Nat.mul_add_mod', mod_eq_of_lt inBlock]
    exact fits

theorem covers_of_fits (fits : sizes.Fits off n size) :
    sizes.Covers off n size (sizes.forEachUnit64 off n size) := by
  rw [forEachUnit64_eq fits]
  have inFile : ∀ b, sizes.validEnd size b ≤ size := fun _ => Nat.min_le_right ..
  constructor
  · intro piece mem
    obtain ⟨b, so, ⟨aligned, _⟩, rfl⟩ := mem_forEachUnit_iff.mp mem
    exact ⟨aligned, by simp only [unitAt]; omega⟩
  · intro piece mem
    obtain ⟨b, so, meets, rfl⟩ := mem_forEachUnit_iff.mp mem
    exact unitAt_within so meets
  · exact pairwise_forEachUnit
  · intro piece mem
    obtain ⟨b, so, ⟨_, meets⟩, rfl⟩ := mem_forEachUnit_iff.mp mem
    have whole := inFile b
    simp only [start, unitAt]
    omega
  · intro byte above below
    obtain ⟨so, _, meets, first, inside⟩ := @meets_of_byte sizes off n size byte above below
    refine ⟨_, mem_forEachUnit_iff.mpr ⟨_, _, meets, rfl⟩, first, ?_⟩
    simp only [start, unitAt]
    omega
  · intro piece mem
    obtain ⟨b, so, meets, rfl⟩ := mem_forEachUnit_iff.mp mem
    have inside := meets.2
    have whole := inFile b
    rcases fits with none_ | ⟨_, last⟩
    · omega
    have before : b ≤ (min (off + n) size - 1) / sizes.chunk :=
      (Nat.le_div_iff_mul_le sizes.positive).mpr (by omega)
    have scaled := Nat.mul_le_mul_right sizes.chunk before
    have below : b * sizes.chunk + sizes.chunk < 2 ^ 63 := by omega
    exact drained64_unitAt meets below

/-- The units are an exact cover exactly where no end overflows. -/
theorem forEachUnit64_covers_iff (sizes : UnitSizes) (off n size : Nat)
    (int64s : off < 2 ^ 63 ∧ n < 2 ^ 63 ∧ size < 2 ^ 63 ∧ sizes.chunk < 2 ^ 63) :
    sizes.Covers off n size (sizes.forEachUnit64 off n size) ↔ sizes.Fits off n size := by
  obtain ⟨offFits, nFits, sizeFits, small⟩ := int64s
  refine ⟨fun covers => ?_, covers_of_fits⟩
  by_cases none_ : min (off + n) size ≤ off
  · exact .inl none_
  -- The last byte of the range lies in a unit, and the unit in its block.
  obtain ⟨piece, mem, first, inside⟩ :=
    covers.covered (min (off + n) size - 1) (by omega) (by omega)
  obtain ⟨b, _, inBlock⟩ := mem_flatMap.mp mem
  obtain ⟨ends, whole⟩ := whole_of_mem_blockUnits64 (by omega) sizeFits small inBlock
  rw [blockUnits64_eq ends whole] at inBlock
  obtain ⟨so, meets, rfl⟩ := mem_blockUnits_iff.mp inBlock
  have within := unitAt_within so meets
  simp only [start, unitAt] at first inside within
  have block : (min (off + n) size - 1) / sizes.chunk = b :=
    Nat.div_eq_of_lt_le (by omega) (by rw [succ_mul]; omega)
  exact .inr ⟨ends, by rw [block]; exact whole⟩

/-- Chunks of 1 MiB in units of 4096 bytes. -/
def mebibyte : UnitSizes := ⟨1048576, 4096, by decide, by decide⟩

/-- A write over a block border of a file of three blocks. -/
theorem straddling_covers :
    mebibyte.Covers 1048570 100 3145728 (mebibyte.forEachUnit64 1048570 100 3145728) :=
  (forEachUnit64_covers_iff mebibyte _ _ _ (by decide)).mpr (.inr (by decide))

/-- Ten bytes at the end of the longest file: the end of their block overflows, and no
unit is emitted. -/
theorem longestFile_uncovered : mebibyte.forEachUnit64 (2 ^ 63 - 11) 10 (2 ^ 63 - 1) = [] ∧
    ¬mebibyte.Covers (2 ^ 63 - 11) 10 (2 ^ 63 - 1)
      (mebibyte.forEachUnit64 (2 ^ 63 - 11) 10 (2 ^ 63 - 1)) := by
  have nothing : mebibyte.forEachUnit64 (2 ^ 63 - 11) 10 (2 ^ 63 - 1) = [] := by decide +kernel
  refine ⟨nothing, fun covers => ?_⟩
  obtain ⟨piece, mem, _⟩ := covers.covered (2 ^ 63 - 11) (Nat.le_refl _) (by decide)
  rw [nothing] at mem
  cases mem

end UnitSizes

/-- `unitSize` divides the chunk size, whichever features are negotiated. -/
def serverSizes (chunk : ChunkSize) (features : Features) : UnitSizes where
  chunk := chunk.bytes
  unit := unitSize chunk features
  positive := chunk.positive
  divides := by
    unfold unitSize
    split_ifs
    · exact chunk.aligned
    · exact Nat.dvd_refl _

variable {off n size : Nat}

variable {chunk : ChunkSize} {features : Features}

theorem forEachWriteUnit_eq : forEachWriteUnit chunk features off n size =
    (serverSizes chunk features).forEachUnit off n size :=
  rfl

/-- The exact numbers of the block server are those of the source wherever the ends of
the write and of the file stay a chunk below 2^63. -/
theorem forEachWriteUnit_eq64 (ends : off + n + chunk.bytes ≤ 2 ^ 63) :
    forEachWriteUnit chunk features off n size =
      (serverSizes chunk features).forEachUnit64 off n size := by
  have positive := chunk.positive
  have below := div_mul_le_self (min (off + n) size - 1) chunk.bytes
  rw [forEachWriteUnit_eq, UnitSizes.forEachUnit64_eq]
  by_cases none_ : min (off + n) size ≤ off
  · exact .inl none_
  · refine .inr ⟨by omega, ?_⟩
    simp only [serverSizes]
    omega

/-- The same of the units that an fsync finds recorded. -/
theorem dirtyUnit_eq64 {unit : Nat} (ends : size + chunk.bytes ≤ 2 ^ 63)
    (aligned : unit % chunk.bytes % unitSize chunk features = 0) (inFile : unit < size) :
    dirtyUnit chunk features size unit = (serverSizes chunk features).drained64 size unit := by
  have split := Nat.div_add_mod' unit chunk.bytes
  have inBlock := mod_lt unit chunk.positive
  obtain ⟨count, same⟩ := Nat.dvd_of_mod_eq_zero aligned
  obtain ⟨units, total⟩ := (serverSizes chunk features).divides
  refine ((serverSizes chunk features).drained64_eq ?_ ?_).symm
  · simp only [serverSizes]
    omega
  · simp only [serverSizes] at total ⊢
    rw [same, total] at inBlock
    have step := Nat.mul_le_mul_left (unitSize chunk features) (Nat.lt_of_mul_lt_mul_left inBlock)
    rw [same]
    rw [mul_succ] at step
    omega

end Cornus.Wire
