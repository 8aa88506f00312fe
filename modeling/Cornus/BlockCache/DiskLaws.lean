import Cornus.BlockCache.DiskStore
import Cornus.BlockCache.Laws

/-!
# The on-disk store satisfies the store laws

The shape condition is that the index and the backing file agree on the
length.  A partial `WriteChunk` whose read comes up short returns before the
index is written and is excluded by `Ready`: the backing has to reach the end
of the chunk's valid bytes.
-/

namespace Cornus.BlockCache

open Option Padded

namespace ChunkSize

variable (chunk : ChunkSize)

theorem sub_of_position (idx index : Nat) :
    (idx * chunk.bytes + index) / subBlockSize = idx * chunk.subs + index / subBlockSize := by
  rw [chunk.bytes_eq_subs_mul, ← Nat.mul_assoc, Nat.add_comm,
    Nat.add_mul_div_right _ _ (by decide : 0 < subBlockSize), Nat.add_comm]

theorem sub_lt {index : Nat}
    (inChunk : index < chunk.bytes) : index / subBlockSize < chunk.subs := by
  rw [chunk.bytes_eq_subs_mul] at inChunk
  exact Nat.div_lt_of_lt_mul (by rw [Nat.mul_comm]; exact inChunk)

theorem subs_positive : 0 < chunk.subs := by
  have positive := chunk.positive
  rw [chunk.bytes_eq_subs_mul] at positive
  exact Nat.pos_of_mul_pos_right positive

theorem chunk_of_sub {idx sub : Nat} (inChunk : sub < chunk.subs) :
    (idx * chunk.subs + sub) / chunk.subs = idx := by
  rw [Nat.mul_comm, Nat.mul_add_div chunk.subs_positive, Nat.div_eq_of_lt inChunk, Nat.add_zero]

theorem sub_ne {idx other : Nat}
    (ne : other ≠ idx) (leftIn : left < chunk.subs) (rightIn : right < chunk.subs) :
    other * chunk.subs + left ≠ idx * chunk.subs + right := by
  intro equality
  apply ne
  have leftChunk := @chunk_of_sub chunk other left leftIn
  rw [equality, chunk.chunk_of_sub rightIn] at leftChunk
  exact leftChunk.symm

end ChunkSize

variable (chunk : ChunkSize) (idx off length : Nat)

theorem subSpan_shift :
    subSpan (idx * chunk.bytes + off) length = (idx * chunk.subs + (subSpan off length).1,
        idx * chunk.subs + (subSpan off length).2) := by
  unfold subSpan
  split_ifs with empty
  · simp [chunk.sub_of_position]
  have shifted : idx * chunk.bytes + off + length - 1 =
      idx * chunk.bytes + (off + length - 1) := by omega
  rw [shifted]
  simp [chunk.sub_of_position]

theorem allRange_shift_iff {holds : Nat → Bool} :
    allRange holds (subSpan (idx * chunk.bytes + off) length).1
        (spanCount (idx * chunk.bytes + off) length) = true ↔
      ∀ sub, (subSpan off length).1 ≤ sub → sub ≤ (subSpan off length).2 →
        holds (idx * chunk.subs + sub) = true := by
  rw [allRange_span_iff]
  simp only [subSpan_shift]
  constructor
  · intro all sub above below
    exact all _ (by omega) (by omega)
  · intro all sub above below
    have here := all (sub - idx * chunk.subs) (by omega) (by omega)
    rwa [Nat.add_sub_of_le (by omega)] at here

theorem subSpan_lt {off length : Nat}
    (inside : off < chunk.bytes) (fits : off + length ≤ chunk.bytes) :
    (subSpan off length).2 < chunk.subs := by
  unfold subSpan
  split_ifs with empty
  · exact chunk.sub_lt inside
  · exact chunk.sub_lt (by omega)

namespace DiskStore

variable {Hash : Type} [Inhabited Hash] {chunk : ChunkSize} (bitmap : Padded Bool)

theorem growBits_get (position index : Nat) :
    (growBits bitmap position).get index = bitmap.get index := by
  unfold growBits
  split_ifs with short
  · apply resize_get_of_le
    omega
  · rfl

theorem growBits_lt (position : Nat) : position < (growBits bitmap position).len := by
  unfold growBits
  split_ifs with short
  · simp only [resize_len]
    omega
  · omega

section

variable (index : DiskIndex Hash)
include index

@[simp] theorem grow_bitmap_get (idx other : Nat) :
    (grow index idx).bitmap.get other = index.bitmap.get other :=
  growBits_get _ _ _

@[simp] theorem grow_subBitmap (idx : Nat) : (grow index idx).subBitmap = index.subBitmap := rfl

theorem setSubs_get (first last sub : Nat) : (setSubs index first last).subBitmap.get sub =
      (decide (first ≤ sub ∧ sub ≤ last) || index.subBitmap.get sub) := by
  have reach := growBits_lt index.subBitmap last
  simp only [setSubs, ensureSubBitmap, setRange_get, growBits_get]
  by_cases inside : first ≤ sub ∧ sub ≤ last
  · have addressable : first ≤ sub ∧ sub < first + (last + 1 - first) ∧
        sub < (growBits index.subBitmap last).len := by omega
    simp [inside, addressable]
  · have outside : ¬(first ≤ sub ∧ sub < first + (last + 1 - first) ∧
        sub < (growBits index.subBitmap last).len) := by omega
    simp [inside, outside]

@[simp] theorem setSubs_bitmap (first last : Nat) :
    (setSubs index first last).bitmap = index.bitmap := rfl

end

theorem firstSub_eq : firstSub chunk idx = idx * chunk.subs := by
  have position := chunk.sub_of_position idx 0
  simpa [firstSub] using position

theorem lastSub_eq : lastSub chunk idx = idx * chunk.subs + (chunk.subs - 1) := by
  have positive := chunk.positive
  have last : (idx + 1) * chunk.bytes - 1 = idx * chunk.bytes + (chunk.bytes - 1) := by
    rw [Nat.add_mul]
    omega
  rw [lastSub, last, chunk.sub_of_position]
  have whole := chunk.bytes_eq_subs_mul
  have some := chunk.subs_positive
  simp only [subBlockSize] at whole ⊢
  omega

variable {idx other sub : Nat}

theorem sub_in_chunk_iff (inChunk : sub < chunk.subs) :
    (firstSub chunk idx ≤ other * chunk.subs + sub ∧
      other * chunk.subs + sub ≤ lastSub chunk idx) ↔ other = idx := by
  rw [firstSub_eq, lastSub_eq]
  have positive := chunk.subs_positive
  constructor
  · rintro ⟨above, below⟩
    by_contra ne
    apply chunk.sub_ne ne inChunk
      (show other * chunk.subs + sub - idx * chunk.subs < chunk.subs by omega)
    omega
  · rintro rfl
    omega

section

variable (index : DiskIndex Hash)
include index

theorem markChunk_bitmap_get (idx : Nat) (hash : Hash) (other : Nat) :
    (markChunk chunk index idx hash).bitmap.get other =
      (decide (other = idx) || index.bitmap.get other) := by
  have reach : idx < (grow index idx).bitmap.len := growBits_lt _ _
  simp only [markChunk, setChunkSubBits, setSubs_bitmap, set_get, grow_bitmap_get]
  by_cases here : other = idx
  · simp [here, reach]
  · simp [here]

theorem markChunk_sub_get {hash : Hash} (inChunk : sub < chunk.subs) :
    (markChunk chunk index idx hash).subBitmap.get (other * chunk.subs + sub) =
      (decide (other = idx) || index.subBitmap.get (other * chunk.subs + sub)) := by
  simp only [markChunk, setChunkSubBits, setSubs_get, grow_subBitmap, sub_in_chunk_iff inChunk]

theorem clearChunk_bitmap_get (idx other : Nat) : (clearChunk chunk index idx).bitmap.get other =
      (!decide (other = idx) && index.bitmap.get other) := by
  simp only [clearChunk, clearChunkSubBits, set_get]
  by_cases here : other = idx
  · subst here
    by_cases reach : other < index.bitmap.len
    · simp [reach]
    · have clear := index.bitmap.pad other (by omega)
      simpa [reach] using clear
  · simp [here]

theorem clearChunk_sub_get (inChunk : sub < chunk.subs) :
    (clearChunk chunk index idx).subBitmap.get (other * chunk.subs + sub) =
      (!decide (other = idx) && index.subBitmap.get (other * chunk.subs + sub)) := by
  have within := @sub_in_chunk_iff chunk idx other sub inChunk
  simp only [clearChunk, clearChunkSubBits, setRange_get]
  by_cases here : other = idx
  · have range := within.mpr here
    by_cases reach : other * chunk.subs + sub < index.subBitmap.len
    · have inside : firstSub chunk idx ≤ other * chunk.subs + sub ∧
          other * chunk.subs + sub < firstSub chunk idx +
            (lastSub chunk idx + 1 - firstSub chunk idx) ∧
          other * chunk.subs + sub < index.subBitmap.len := by omega
      rw [if_pos inside]
      simp [here]
    · have clear := index.subBitmap.pad _ (Nat.le_of_not_lt reach)
      rw [if_neg (by omega), clear]
      simp [here]
  · have outside := mt within.mp here
    rw [if_neg (by omega)]
    simp [here]

@[simp] theorem clearChunk_curSize (idx : Nat) :
    (clearChunk chunk index idx).curSize = index.curSize := rfl

theorem clearChunks_get {read : DiskIndex Hash → Bool} (each : ∀ index idx,
      read (clearChunk chunk index idx) = (!decide (other = idx) && read index)) (idx count : Nat) :
    read (clearChunks chunk index idx count) =
      (!decide (idx ≤ other ∧ other < idx + count) && read index) := by
  induction count generalizing index idx with
  | zero =>
    have outside : decide (idx ≤ other ∧ other < idx + 0) = false := by
      simp only [decide_eq_false_iff_not]
      omega
    rw [outside]
    rfl
  | succ count ih =>
    rw [clearChunks, ih, each]
    by_cases here : other = idx
    · simp [here]
    have shifted : (idx + 1 ≤ other ∧ other < idx + 1 + count) ↔
        (idx ≤ other ∧ other < idx + (count + 1)) := by omega
    simp only [shifted]
    simp [here]

end

/-! ## The view -/

variable (bucket : Option (DiskEntry Hash))

/-- The pair a bucket stands for; a missing one reads as empty. -/
def files : DiskEntry Hash :=
  bucket.getD
    { index :=
        { curSize := 0, bitmap := Padded.blank 0, subBitmap := Padded.blank 0,
          hashes := Padded.blank 0, hint := none }
      data := Padded.blank 0 }

@[simp] theorem files_some (file : DiskEntry Hash) : files (some file) = file := rfl

/-- The recorded size is that of the data file. -/
def Sound : Prop :=
  (files bucket).index.curSize = (files bucket).data.len

variable (chunk)

/-- The chunk's bit or the bit of the byte's sub-block is set. -/
def Marked (idx index : Nat) : Prop :=
  (files bucket).index.bitmap.get idx = true ∨
    (files bucket).index.subBitmap.get (idx * chunk.subs + index / subBlockSize) = true

/-- A byte of a chunk, from the data file. -/
def byte (idx index : Nat) : UInt8 :=
  (files bucket).data.get (idx * chunk.bytes + index)

/-- The data file reaches so far into the chunk. -/
def Holds (idx length : Nat) : Prop :=
  idx * chunk.bytes + length ≤ (files bucket).data.len

/-- The chunk's bit is set. -/
def Whole (idx : Nat) : Prop :=
  (files bucket).index.bitmap.get idx = true

/-- Neither the chunk's bit nor one of its sub-blocks' is set. -/
def Vacant (idx : Nat) : Prop :=
  (files bucket).index.bitmap.get idx = false ∧
    ∀ sub, sub < chunk.subs → (files bucket).index.subBitmap.get (idx * chunk.subs + sub) = false

/-- A write-through finds what it needs of the chunk. -/
def Splices (idx chunkOff length : Nat) : Prop :=
  writeCached chunk bucket idx chunkOff length = true

/-- The write leaves the chunk at its length. -/
def Ready (idx writeEnd chunkLen : Nat) : Prop :=
  chunkLen = 0 ∨ idx * chunk.bytes + chunkLen ≤
    max (files bucket).index.curSize (idx * chunk.bytes + writeEnd)

end DiskStore

open DiskStore in
/-- What a data file and its index stand for. -/
def diskView (Hash : Type) [Inhabited Hash] (chunk : ChunkSize) : View (DiskEntry Hash) :=
  { Sound, Marked := Marked chunk, byte := byte chunk, Holds := Holds chunk,
    Whole, Vacant := Vacant chunk, Splices := Splices chunk, Ready := Ready chunk }

namespace DiskStore

variable {Hash : Type} [Inhabited Hash] {chunk : ChunkSize}

/-- `loadOrFresh` only extends the backing file. -/
structure Loaded (bucket : Option (DiskEntry Hash)) (file : DiskEntry Hash)
    (minBacking : Nat) : Prop where
  bitmap : ∀ idx, file.index.bitmap.get idx = (files bucket).index.bitmap.get idx
  subBitmap : ∀ sub, file.index.subBitmap.get sub = (files bucket).index.subBitmap.get sub
  data : ∀ position, file.data.get position = (files bucket).data.get position
  curSize : file.index.curSize = max (files bucket).index.curSize minBacking
  length : file.data.len = max (files bucket).data.len minBacking

variable {bucket : Option (DiskEntry Hash)}

theorem loadOrFresh_spec (sound : Sound bucket) :
    Loaded bucket (loadOrFresh chunk bucket minBacking) minBacking := by
  cases bucket with
  | none =>
    constructor
    · intro idx
      rfl
    · intro sub
      rfl
    · intro position
      rfl
    · simp [loadOrFresh, freshIndex, files]
    · simp [loadOrFresh, files]
  | some file =>
    have lengths : file.index.curSize = file.data.len := sound
    unfold loadOrFresh
    simp only
    split_ifs with short
    · constructor
      · intro idx
        rfl
      · intro sub
        rfl
      · intro position
        exact resize_get_of_le _ (by omega) _
      · simp only [files_some]
        omega
      · simp only [files_some, resize_len]
        omega
    · constructor
      · intro idx
        rfl
      · intro sub
        rfl
      · intro position
        rfl
      · simp only [files_some]
        omega
      · simp only [files_some]
        omega

variable {idx off length : Nat}

theorem splices_iff : Splices chunk bucket idx off length ↔
      (files bucket).index.bitmap.get idx = true ∨
        ∃ sub, (subSpan off length).1 ≤ sub ∧ sub ≤ (subSpan off length).2 ∧
          (files bucket).index.subBitmap.get (idx * chunk.subs + sub) = true := by
  cases bucket with
  | none => simp [Splices, writeCached, files]
  | some file =>
    simp only [Splices, writeCached, Bool.or_eq_true, files_some]
    apply or_congr Iff.rfl
    rw [Bool.not_eq_true', ← Bool.not_eq_true, allRange_shift_iff]
    push Not
    simp

theorem frame_of_agree {after : DiskEntry Hash} (sound : after.index.curSize = after.data.len)
    (bits : ∀ other, other ≠ idx → after.index.bitmap.get other =
      (files before).index.bitmap.get other) (subs : ∀ other sub, other ≠ idx → sub < chunk.subs →
      after.index.subBitmap.get (other * chunk.subs + sub) =
        (files before).index.subBitmap.get (other * chunk.subs + sub))
    (data : ∀ other index, other ≠ idx → index < chunk.bytes →
      after.data.get (other * chunk.bytes + index) =
        (files before).data.get (other * chunk.bytes + index))
    (beforeSound : Sound before) (longer : (files before).data.len ≤ after.data.len) :
    View.Frame (diskView Hash chunk) chunk before (some after) idx where
  sound
  marked := by
    intro other index ne inChunk
    simp [diskView, Marked, bits other ne, subs other _ ne (chunk.sub_lt inChunk)]
  byte := by
    intro other index ne inChunk
    exact data other index ne inChunk
  holds := by
    intro other length _ held
    exact Nat.le_trans held longer
  whole := by
    intro other ne whole
    have before : (files before).index.bitmap.get other = true := whole
    simp [diskView, Whole, bits other ne, before]
  vacant := by
    rintro other ne ⟨bit, clear⟩
    refine ⟨?_, ?_⟩
    · rw [files_some, bits other ne, bit]
    · intro sub inChunk
      rw [files_some, subs other sub ne inChunk]
      exact clear sub inChunk
  splices := by
    intro other off length ne inside fits spliced
    have last := subSpan_lt chunk inside fits
    apply splices_iff.mpr
    rcases splices_iff.mp spliced with bit | ⟨sub, above, below, set⟩
    · left
      rw [← bits other ne]
      exact bit
    · right
      refine ⟨sub, above, below, ?_⟩
      rw [← subs other sub ne (by omega)]
      exact set
  ready := by
    intro other writeEnd chunkLen _ ready
    have lengths : (files before).index.curSize = (files before).data.len := beforeSound
    have longEnough : chunkLen = 0 ∨ other * chunk.bytes + chunkLen ≤
        max (files before).index.curSize (other * chunk.bytes + writeEnd) :=
      ready
    simp only [diskView, Ready, files_some]
    omega

variable {file : DiskEntry Hash} {data : Bytes} {index : DiskIndex Hash} {source : Bytes}
  {subOff chunkLen : Nat} {hash : Hash}

/-- Every bit of one chunk is set, and no other is changed. -/
structure Marks (chunk : ChunkSize) (index after : DiskIndex Hash) (idx : Nat) : Prop where
  bits : ∀ other, after.bitmap.get other = (decide (other = idx) || index.bitmap.get other)
  subs : ∀ other sub, sub < chunk.subs → after.subBitmap.get (other * chunk.subs + sub) =
    (decide (other = idx) || index.subBitmap.get (other * chunk.subs + sub))
  curSize : after.curSize = index.curSize

theorem markChunk_marks (index : DiskIndex Hash) (idx : Nat) (hash : Hash) :
    Marks chunk index (markChunk chunk index idx hash) idx :=
  ⟨markChunk_bitmap_get index idx hash, fun _ _ inChunk => markChunk_sub_get index inChunk, rfl⟩

section

variable {before : Option (DiskEntry Hash)} (sound : Sound before)
  (loaded : Loaded before file (idx * chunk.bytes + off + source.len))
  (fits : off + source.len ≤ chunk.bytes)
include sound loaded fits

/-- Bytes spliced into one chunk are seen there only. -/
theorem frame_of_splice
    (bits : ∀ other, other ≠ idx → index.bitmap.get other = file.index.bitmap.get other)
    (subs : ∀ other sub, other ≠ idx → sub < chunk.subs →
      index.subBitmap.get (other * chunk.subs + sub) =
        file.index.subBitmap.get (other * chunk.subs + sub))
    (curSize : index.curSize = file.index.curSize) :
    View.Frame (diskView Hash chunk) chunk before (some
        { index, data := file.data.splice (idx * chunk.bytes + off) source }) idx := by
  apply frame_of_agree
  · have lengths : (files before).index.curSize = (files before).data.len := sound
    simp only [curSize, loaded.curSize, splice_len, loaded.length]
    omega
  · intro other ne
    rw [bits other ne, loaded.bitmap]
  · intro other sub ne inChunk
    rw [subs other sub ne inChunk, loaded.subBitmap]
  · intro other position ne inChunk
    rw [splice_get_outside _ (chunk.position_outside ne inChunk fits), loaded.data]
  · exact sound
  · simp only [splice_len, loaded.length]
    omega

theorem overwrites_of_marks
    (marks : Marks chunk file.index index idx) (inside : ∀ position, position < data.len →
      (file.data.splice (idx * chunk.bytes + off) source).get
        (idx * chunk.bytes + position) = data.get position) (covers : off + source.len ≤ data.len) :
    View.Overwrites (diskView Hash chunk) chunk before (some
        { index, data := file.data.splice (idx * chunk.bytes + off) source }) idx data where
  toFrame := by
    apply frame_of_splice sound loaded fits _ _ marks.curSize
    · intro other ne
      simp [marks.bits, ne]
    · intro other sub ne inChunk
      simp [marks.subs other sub inChunk, ne]
  inside
  beyond := by
    intro position past _
    right
    have outside : ¬(idx * chunk.bytes + off ≤ idx * chunk.bytes + position ∧
        idx * chunk.bytes + position < idx * chunk.bytes + off + source.len) := by omega
    simp only [diskView, byte, files_some]
    rw [splice_get_outside _ outside, loaded.data]
  becomesWhole := by
    simp [diskView, Whole, marks.bits]

theorem splicesIn_of_set (inside : off < chunk.bytes)
    (bits : ∀ other, index.bitmap.get other = file.index.bitmap.get other)
    (subs : ∀ sub, index.subBitmap.get sub =
      (decide ((subSpan (idx * chunk.bytes + off) source.len).1 ≤ sub ∧
          sub ≤ (subSpan (idx * chunk.bytes + off) source.len).2) || file.index.subBitmap.get sub))
    (curSize : index.curSize = file.index.curSize) :
    View.SplicesIn (diskView Hash chunk) chunk before (some
        { index, data := file.data.splice (idx * chunk.bytes + off) source }) idx off source where
  toFrame := by
    apply frame_of_splice sound loaded fits (fun other _ => bits other) _ curSize
    · intro other sub ne inChunk
      have last := subSpan_lt chunk inside fits
      have outside : ¬(idx * chunk.subs + (subSpan off source.len).1 ≤ other * chunk.subs + sub ∧
          other * chunk.subs + sub ≤ idx * chunk.subs + (subSpan off source.len).2) := by
        rintro ⟨above, below⟩
        apply chunk.sub_ne ne inChunk
          (show other * chunk.subs + sub - idx * chunk.subs < chunk.subs by
            omega)
        omega
      rw [subs, subSpan_shift]
      simp [outside]
  inside := by
    intro position above below
    simp only [diskView, byte, files_some]
    rw [splice_get_inside _ (by omega) (by omega)]
    congr 1
    omega
  outside := by
    intro position outside _
    simp only [diskView, byte, files_some]
    rw [splice_get_outside _ (by omega), loaded.data]
  newMarks := by
    intro position inChunk marked
    rcases marked with bit | sub
    · left
      left
      rw [files_some, bits, loaded.bitmap] at bit
      exact bit
    · rw [files_some, subs, subSpan_shift, loaded.subBitmap] at sub
      simp only [Bool.or_eq_true, decide_eq_true_eq] at sub
      rcases sub with touched | old
      · right
        exact ⟨by omega, by omega⟩
      · exact .inl (.inr old)
  staysWhole := by
    intro whole
    have bit : (files before).index.bitmap.get idx = true := whole
    simp [diskView, Whole, bits, loaded.bitmap, bit]
  keepsHolding := by
    intro length held
    have within : idx * chunk.bytes + length ≤ (files before).data.len := held
    simp only [diskView, Holds, files_some, splice_len, loaded.length]
    omega
  reaches := by
    simp only [diskView, Holds, files_some, splice_len]
    omega

end

theorem overwrites_of_head (loaded : Loaded before file (idx * chunk.bytes + data.len))
    (sound : Sound before) (fits : data.len ≤ chunk.bytes)
    (marks : Marks chunk file.index index idx) :
    View.Overwrites (diskView Hash chunk) chunk before (some
        { index, data := file.data.splice (idx * chunk.bytes) data }) idx data := by
  have within : 0 + data.len ≤ chunk.bytes := by omega
  refine overwrites_of_marks sound loaded within marks ?_ (Nat.le_of_eq (Nat.zero_add _))
  intro position below
  rw [splice_get_inside _ (by omega) (by omega)]
  congr 1
  omega

theorem clearChunk_vacant :
    Vacant chunk (some { index := clearChunk chunk index idx, data : DiskEntry Hash }) idx := by
  refine ⟨?_, ?_⟩
  · simp [clearChunk_bitmap_get]
  · intro sub inside
    simp [clearChunk_sub_get _ inside]

theorem readData_spec (found : readData stored off length = some data) :
    data = stored.slice off length ∧ (length = 0 ∨ off + length ≤ stored.len) := by
  unfold readData at found
  split_ifs at found with within
  simp only [some.injEq] at found
  exact ⟨found.symm, within⟩

theorem get_spec (found : get chunk bucket idx length = some data) :
    data.len ≤ length ∧ Whole bucket idx ∧ ∀ index, index < data.len →
      data.get index = byte chunk bucket idx index := by
  cases bucket with
  | none => simp [get] at found
  | some file =>
    simp only [get, bind_eq_bind, bind_some] at found
    split_ifs at found with clear
    obtain ⟨rfl, _⟩ := readData_spec found
    refine ⟨Nat.le_refl _, by simpa [Whole] using clear, ?_⟩
    intro index below
    have inside : index < length := below
    rw [slice_get_of_lt _ inside]
    rfl

theorem subPresent_eq (inChunk : sub < chunk.subs) :
    subPresent chunk index (idx * chunk.subs + sub) =
      (index.subBitmap.get (idx * chunk.subs + sub) || index.bitmap.get idx) := by
  have position : (idx * chunk.subs + sub) * subBlockSize / chunk.bytes = idx := by
    rw [chunk.bytes_eq_subs_mul, Nat.mul_div_mul_right _ _ (by decide : 0 < subBlockSize)]
    exact chunk.chunk_of_sub inChunk
  rw [subPresent, position]

theorem marked_of_present {index : Nat} (inChunk : off + length ≤ chunk.bytes)
    (below : index < length) (present : ∀ sub, sub < chunk.subs →
      (subSpan off length).1 ≤ sub → sub ≤ (subSpan off length).2 →
      (file.index.subBitmap.get (idx * chunk.subs + sub) || file.index.bitmap.get idx) = true) :
    Marked chunk (some file) idx (off + index) := by
  have touched : Touched off length (off + index) := touched_of_inside (by omega) (by omega)
  have set := present _ (chunk.sub_lt (by omega)) touched.1 touched.2
  rw [Bool.or_eq_true] at set
  rcases set with sub | bit
  · exact .inr sub
  · exact .inl bit

theorem getSub_spec (fits : subOff + length ≤ chunk.bytes)
    (found : getSub chunk bucket idx subOff length = some data) :
    data.len = length ∧ ∀ index, index < length → Marked chunk bucket idx (subOff + index) ∧
        data.get index = byte chunk bucket idx (subOff + index) := by
  cases bucket with
  | none => simp [getSub] at found
  | some file =>
    simp only [getSub, bind_eq_bind, bind_some] at found
    split_ifs at found with missing
    obtain ⟨rfl, _⟩ := readData_spec found
    refine ⟨rfl, ?_⟩
    intro index below
    rw [Bool.not_eq_true', Bool.not_eq_false, allRange_shift_iff] at missing
    refine ⟨marked_of_present fits below ?_, ?_⟩
    · intro sub inChunk above under
      rw [← subPresent_eq inChunk]
      exact missing sub above under
    · rw [slice_get_of_lt _ below]
      simp only [byte, files_some]
      congr 1
      omega

theorem bytes_eq_slice : (diskView Hash chunk).bytes (some file) idx off length =
      file.data.slice (idx * chunk.bytes + off) length := by
  apply ext_get
  · rfl
  · intro index below
    have within : index < length := below
    simp only [View.bytes, diskView, byte, within, if_true, files_some, slice_get]
    congr 1
    omega

theorem hashRange_spec (fits : off + length ≤ chunk.bytes)
    (found : hashRange hashChunk chunk bucket idx off length = some hash) :
    hash = hashChunk ((diskView Hash chunk).bytes bucket idx off length) ∧
      ∀ index, index < length → Marked chunk bucket idx (off + index) := by
  cases bucket with
  | none => simp [hashRange] at found
  | some file =>
    simp only [hashRange, bind_eq_bind, bind_some] at found
    split_ifs at found with missing past
    cases read : readData file.data (idx * chunk.bytes + off) length with
    | none => simp [read] at found
    | some buf =>
      obtain ⟨rfl, _⟩ := readData_spec read
      simp only [read, bind_some, some.injEq] at found
      rw [Bool.not_eq_true', Bool.not_eq_false, allRange_shift_iff] at missing
      refine ⟨by rw [bytes_eq_slice, found], ?_⟩
      intro index below
      exact marked_of_present fits below fun sub _ => missing sub

theorem hashRange_some (sound : Sound bucket) (nonempty : 0 < length)
    (fits : off + length ≤ chunk.bytes)
    (marked : ∀ index, index < length → Marked chunk bucket idx (off + index))
    (held : Holds chunk bucket idx (off + length)) :
    ∃ hash, hashRange hashChunk chunk bucket idx off length = some hash := by
  cases bucket with
  | none =>
    rcases marked 0 nonempty with bit | sub
    · simp [files] at bit
    · simp [files] at sub
  | some file =>
    have lengths : file.index.curSize = file.data.len := sound
    have within : idx * chunk.bytes + (off + length) ≤ file.data.len := held
    have present : allRange (fun sub => file.index.subBitmap.get sub || file.index.bitmap.get idx)
        (subSpan (idx * chunk.bytes + off) length).1
        (spanCount (idx * chunk.bytes + off) length) = true := by
      rw [allRange_shift_iff]
      intro sub above below
      obtain ⟨index, start, finish, here⟩ := exists_inside_of_span nonempty above below
      have set := marked (index - off) (by omega)
      have exactly : off + (index - off) = index := by omega
      rw [exactly] at set
      rw [Bool.or_eq_true]
      rcases set with bit | subBit
      · exact .inr bit
      left
      rwa [here] at subBit
    have reach : ¬(chunk.bytes < off + length ∨
        file.index.curSize < idx * chunk.bytes + off + length) := by omega
    have readable : length = 0 ∨ idx * chunk.bytes + off + length ≤ file.data.len := by omega
    refine ⟨hashChunk (file.data.slice (idx * chunk.bytes + off) length), ?_⟩
    simp [hashRange, present, reach, readData, readable]

theorem putHashed_spec (sound : Sound bucket) (fits : data.len ≤ chunk.bytes) :
    View.Overwrites (diskView Hash chunk) chunk bucket
      (putHashed chunk bucket idx data hash) idx data :=
  overwrites_of_head (loadOrFresh_spec sound) sound fits (markChunk_marks _ idx hash)

theorem putSub_spec (sound : Sound bucket) (inside : subOff < chunk.bytes)
    (fits : subOff + data.len ≤ chunk.bytes) : View.SplicesIn (diskView Hash chunk) chunk bucket
      (putSub chunk bucket idx subOff data) idx subOff data :=
  splicesIn_of_set sound (loadOrFresh_spec sound) fits inside
    (fun _ => rfl) (fun sub => setSubs_get _ _ _ sub) rfl

theorem writeThrough_full (sound : Sound bucket) (fits : data.len ≤ chunk.bytes) :
    View.Overwrites (diskView Hash chunk) chunk bucket
      (writeThrough chunk bucket idx 0 data data.len) idx data := by
  simp only [writeThrough, and_self, not_true_eq_false, false_and, if_false, if_true]
  exact overwrites_of_head (loadOrFresh_spec sound) sound fits (markChunk_marks _ idx default)

theorem writeThrough_partial (sound : Sound bucket) (inside : chunkOff < chunk.bytes)
    (fits : chunkOff + data.len ≤ chunk.bytes) (notFull : ¬(chunkOff = 0 ∧ data.len = chunkLen))
    (splices : Splices chunk bucket idx chunkOff data.len) :
    View.SplicesIn (diskView Hash chunk) chunk bucket
      (writeThrough chunk bucket idx chunkOff data chunkLen) idx chunkOff data := by
  have cached : writeCached chunk bucket idx chunkOff data.len = true := splices
  simp only [writeThrough, cached, Bool.true_eq_false, and_false, if_false, if_neg notFull]
  apply splicesIn_of_set sound (loadOrFresh_spec sound) fits inside
  · intro other
    simp
  · intro sub
    rw [setSubs_get, grow_subBitmap]
  · rfl

theorem unspliced_unmarked {index : Nat} (skipped : ¬Splices chunk bucket idx chunkOff length)
    (touched : Touched chunkOff length index) : ¬Marked chunk bucket idx index := by
  rintro (bit | sub)
  · exact skipped (splices_iff.mpr (.inl bit))
  · exact skipped (splices_iff.mpr (.inr ⟨_, touched.1, touched.2, sub⟩))

theorem vacant_unspliced (inside : chunkOff < chunk.bytes)
    (fits : chunkOff + length ≤ chunk.bytes) (vacant : Vacant chunk bucket idx) :
    ¬Splices chunk bucket idx chunkOff length := by
  obtain ⟨bitClear, subsClear⟩ := vacant
  have last := subSpan_lt chunk inside fits
  intro spliced
  rcases splices_iff.mp spliced with bit | ⟨sub, _, below, set⟩
  · rw [bitClear] at bit
    cases bit
  · rw [subsClear sub (by omega)] at set
    cases set

theorem readData_ready (sound : Sound bucket) (ready : Ready chunk bucket idx writeEnd chunkLen) :
    readData (loadOrFresh chunk bucket (idx * chunk.bytes + writeEnd)).data
        (idx * chunk.bytes) chunkLen =
      some ((diskView Hash chunk).bytes bucket idx 0 chunkLen) := by
  have loaded := @loadOrFresh_spec _ _ chunk bucket (idx * chunk.bytes + writeEnd) sound
  have lengths : (files bucket).index.curSize = (files bucket).data.len := sound
  have within : chunkLen = 0 ∨ idx * chunk.bytes + chunkLen ≤
      (loadOrFresh chunk bucket (idx * chunk.bytes + writeEnd)).data.len := by
    rw [loaded.length, ← lengths]
    exact ready
  rw [readData, if_pos within]
  congr 1
  apply ext_get
  · rfl
  · intro position below
    have inside : position < chunkLen := below
    rw [slice_get_of_lt _ inside, loaded.data]
    simp [View.bytes, inside, diskView, byte]

theorem merged_eq {cur : Bytes} (fits : chunkOff + data.len ≤ cur.len) :
    (cur.splice chunkOff data).resize cur.len = cur.splice chunkOff data := by
  apply ext_get
  · simp only [resize_len, splice_len]
    omega
  · intro position _
    apply resize_get_of_le
    simp only [splice_len]
    omega

section WriteChunk

variable [DecidableEq Hash] {hashChunk : Bytes → Hash} {idx : Nat} {data : Bytes}

theorem writeChunk_full (sound : Sound bucket) (fits : data.len ≤ chunk.bytes) :
    View.Overwrites (diskView Hash chunk) chunk bucket
      (writeChunk hashChunk chunk bucket idx 0 data data.len hash) idx data := by
  simp only [writeChunk, and_self, not_true_eq_false, false_and, if_false, if_true]
  exact overwrites_of_head (loadOrFresh_spec sound) sound fits (markChunk_marks _ idx hash)

variable {chunkOff chunkLen : Nat}

theorem writeChunk_vacant (notFull : ¬(chunkOff = 0 ∧ data.len = chunkLen))
    (vacant : Vacant chunk bucket idx) :
    writeChunk hashChunk chunk bucket idx chunkOff data chunkLen hash = bucket := by
  have absent : (bucket.map (·.index.bitmap.get idx)).getD false = false := by
    cases bucket with
    | none => rfl
    | some file => exact vacant.1
  unfold writeChunk
  exact if_pos ⟨notFull, absent⟩

/-- A partial `WriteChunk` on a whole chunk whose bytes can all be read either
re-marks the chunk or clears it, as the digests agree or not. -/
theorem writeChunk_rmw (sound : Sound bucket) (fits : chunkOff + data.len ≤ chunkLen)
    (notFull : ¬(chunkOff = 0 ∧ data.len = chunkLen)) (whole : Whole bucket idx)
    (ready : Ready chunk bucket idx (chunkOff + data.len) chunkLen) :
    writeChunk hashChunk chunk bucket idx chunkOff data chunkLen hash = some
        { index :=
            if hashChunk (((diskView Hash chunk).bytes bucket idx 0
                chunkLen).splice chunkOff data) = hash then
              markChunk chunk (loadOrFresh chunk bucket
                (idx * chunk.bytes + chunkOff + data.len)).index idx hash
            else
              clearChunk chunk (grow (loadOrFresh chunk bucket
                (idx * chunk.bytes + chunkOff + data.len)).index idx) idx
          data := (loadOrFresh chunk bucket (idx * chunk.bytes + chunkOff + data.len)).data.splice
            (idx * chunk.bytes + chunkOff) data } := by
  have present : (bucket.map (·.index.bitmap.get idx)).getD false = true := by
    cases bucket with
    | none => simp [Whole, files] at whole
    | some file => exact whole
  have read := readData_ready sound ready
  rw [← Nat.add_assoc] at read
  have same : (((diskView Hash chunk).bytes bucket idx 0 chunkLen).splice
      chunkOff data).resize chunkLen =
      ((diskView Hash chunk).bytes bucket idx 0 chunkLen).splice chunkOff data :=
    merged_eq fits
  simp only [writeChunk, present, Bool.true_eq_false, and_false, if_false,
    if_neg notFull, read, same]
  split_ifs
  · rfl
  · rfl

section

variable (sound : Sound bucket) (fits : chunkOff + data.len ≤ chunkLen)
  (inChunk : chunkLen ≤ chunk.bytes) (notFull : ¬(chunkOff = 0 ∧ data.len = chunkLen))
  (whole : Whole bucket idx) (ready : Ready chunk bucket idx (chunkOff + data.len) chunkLen)
include sound fits inChunk notFull whole ready

theorem writeChunk_match (agrees : hashChunk (((diskView Hash chunk).bytes bucket idx 0
      chunkLen).splice chunkOff data) = hash) : View.Overwrites (diskView Hash chunk) chunk bucket
      (writeChunk hashChunk chunk bucket idx chunkOff data chunkLen hash) idx
      (((diskView Hash chunk).bytes bucket idx 0 chunkLen).splice chunkOff data) := by
  have loaded := @loadOrFresh_spec _ _ chunk bucket (idx * chunk.bytes + chunkOff + data.len) sound
  rw [writeChunk_rmw sound fits notFull whole ready, if_pos agrees]
  apply overwrites_of_marks sound loaded (by omega) (markChunk_marks _ idx hash)
  · intro position below
    have inside : position < chunkLen := by
      simpa [View.bytes, Nat.max_eq_left fits] using below
    rw [splice_get, splice_get, loaded.data]
    by_cases written : chunkOff ≤ position ∧ position < chunkOff + data.len
    · have shifted : idx * chunk.bytes + chunkOff ≤ idx * chunk.bytes + position ∧
          idx * chunk.bytes + position < idx * chunk.bytes + chunkOff + data.len := by omega
      rw [if_pos written, if_pos shifted]
      congr 1
      omega
    · have shifted : ¬(idx * chunk.bytes + chunkOff ≤ idx * chunk.bytes + position ∧
          idx * chunk.bytes + position < idx * chunk.bytes + chunkOff + data.len) := by omega
      rw [if_neg written, if_neg shifted]
      simp [View.bytes, inside, diskView, byte]
  · simp only [splice_len]
    omega

theorem writeChunk_mismatch (differs : hashChunk (((diskView Hash chunk).bytes bucket idx 0
      chunkLen).splice chunkOff data) ≠ hash) : View.Drops (diskView Hash chunk) chunk bucket
      (writeChunk hashChunk chunk bucket idx chunkOff data chunkLen hash) idx
      chunkOff data.len := by
  have loaded := @loadOrFresh_spec _ _ chunk bucket (idx * chunk.bytes + chunkOff + data.len) sound
  rw [writeChunk_rmw sound fits notFull whole ready, if_neg differs]
  constructor
  · apply frame_of_splice sound loaded (by omega)
    · intro other ne
      simp [clearChunk_bitmap_get, ne]
    · intro other sub ne inside
      simp [clearChunk_sub_get _ inside, ne]
    · rfl
  · exact clearChunk_vacant
  · intro position outside _
    right
    simp only [diskView, byte, files_some]
    rw [splice_get_outside _ (by omega), loaded.data]

end

end WriteChunk

theorem drop_spec (sound : Sound bucket) :
    View.Drops (diskView Hash chunk) chunk bucket (drop chunk bucket idx) idx 0 0 := by
  cases bucket with
  | none =>
    constructor
    · exact View.Frame.refl sound idx
    · exact ⟨rfl, fun _ _ => rfl⟩
    · exact fun _ _ _ => .inr rfl
  | some file =>
    constructor
    · apply frame_of_agree
      · rw [clearChunk_curSize]
        exact sound
      · intro other ne
        simp [clearChunk_bitmap_get, ne]
      · intro other sub ne inside
        simp [clearChunk_sub_get _ inside, ne]
      · exact fun _ _ _ _ => rfl
      · exact sound
      · exact Nat.le_refl _
    · exact clearChunk_vacant
    · exact fun _ _ _ => .inr rfl

/-- `Resize` clears whole chunks: those from the new end on, and the one that
held the old end. -/
def Kept (chunk : ChunkSize) (index : DiskIndex Hash) (newSize idx : Nat) : Prop :=
  ¬(newSize / chunk.bytes ≤ idx ∧ idx < index.bitmap.len) ∧
    ¬(0 < index.curSize ∧ idx = (index.curSize - 1) / chunk.bytes)

instance (index : DiskIndex Hash) (newSize idx : Nat) : Decidable (Kept chunk index newSize idx) :=
  inferInstanceAs (Decidable (_ ∧ _))

theorem div_le_numChunks (newSize : Nat) : newSize / chunk.bytes ≤ numChunks chunk newSize := by
  have positive := chunk.positive
  unfold numChunks
  split_ifs with empty
  · simp [empty]
  · exact Nat.div_le_div_right (by omega)

/-- What a clear takes away bit by bit, the clears of `Resize` take away where
no chunk is kept. -/
theorem settled_get (read : DiskIndex Hash → Bool) (each : ∀ index other,
      read (clearChunk chunk index other) = (!decide (idx = other) && read index))
    (index : DiskIndex Hash) (newSize : Nat) :
    let cut := clearChunks chunk index (newSize / chunk.bytes)
      (index.bitmap.len - newSize / chunk.bytes)
    read (if 0 < index.curSize then clearChunk chunk cut ((index.curSize - 1) / chunk.bytes)
      else cut) = (decide (Kept chunk index newSize idx) && read index) := by
  intro cut
  have range : (newSize / chunk.bytes ≤ idx ∧ idx < newSize / chunk.bytes +
        (index.bitmap.len - newSize / chunk.bytes)) ↔
      (newSize / chunk.bytes ≤ idx ∧ idx < index.bitmap.len) := by omega
  have cutRead : read cut = (!decide (newSize / chunk.bytes ≤ idx ∧ idx < index.bitmap.len) &&
      read index) := by
    rw [clearChunks_get index each]
    simp only [range]
  rw [Bool.eq_iff_iff]
  split_ifs with nonempty
  · simp [each, cutRead, Kept, nonempty, and_comm, and_assoc]
  · simp [cutRead, Kept, nonempty]

theorem shorten_get (bits : Padded Bool) {short : Prop} [Decidable short]
    (clear : length ≤ idx → bits.get idx = false) :
    (if short then bits.resize length else bits).get idx = bits.get idx := by
  split_ifs
  · rw [resize_get]
    split_ifs with below
    · rfl
    · exact (clear (by omega)).symm
  · rfl

variable (file)

theorem resize_bitmap_get (newSize idx : Nat) :
    (files (resize chunk (some file) newSize)).index.bitmap.get idx =
      (decide (Kept chunk file.index newSize idx) && file.index.bitmap.get idx) := by
  have counted := @div_le_numChunks chunk newSize
  have settled := settled_get (fun index => index.bitmap.get idx)
    (fun index other => @clearChunk_bitmap_get _ _ chunk index other idx) file.index newSize
  simp only [resize, files_some]
  rw [shorten_get]
  · exact settled
  · intro past
    refine settled.trans ?_
    by_cases stored : idx < file.index.bitmap.len
    · have dropped : ¬Kept chunk file.index newSize idx := by
        rintro ⟨kept, _⟩
        omega
      simp [dropped]
    · have clear : file.index.bitmap.get idx = false := file.index.bitmap.pad idx (by omega)
      simp [clear]

variable {newSize : Nat}

theorem resize_sub_get (inChunk : sub < chunk.subs) :
    (files (resize chunk (some file) newSize)).index.subBitmap.get (idx * chunk.subs + sub) =
      (decide (Kept chunk file.index newSize idx) &&
        file.index.subBitmap.get (idx * chunk.subs + sub)) := by
  exact settled_get (fun index => index.subBitmap.get (idx * chunk.subs + sub))
    (fun index _ => clearChunk_sub_get index inChunk) file.index newSize

variable {file}

theorem resize_sound : Sound (resize chunk bucket newSize) := by
  cases bucket with
  | none => rfl
  | some file => rfl

theorem resize_marked {index : Nat} (inChunk : index < chunk.bytes)
    (marked : Marked chunk (resize chunk bucket newSize) idx index) :
    Marked chunk bucket idx index ∧ (idx * chunk.bytes + index < newSize →
        byte chunk (resize chunk bucket newSize) idx index = byte chunk bucket idx index) := by
  cases bucket with
  | none =>
    rcases marked with bit | sub
    · cases bit
    · cases sub
  | some file =>
    refine ⟨?_, ?_⟩
    · rcases marked with bit | sub
      · left
        rw [resize_bitmap_get, Bool.and_eq_true] at bit
        exact bit.2
      · right
        rw [resize_sub_get _ (chunk.sub_lt inChunk), Bool.and_eq_true] at sub
        exact sub.2
    · intro below
      exact resize_get_of_lt _ below

theorem resize_beyond {index : Nat} (past : newSize ≤ idx * chunk.bytes + index) :
    byte chunk (resize chunk bucket newSize) idx index = 0 := by
  cases bucket with
  | none => rfl
  | some file => exact Bytes.zero_of_past (file.data.resize newSize) past

theorem resize_uniform (uniform : Whole bucket idx ∨ Vacant chunk bucket idx) :
    Whole (resize chunk bucket newSize) idx ∨ Vacant chunk (resize chunk bucket newSize) idx := by
  cases bucket with
  | none =>
    right
    exact ⟨rfl, fun _ _ => rfl⟩
  | some file =>
    by_cases kept : Kept chunk file.index newSize idx
    · rcases uniform with whole | ⟨bit, subs⟩
      · left
        rw [Whole, resize_bitmap_get]
        simpa [kept, Whole] using whole
      · right
        refine ⟨?_, ?_⟩
        · rw [resize_bitmap_get]
          simpa [kept] using bit
        · intro sub inChunk
          rw [resize_sub_get _ inChunk]
          simpa [kept] using subs sub inChunk
    · right
      refine ⟨?_, ?_⟩
      · rw [resize_bitmap_get]
        simp [kept]
      · intro sub inChunk
        rw [resize_sub_get _ inChunk]
        simp [kept]

theorem setHint_files (bucket : Option (DiskEntry Hash)) (size mtimeNs : Nat) :
    let next := files (setHint chunk bucket size mtimeNs)
    next.index.curSize = (files bucket).index.curSize ∧
      (∀ idx, next.index.bitmap.get idx = (files bucket).index.bitmap.get idx) ∧
      next.index.subBitmap = (files bucket).index.subBitmap ∧
      next.data = (files bucket).data := by
  cases bucket with
  | none | some file => exact ⟨rfl, fun _ => rfl, rfl, rfl⟩

end DiskStore

open DiskStore in
/-- The store on disk follows the laws of a view. -/
theorem diskView_lawful {Hash : Type} [Inhabited Hash] [DecidableEq Hash]
    (hashChunk : Bytes → Hash) (chunk : ChunkSize) :
    (diskView Hash chunk).Lawful hashChunk chunk (diskStore hashChunk chunk) where
  sound_none := rfl
  vacant_none := fun _ => ⟨rfl, fun _ _ => rfl⟩
  byte_none := fun _ _ => rfl
  vacant_marked := by
    rintro bucket idx index _ ⟨bit, subs⟩ inChunk (marked | marked)
    · rw [bit] at marked
      cases marked
    · rw [subs _ (chunk.sub_lt inChunk)] at marked
      cases marked
  whole_marked := fun whole => .inl whole
  marked_sub := by
    rintro bucket idx left right same (bit | sub)
    · exact .inl bit
    · rw [same] at sub
      exact .inr sub
  holds_le := by
    intro bucket idx length longer shorter held
    exact Nat.le_trans (Nat.add_le_add_left shorter _) held
  get_spec := fun found => get_spec found
  getSub_spec := fun _ fits found => getSub_spec fits found
  hashRange_spec := fun _ fits found => hashRange_spec fits found
  hashRange_some
  putHashed_spec
  putSub_spec
  writeThrough_full
  writeThrough_partial
  writeThrough_skip := by
    intro bucket idx chunkOff data chunkLen notFull skipped
    have absent : writeCached chunk bucket idx chunkOff data.len = false :=
      Bool.eq_false_iff.mpr skipped
    exact if_pos ⟨notFull, absent⟩
  unspliced_unmarked := fun _ _ skipped touched =>
    unspliced_unmarked skipped touched
  vacant_unspliced := fun _ => vacant_unspliced
  writeChunk_full
  writeChunk_vacant
  writeChunk_match
  writeChunk_mismatch
  drop_spec
  resize_sound := fun _ => resize_sound
  resize_marked := fun _ => resize_marked
  resize_beyond := fun _ _ => resize_beyond
  resize_uniform := fun _ => resize_uniform
  setHint_sound := by
    intro bucket size mtimeNs sound
    obtain ⟨curSize, _, _, data⟩ := @setHint_files _ _ chunk bucket size mtimeNs
    exact (curSize.trans sound).trans (congrArg len data).symm
  setHint_marked := by
    intro bucket size mtimeNs idx index
    obtain ⟨_, bits, subs, _⟩ := @setHint_files _ _ chunk bucket size mtimeNs
    simp only [diskView, diskStore, Marked, bits, subs]
  setHint_byte := by
    intro bucket size mtimeNs idx index
    obtain ⟨_, _, _, data⟩ := @setHint_files _ _ chunk bucket size mtimeNs
    simp only [diskView, diskStore, byte, data]
  setHint_whole := by
    intro bucket size mtimeNs idx
    obtain ⟨_, bits, _, _⟩ := @setHint_files _ _ chunk bucket size mtimeNs
    simp only [diskView, diskStore, Whole, bits]
  setHint_vacant := by
    intro bucket size mtimeNs idx
    obtain ⟨_, bits, subs, _⟩ := @setHint_files _ _ chunk bucket size mtimeNs
    simp only [diskView, diskStore, Vacant, bits, subs]

end Cornus.BlockCache
