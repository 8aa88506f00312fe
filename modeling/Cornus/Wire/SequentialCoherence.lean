import Cornus.Lib.Run
import Cornus.BlockCache.Backend
import Cornus.Wire.WriteCoherence

/-!
# Coherence of requests issued one at a time

The classic scheme reads a cached block, merges the write and compares the
digest with the caller's.  On a coherent bucket the comparison succeeds, so the
scheme is sound as long as the read-modify-write can read the block in full.
Together with the write-through schemes this gives an invariant of every
request on the handles of one path.
-/

namespace Cornus.Wire

open BlockCache List Bool Mount

variable {Hash Entry : Type} {view : View Entry} {mount : Mount Hash Entry} {old new data : Bytes}
  {off seq : Nat}

/-! ## The classic scheme -/

structure ClassicLoop (view : View Entry) (chunk : ChunkSize)
    (old data : Bytes) (off seq : Nat) (blocks : List Nat) (session : Session Entry) : Prop where
  sound : view.Sound session.bucket
  uniform : view.Uniform session.bucket
  nodup : blocks.Nodup
  hits : ∀ b ∈ blocks, misses chunk off data.len b = false
  fresh : ∀ b ∈ blocks, ∀ value, session.last b = some value → value < seq
  pending : ∀ b ∈ blocks, View.BlockAgrees view chunk old session.bucket b fun _ => False
  done : ∀ b, b ∉ blocks → View.BlockAgrees view chunk (fileWriteAt old off data) session.bucket b
      fun _ => False
  ready : ∀ b ∈ blocks, view.Whole session.bucket b → ¬(writtenPart chunk old data off b).Full →
    view.Ready session.bucket b ((writtenPart chunk old data off b).chunkOff +
      (writtenPart chunk old data off b).data.len)
      (writtenPart chunk old data off b).chunkLen

variable (hashChunk : Bytes → Hash)

def classicEntry (chunk : ChunkSize) (old data : Bytes) (off b : Nat) : UnitHash Hash :=
  { blockIdx := b
    subOff := 0
    subLen := 0
    hash := hashChunk ((fileWriteAt old off data).slice (b * chunk.bytes)
      (writtenPart chunk old data off b).chunkLen) }

variable {session : Session Entry}

theorem classicTurn_loop (lawful : mount.Lawful view)
    (loop : ClassicLoop view mount.chunk old data off seq (b :: blocks) session) :
    let next := mount.classicTurn data off data.len (fileWriteAt old off data).len seq session
      (classicEntry mount.hashChunk mount.chunk old data off b)
    ClassicLoop view mount.chunk old data off seq blocks next ∧ Applies seq session next := by
  have mem : b ∈ b :: blocks := mem_cons_self
  have hit := loop.hits b mem
  have admitted : admits session.last b seq true = true := admits_of_lt (loop.fresh b mem)
  have spec := @blockPart_spec mount.chunk old data off b hit
  obtain ⟨frame, agrees, uniform⟩ :=
    writeChunk_agrees lawful loop.sound (loop.pending b mem)
      spec.toWriteSpec (.inr (loop.uniform b)) (loop.ready b mem)
  have nodup := nodup_cons.mp loop.nodup
  have apart : ∀ other, other ∈ blocks → other ≠ b := by
    intro other later same
    exact nodup.1 (same ▸ later)
  have later : ∀ other, other ∈ blocks → other ∈ b :: blocks := fun other => mem_cons_of_mem b
  simp only [classicTurn, classicEntry, hit, false_eq_true, if_false, admitted, if_true]
  refine ⟨?_, ⟨rfl, rfl, rfl, rfl⟩, fun bound reached fresh =>
    admitSeq_le reached fresh⟩
  constructor
  · exact frame.sound
  · exact frame.uniform (fun _ => uniform) loop.uniform
  · exact nodup.2
  · intro other remains
    exact loop.hits other (later other remains)
  · intro other remains
    simp only [admitSeq_of_ne (apart other remains)]
    exact loop.fresh other (later other remains)
  · intro other remains
    exact frame.agrees (apart other remains) (loop.pending other (later other remains))
  · intro other settled
    by_cases here : other = b
    · subst here
      exact agrees
    · exact frame.agrees here (loop.done other (by simp [here, settled]))
  · intro other remains whole notFull
    apply frame.ready other _ _ (apart other remains)
    apply loop.ready other (later other remains) _ notFull
    rcases loop.uniform other with before | vacant
    · exact before
    have gone := frame.vacant other (apart other remains) vacant
    exact absurd (lawful.whole_marked whole)
      (lawful.vacant_marked frame.sound gone mount.chunk.positive)

theorem applyWriteClassic_loop (lawful : mount.Lawful view)
    (loop : ClassicLoop view mount.chunk old data off seq blocks session) :
    let next := mount.applyWriteClassic session data off data.len (fileWriteAt old off data).len
      seq (blocks.map (classicEntry mount.hashChunk mount.chunk old data off))
    ClassicLoop view mount.chunk old data off seq [] next ∧ Applies seq session next := by
  induction blocks generalizing session with
  | nil => exact ⟨loop, Applies.refl seq session⟩
  | cons b blocks ih =>
    obtain ⟨next, applied⟩ := classicTurn_loop lawful loop
    obtain ⟨final, rest⟩ := ih next
    exact ⟨final, applied.trans rest⟩

theorem classicReply_eq {chunk : ChunkSize} (fits : data.len ≤ chunk.bytes) :
    putUnitHashes (classicEntries hashChunk chunk (fileWriteAt old off data)
        data off data.len (fileWriteAt old off data).len) =
      (writtenBlocks chunk off data.len).map (classicEntry hashChunk chunk old data off) := by
  have entries : classicEntries hashChunk chunk (fileWriteAt old off data)
      data off data.len (fileWriteAt old off data).len =
      (writtenBlocks chunk off data.len).map (classicEntry hashChunk chunk old data off) := by
    rw [classicEntries, ← filterMap_eq_map]
    apply filterMap_congr
    intro b mem
    have hit := mem_writtenBlocks.mp mem
    have valid := (@blockPart_spec chunk old data off b hit).valid
    have overlap := misses_eq_false_iff.mp hit
    have total := fileWriteAt_len old off data
    rw [if_neg (by omega)] at total
    have length : blockValidEnd chunk b (fileWriteAt old off data).len -
        b * chunk.bytes = (writtenPart chunk old data off b).chunkLen := by
      rw [valid, blockValidEnd]
      omega
    have nonempty : ¬blockValidEnd chunk b (fileWriteAt old off data).len ≤ b * chunk.bytes := by
      rw [blockValidEnd]
      omega
    simp only [if_neg nonempty, Function.comp_apply, classicEntry, length]
    rw [unitHashCovering_eq hashChunk (by omega)]
  have few := @length_writtenBlocks_le chunk off data.len fits
  rw [entries, putUnitHashes, Nat.mod_eq_of_lt (by
    rw [length_map]
    omega), take_length]

/-! ## Requests -/

/-- The condition under which the classic scheme can read every cached block it
has to merge a write into. -/
def WriteReady (mount : Mount Hash Entry) (view : View Entry)
    (session : Session Entry) (off : Nat) (data : Bytes) : Prop :=
  ∀ b, misses mount.chunk off data.len b = false →
    view.Whole session.bucket b →
    ¬(writtenPart mount.chunk session.file data off b).Full →
    view.Ready session.bucket b ((writtenPart mount.chunk session.file data off b).chunkOff +
        (writtenPart mount.chunk session.file data off b).data.len)
      (writtenPart mount.chunk session.file data off b).chunkLen

section

variable (lawful : mount.Lawful view)
include lawful

theorem applyWriteClassic_good (fits : data.len ≤ mount.chunk.bytes)
    (coherent : view.Coherent mount.chunk old session.bucket)
    (uniform : view.Uniform session.bucket)
    (fresh : ∀ b value, session.last b = some value → value < seq)
    (ready : WriteReady mount view { session with file := old } off data) :
    let new := fileWriteAt old off data
    let next := mount.applyWriteClassic session data off data.len new.len seq (putUnitHashes
      (classicEntries mount.hashChunk mount.chunk new data off data.len new.len))
    view.Coherent mount.chunk new next.bucket ∧ Applies seq session next ∧
      view.Uniform next.bucket := by
  have start : ClassicLoop view mount.chunk old data off seq
      (writtenBlocks mount.chunk off data.len) session := by
    constructor
    · exact coherent.sound
    · exact uniform
    · exact nodup_writtenBlocks
    · exact fun b mem => mem_writtenBlocks.mp mem
    · exact fun b _ => fresh b
    · exact fun b _ => coherent.block b
    · intro b outside
      exact agrees_of_not_written (coherent.block b) outside
    · exact fun b mem => ready b (mem_writtenBlocks.mp mem)
  obtain ⟨final, applied⟩ := applyWriteClassic_loop lawful start
  simp only [classicReply_eq mount.hashChunk fits]
  exact ⟨⟨final.sound, fun b => final.done b not_mem_nil⟩, applied, final.uniform⟩

theorem setAttr_good (good : mount.Good view session) (size : Option Nat)
    : mount.Good view (mount.setAttr session size) := by
  cases size with
  | none => exact good
  | some newSize =>
    constructor
    · exact good.coherent.resize lawful newSize
    · exact good.fresh
    · intro noFill idx
      exact lawful.resize_uniform good.coherent.sound (good.uniform noFill idx)

theorem openFile_good (good : mount.Good view session) (mtimeNs : Nat)
    : mount.Good view (mount.openFile session mtimeNs) := by
  unfold openFile
  constructor
  · apply View.Coherent.setHint lawful
    split_ifs
    · exact View.coherent_none lawful
    · exact good.coherent
  · intro b value found
    simp only at found
    split_ifs at found
    · exact good.fresh b value found
  · intro noFill
    apply View.Uniform.setHint lawful
    split_ifs
    · exact fun idx => .inr (lawful.vacant_none idx)
    · exact good.uniform noFill

variable [DecidableEq Hash]

section

variable (good : mount.Good view session) (fits : data.len ≤ mount.chunk.bytes)
  (ready : mount.features.deferHash = false → mount.features.subBlockHash = false →
    WriteReady mount view session off data)
  (safe : mount.features.subBlockFill = true →
    WriteSafe mount view session off data ∧ WriteTells mount view session off data)
include good fits ready safe

theorem applyScheme_good (mtimeNs : Nat) :
    let reply := (mount.handleWrite session off data mtimeNs).2
    let replied := mount.repliedSession session off data
    let applied := mount.applyScheme replied off data reply
    view.Coherent mount.chunk (fileWriteAt session.file off data) applied.bucket ∧
      Applies (session.seq + 1) replied applied ∧
      (mount.features.subBlockFill = false → view.Uniform applied.bucket) := by
  have coherent : view.Coherent mount.chunk session.file
    (mount.repliedSession session off data).bucket := good.coherent
  have uniform := good.uniform
  have fresh : ∀ b value, (mount.repliedSession session off data).last b = some value →
      value < session.seq + 1 :=
    fun b value found => Nat.lt_succ_of_le (good.fresh b value found)
  have unexposed : (mount.features.subBlockFill = true → mount.features.deferHash = true) →
      ∀ b index, misses mount.chunk off data.len b = false →
      index < mount.chunk.bytes →
      ¬Exposed view mount.chunk session.bucket (writtenPart mount.chunk session.file data off b)
        (fileWriteAt session.file off data).len b index := by
    intro deferred b index hit inChunk exposed
    by_cases fill : mount.features.subBlockFill = true
    · have settled := (safe fill).1 b index hit inChunk exposed
      rw [deferred fill] at settled
      cases settled.1
    · exact not_exposed_of_uniform lawful good.coherent.sound (blockPart_spec hit).toWriteSpec
        (uniform (by simpa using fill) b) exposed
  simp only [applyScheme, handleWrite, replyUnits]
  by_cases deferred : mount.features.deferHash = true
  · simp only [deferred, if_true]
    obtain ⟨agrees, applied, kept⟩ := applyWriteThrough_unexposed lawful
      coherent fresh (unexposed fun _ => deferred)
    exact ⟨agrees, applied, fun noFill => kept (uniform noFill)⟩
  · by_cases subBlock : mount.features.subBlockHash = true
    · simp only [deferred, subBlock, if_true, if_false, false_eq_true]
      by_cases fill : mount.features.subBlockFill = true
      · obtain ⟨settled, tells⟩ := safe fill
        obtain ⟨agrees, applied⟩ := applyWriteSubBlock_coherent lawful
          subBlock coherent fresh settled (tells (by simpa using deferred))
        refine ⟨agrees, applied, ?_⟩
        intro noFill
        rw [fill] at noFill
        cases noFill
      · obtain ⟨agrees, applied, kept⟩ := applyWriteThrough_unexposed lawful
          coherent fresh (unexposed fun filled => absurd filled fill)
        obtain ⟨verified, still⟩ := verifyUnits_keeps lawful
          (putUnitHashes (writeUnits mount.hashChunk mount.chunk
            mount.features (fileWriteAt session.file off data) data off
            data.len (fileWriteAt session.file off data).len)) agrees
        exact ⟨verified, { applied with },
          fun noFill => still (kept (uniform noFill))⟩
    · have noFill : mount.features.subBlockFill = false := by
        by_contra filled
        exact subBlock (mount.features.fillHashes (by simpa using filled))
      simp only [deferred, subBlock, if_false, false_eq_true]
      obtain ⟨agrees, applied, kept⟩ := applyWriteClassic_good lawful fits
        coherent (uniform noFill) fresh
        (ready (by simpa using deferred) (by simpa using subBlock))
      exact ⟨agrees, applied, fun _ => kept⟩

theorem writeAt_good (mtimeNs : Nat) : let next := mount.writeAt session off data mtimeNs
    mount.Good view next ∧ next.file = fileWriteAt session.file off data ∧
      next.size = next.file.len := by
  intro next
  obtain ⟨coherent, applied, uniform⟩ := applyScheme_good lawful good fits ready safe mtimeNs
  have file : next.file = fileWriteAt session.file off data := applied.file
  have seq : next.seq = session.seq + 1 := applied.seq
  have size : next.size = (fileWriteAt session.file off data).len := applied.size
  refine ⟨⟨?_, ?_, ?_⟩, file, by rw [size, file]⟩
  · rw [file]
    exact coherent.setHint lawful _ _
  · rw [seq]
    apply applied.last _ (Nat.le_refl _)
    intro b value found
    exact Nat.le_succ_of_le (good.fresh b value found)
  · intro noFill
    exact (uniform noFill).setHint lawful _ _

end

theorem verifyUnits_good (good : mount.Good view session) (units : List (UnitHash Hash)) :
    mount.Good view (mount.verifyUnits session units) := by
  obtain ⟨coherent, uniform⟩ := verifyUnits_keeps lawful units good.coherent
  exact ⟨coherent, good.fresh, fun noFill => uniform (good.uniform noFill)⟩

theorem verifyFrames_good (good : mount.Good view session) (frames : List (List (UnitHash Hash))) :
    mount.Good view (frames.foldl mount.verifyUnits session) ∧
      Refills session (frames.foldl mount.verifyUnits session) := by
  induction frames generalizing session with
  | nil => exact ⟨good, Refills.refl session⟩
  | cons units frames ih =>
    obtain ⟨kept, refills⟩ := ih (verifyUnits_good lawful good units)
    have first : Refills session (mount.verifyUnits session units) := ⟨rfl, rfl, rfl, rfl⟩
    exact ⟨kept, first.trans refills⟩

theorem fsync_good (good : mount.Good view session) (order : List Nat) :
    mount.Good view (mount.fsync session order) ∧ (mount.fsync session order).file = session.file ∧
      (mount.fsync session order).size = session.size := by
  have cleared : mount.Good view { session with dirty := [] } :=
    { good with }
  by_cases deferred : mount.features.deferHash = true
  · simp only [fsync, deferred, if_true]
    split
    · rename_i units _
      obtain ⟨kept, refills⟩ := verifyFrames_good lawful cleared (fsyncFrames mount.chunk units)
      exact ⟨kept, refills.file, refills.size⟩
    · rename_i impossible _
      exact nomatch impossible
  · simp only [fsync, deferred, if_false, false_eq_true]
    exact ⟨good, trivial, trivial⟩

end

end Cornus.Wire
