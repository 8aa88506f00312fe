import Cornus.Wire.BlockProxy
import Cornus.BlockCache.Coherence

/-!
# Reads of a coherent session

A session is coherent when its bucket agrees with the caller's file and no
block was admitted at a sequence the caller has not reached.  A read keeps the
session coherent and delivers the file's bytes, whichever blocks it finds
cached.
-/

namespace Cornus.Wire

open BlockCache Lib Padded Nat Mount

variable {Hash Entry : Type} {view : View Entry} {mount : Mount Hash Entry}

/-- The mount's store satisfies the laws through the view. -/
abbrev Mount.Lawful (mount : Mount Hash Entry) (view : View Entry) : Prop :=
  view.Lawful mount.hashChunk mount.chunk mount.store

variable (mount)

/-- What every request keeps.  Without demand-fill each block is cached as a
whole or not at all. -/
structure Mount.Good (view : View Entry) (session : Session Entry) : Prop where
  coherent : view.Coherent mount.chunk session.file session.bucket
  fresh : ∀ b seq, session.last b = some seq → seq ≤ session.seq
  uniform : mount.features.subBlockFill = false → view.Uniform session.bucket

/-- The session after a request that only changed the bucket and the sequence
table. -/
structure Refills (before after : Session Entry) : Prop where
  file : after.file = before.file
  seq : after.seq = before.seq
  dirty : after.dirty = before.dirty
  size : after.size = before.size

theorem Refills.refl (session : Session Entry) : Refills session session := ⟨rfl, rfl, rfl, rfl⟩

theorem Refills.trans {first second third : Session Entry}
    (left : Refills first second) (right : Refills second third) : Refills first third :=
  ⟨right.file.trans left.file, right.seq.trans left.seq,
    right.dirty.trans left.dirty, right.size.trans left.size⟩

variable {b seq stop pos : Nat}

theorem admits_of_le (fresh : ∀ value, last b = some value → value ≤ seq) :
    admits last b seq false = true := by
  unfold admits
  cases found : last b with
  | none => rfl
  | some value => simpa using fresh value found

theorem admits_of_lt (fresh : ∀ value, last b = some value → value < seq) :
    admits last b seq true = true := by
  unfold admits
  cases found : last b with
  | none => rfl
  | some value => simpa using fresh value found

theorem admitSeq_of_ne (ne : other ≠ b) : admitSeq last b seq strict other = last other := by
  unfold admitSeq
  split_ifs
  · exact Function.update_of_ne ne _ _
  · rfl

theorem admitSeq_le (reached : seq ≤ bound)
    (fresh : ∀ other value, last other = some value → value ≤ bound) (other value : Nat)
    (found : admitSeq last b seq strict other = some value) : value ≤ bound := by
  by_cases same : other = b
  · subst same
    unfold admitSeq at found
    split_ifs at found
    · simp only [Function.update_self, Option.some.injEq] at found
      exact found ▸ reached
    · exact fresh other value found
  · rw [admitSeq_of_ne same] at found
    exact fresh other value found

/-! ## Fetches -/

/-- The answer is `subLen` bytes of the file and leaves the session good. -/
def Mount.Serves (view : View Entry) (session : Session Entry)
    (b first subLen : Nat) (got : Session Entry × Option Bytes) : Prop :=
  ∃ data, got.2 = some data ∧ mount.Good view got.1 ∧ Refills session got.1 ∧
    data.len = subLen ∧ ∀ index, index < data.len → data.get index = session.file.get
      (b * mount.chunk.bytes + first * subBlockSize + index)

variable {mount}

section SubBlocks

variable (lawful : mount.Lawful view) (fill : mount.features.subBlockFill = true)
  {session : Session Entry} (good : mount.Good view session)
  {b first subLen : Nat} (nonempty : 0 < subLen)
  (fits : first * subBlockSize + subLen ≤ mount.chunk.bytes)
  (inFile : b * mount.chunk.bytes + first * subBlockSize + subLen ≤ session.file.len)
  (aligned : subBlockSize ∣ subLen ∨ session.file.len ≤
    b * mount.chunk.bytes + first * subBlockSize + subLen)
include lawful fill good nonempty fits inFile aligned

theorem fetchSub_good : mount.Serves view session b first subLen
    (mount.fetchSub session b (first * subBlockSize) subLen) := by
  have allowed : ¬(subLen = 0 ∨ mount.chunk.bytes < subLen) := by omega
  have admitted : admits session.last b session.seq false = true := admits_of_le (good.fresh b)
  have length : (fileReadAt session.file
      (b * mount.chunk.bytes + first * subBlockSize) subLen).len = subLen := by
    rw [fileReadAt_len]
    omega
  have content : ∀ index, index < subLen → (fileReadAt session.file
      (b * mount.chunk.bytes + first * subBlockSize) subLen).get index =
      session.file.get (b * mount.chunk.bytes + first * subBlockSize + index) := by
    intro index below
    exact fileReadAt_get _ (by omega)
  simp only [fetchSub, handleReadRange, if_neg allowed, admitted, if_true]
  refine ⟨_, rfl, ?_, ⟨rfl, rfl, rfl, rfl⟩, length, ?_⟩
  · constructor
    · apply good.coherent.putSub lawful (by omega) (by omega)
      · constructor
        · intro index above below
          rw [content _ (by omega)]
          congr 1
          omega
        · intro index _ _
          rfl
        · exact Nat.le_refl _
        · intro index above below
          omega
      · intro index inChunk touched outside below
        exfalso
        apply outside
        rw [length] at touched ⊢
        simp only [Touched, subSpan, Nat.ne_of_gt nonempty, if_false, subBlockSize] at touched
        simp only [subBlockSize] at aligned inFile ⊢
        omega
    · exact fun other value => admitSeq_le (Nat.le_refl _) good.fresh other value
    · intro noFill
      rw [fill] at noFill
      cases noFill
  · intro index below
    exact content index (by omega)

theorem subBlockBytes_good : mount.Serves view session b first subLen
    (mount.subBlockBytes session b (first * subBlockSize) subLen) := by
  obtain ⟨data, fetched, kept, refills, length, content⟩ :=
    fetchSub_good lawful fill good nonempty fits inFile aligned
  have missed : (mount.fetchSub session b (first * subBlockSize)
      subLen).2.map (fun data => data.resize (min subLen data.len)) = some data := by
    rw [fetched, Option.map_some, length, Nat.min_self, ← length]
    congr 1
    apply ext_get
    · rfl
    · intro index _
      exact resize_get_of_le data (Nat.le_refl _) index
  unfold subBlockBytes
  split
  · rename_i buf found
    split_ifs with full
    · obtain ⟨_, bytes⟩ := lawful.getSub_spec good.coherent.sound fits found
      refine ⟨buf, rfl, good, Refills.refl session, full, ?_⟩
      intro index below
      obtain ⟨marked, same⟩ := bytes index (by omega)
      rw [same, good.coherent.byte_eq (by omega) marked, add_assoc]
    · exact ⟨data, missed, kept, refills, length, content⟩
  · exact ⟨data, missed, kept, refills, length, content⟩

end SubBlocks

variable [Inhabited Hash]

theorem readBlockFromCaller_spec (session : Session Entry) (b : Nat) :
    let (data, _, seq) := mount.readBlockFromCaller session b
    data.len = min mount.chunk.bytes (session.file.len - b * mount.chunk.bytes) ∧
      (∀ index, index < data.len → data.get index =
        session.file.get (b * mount.chunk.bytes + index)) ∧ seq = session.seq := by
  simp only [readBlockFromCaller, handleRead, Nat.max_self, readFrames]
  obtain ⟨length, content⟩ := readFrame_spec mount.hashChunk mount.chunk
    session.file session.seq b 0 (Nat.le_refl session.file.len)
  exact ⟨length, content, rfl⟩

/-- The range a demand-filled read asks for starts at a sub-block at or before
`pos`, reaches beyond it, and ends at a sub-block or at the end of the file. -/
theorem touchedRange_spec (chunk : ChunkSize) {size : Nat} (ahead : pos < stop)
    (inFile : stop ≤ size) :
    ∃ first subLen, touchedRange chunk size stop pos = (first * subBlockSize, subLen) ∧
      pos / chunk.bytes * chunk.bytes + first * subBlockSize ≤ pos ∧
      pos < pos / chunk.bytes * chunk.bytes + first * subBlockSize + subLen ∧
      first * subBlockSize + subLen ≤ chunk.bytes ∧
      pos / chunk.bytes * chunk.bytes + first * subBlockSize + subLen ≤ size ∧
      (subBlockSize ∣ subLen ∨ size ≤ pos / chunk.bytes * chunk.bytes +
        first * subBlockSize + subLen) := by
  obtain ⟨count, aligned⟩ := chunk.aligned
  have positive := chunk.positive
  have split := div_add_mod pos chunk.bytes
  have inBlock := mod_lt pos positive
  rw [mul_comm] at split
  unfold touchedRange
  generalize pos / chunk.bytes = b at split ⊢
  refine ⟨_, _, rfl, ?_⟩
  simp only [blockValidEnd, subBlockSize] at aligned ⊢
  omega

section

variable (lawful : mount.Lawful view) {session : Session Entry} (good : mount.Good view session)
include lawful good

theorem fetchBlock_good (b : Nat) : mount.Good view (mount.fetchBlock session b).1 ∧
      Refills session (mount.fetchBlock session b).1 ∧
      (mount.fetchBlock session b).2.len = min mount.chunk.bytes
        (session.file.len - b * mount.chunk.bytes) ∧
      ∀ index, index < (mount.fetchBlock session b).2.len →
        (mount.fetchBlock session b).2.get index =
          session.file.get (b * mount.chunk.bytes + index) := by
  have spec := @readBlockFromCaller_spec _ _ mount _ session b
  unfold fetchBlock
  generalize mount.readBlockFromCaller session b = reply at spec ⊢
  obtain ⟨data, hash, seq⟩ := reply
  obtain ⟨length, content, rfl⟩ := spec
  have admitted : admits session.last b session.seq false = true := admits_of_le (good.fresh b)
  have fits : data.len ≤ mount.chunk.bytes := by omega
  simp only [admitted, if_true]
  refine ⟨?_, ⟨rfl, rfl, rfl, rfl⟩, length, content⟩
  constructor
  · apply good.coherent.putHashed lawful fits content
    omega
  · exact fun other value => admitSeq_le (Nat.le_refl _) good.fresh other value
  · intro noFill
    have overwrites : View.Overwrites view mount.chunk session.bucket
        (mount.store.putHashed session.bucket b data hash) b data :=
      lawful.putHashed_spec good.coherent.sound fits
    exact overwrites.uniform (fun _ => .inl overwrites.becomesWhole) (good.uniform noFill)

theorem blockBytes_good {b : Nat} (inFile : b * mount.chunk.bytes < session.file.len) :
    let chunkLen := blockValidEnd mount.chunk b session.file.len - b * mount.chunk.bytes
    let result := mount.blockBytes session b chunkLen
    mount.Good view result.1 ∧ Refills session result.1 ∧ result.2.len = chunkLen ∧
      ∀ index, index < result.2.len → result.2.get index =
        session.file.get (b * mount.chunk.bytes + index) := by
  intro chunkLen
  have valid : chunkLen = min mount.chunk.bytes (session.file.len - b * mount.chunk.bytes) := by
    simp only [chunkLen, blockValidEnd]
    omega
  have missed := fetchBlock_good lawful good b
  rw [← valid] at missed
  unfold blockBytes
  split
  · rename_i buf found
    split_ifs with full
    · obtain ⟨_, whole, bytes⟩ := lawful.get_spec found
      refine ⟨good, Refills.refl session, full, ?_⟩
      intro index below
      have inside : index < buf.len := below
      have inBlock : index < mount.chunk.bytes := by omega
      rw [bytes index inside]
      exact good.coherent.byte_eq inBlock (lawful.whole_marked whole)
    · exact missed
  · exact missed

theorem bytesAt_good (ahead : pos < stop) (inFile : stop ≤ session.file.len) :
    ∃ next base data, mount.bytesAt session session.file.len stop pos = (next, some (base, data)) ∧
      mount.Good view next ∧ Refills session next ∧ base ≤ pos ∧ pos < base + data.len ∧
      ∀ index, index < data.len → data.get index = session.file.get (base + index) := by
  by_cases fill : mount.features.subBlockFill = true
  · obtain ⟨first, subLen, exactly, start, beyond, fits, within, whole⟩ :=
      touchedRange_spec mount.chunk ahead inFile
    obtain ⟨data, found, kept, refills, length, content⟩ :=
      subBlockBytes_good lawful fill good (by omega) fits within whole
    refine ⟨_, _, data, ?_, kept, refills, start, by omega, content⟩
    simp only [bytesAt, fill, if_true, exactly]
    rw [found]
    rfl
  · have positive := mount.chunk.positive
    have split := div_add_mod pos mount.chunk.bytes
    have inBlock := mod_lt pos positive
    rw [mul_comm] at split
    obtain ⟨kept, refills, length, content⟩ :=
      @blockBytes_good _ _ _ _ _ lawful session good (pos / mount.chunk.bytes) (by omega)
    refine ⟨_, _, _, ?_, kept, refills, ?_, ?_, content⟩
    · simp only [bytesAt, fill]
      rfl
    · omega
    · rw [length, blockValidEnd]
      omega

theorem readLoop_good {off stop fuel pos : Nat} {out : Bytes} (inFile : stop ≤ session.file.len)
    (started : off ≤ pos) (bounded : pos ≤ stop)
    (enough : stop - pos ≤ fuel) (length : out.len = pos - off)
    (content : ∀ index, index < out.len → out.get index = session.file.get (off + index)) :
    ∃ next result, mount.readLoop session.file.len stop fuel session pos out =
        (next, result, false) ∧
      mount.Good view next ∧ Refills session next ∧ result.len = stop - off ∧
      ∀ index, index < result.len → result.get index = session.file.get (off + index) := by
  induction fuel generalizing session pos out with
  | zero =>
    refine ⟨session, out, rfl, good, Refills.refl session, ?_, content⟩
    omega
  | succ fuel ih =>
    by_cases ahead : pos < stop
    · obtain ⟨next, base, data, served, kept, refills, start, beyond,
        bytes⟩ := bytesAt_good lawful good ahead inFile
      have left : ¬data.len ≤ pos - base := by omega
      have copied : min (stop - pos) (data.len - (pos - base)) ≠ 0 := by
        omega
      have extended : ∀ index, index < (out.splice out.len (data.slice (pos - base)
            (min (stop - pos) (data.len - (pos - base))))).len →
          (out.splice out.len (data.slice (pos - base)
            (min (stop - pos) (data.len - (pos - base))))).get index =
            next.file.get (off + index) := by
        intro index below
        rw [refills.file, splice_get]
        simp only [splice_len, slice_len] at below
        split_ifs with fresh
        · simp only [slice_len] at fresh
          rw [slice_get_of_lt _ (by omega), bytes _ (by omega)]
          congr 1
          omega
        · simp only [slice_len] at fresh
          exact content index (by omega)
      obtain ⟨final, result, finished, settled, rest, total, all⟩ :=
        @ih next kept (pos + min (stop - pos) (data.len - (pos - base)))
          (out.splice out.len (data.slice (pos - base)
            (min (stop - pos) (data.len - (pos - base)))))
          (by rw [refills.file]; exact inFile) (by omega) (by omega) (by omega) (by
            simp only [splice_len, slice_len]
            omega) extended
      refine ⟨final, result, ?_, settled, refills.trans rest, total, ?_⟩
      · rw [readLoop, if_pos ahead, served]
        simp only [if_neg left, if_neg copied]
        rw [← refills.file]
        exact finished
      · rw [← refills.file]
        exact all
    · refine ⟨session, out, ?_, good, Refills.refl session, ?_, content⟩
      · rw [readLoop, if_neg ahead]
      · omega

theorem readAt_good (sized : session.size = session.file.len) {off length : Nat}
    (inRange : off + length < 2 ^ 63) :
    mount.Good view (mount.readAt session off length).1 ∧
      Refills session (mount.readAt session off length).1 ∧
      (mount.readAt session off length).2.data = fileReadAt session.file off length := by
  rw [readAt, min_int64 inRange, sized]
  clear inRange
  by_cases past : session.file.len ≤ off
  · rw [if_pos past]
    refine ⟨good, Refills.refl session, ?_⟩
    apply ext_get
    · rw [fileReadAt_len]
      simp only [blank_len]
      omega
    · intro index below
      simp at below
  · obtain ⟨next, result, finished, kept, refills, total, content⟩ :=
      @readLoop_good _ _ _ _ _ lawful session good off (min (off + length) session.file.len)
        (min (off + length) session.file.len - off) off (Padded.blank 0)
        (by omega) (by omega) (by omega) (by omega) (by simp) (by simp)
    have exactly : result = fileReadAt session.file off length := by
      apply ext_get
      · rw [total, fileReadAt_len]
        omega
      · intro index below
        rw [content index below, fileReadAt_get _ (by
          rw [fileReadAt_len]
          omega)]
    rw [if_neg past]
    simp only [readUpTo, sized, finished, Bool.false_eq_true, if_false]
    split_ifs
    · exact ⟨kept, refills, exactly⟩
    · exact ⟨kept, refills, exactly⟩

end

end Cornus.Wire
