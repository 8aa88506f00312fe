import Cornus.BlockCache.Laws

/-!
# Agreement of a bucket with a file

A bucket agrees with a file in one chunk when every byte it claims to hold
there is the file's byte, and every byte it keeps past the end of the file is
zero, whether claimed or not.  The second half is what lets a chunk grow: the
bytes a later operation exposes are then the file's own.  Agreement is stated
chunk by chunk because a write reaches the file at once and its cached chunks
one after the other.
-/

namespace Cornus.BlockCache

open Padded

namespace View

variable {Hash Entry : Type} (view : View Entry) (chunk : ChunkSize) (file : Bytes)
  (bucket : Option Entry)

/-- The bucket agrees with `file` in chunk `idx`, up to suspect positions. -/
structure BlockAgrees (idx : Nat) (suspect : Nat → Prop) : Prop where
  agrees : ∀ index, index < chunk.bytes → view.Marked bucket idx index →
    view.byte bucket idx index = file.get (idx * chunk.bytes + index) ∨ suspect index
  clean : ∀ index, index < chunk.bytes →
    file.len ≤ idx * chunk.bytes + index → view.byte bucket idx index = 0

/-- The bucket agrees with `file` everywhere. -/
structure Coherent : Prop where
  sound : view.Sound bucket
  block : ∀ idx, BlockAgrees view chunk file bucket idx fun _ => False

/-- No chunk is held in part. -/
def Uniform : Prop :=
  ∀ idx, view.Whole bucket idx ∨ view.Vacant bucket idx

/-- In chunk `idx`, `new` is `old` with `data` written at `off`. -/
structure Patch (old new : Bytes) (idx off : Nat) (data : Bytes) : Prop where
  inside : ∀ index, off ≤ index → index < off + data.len →
    new.get (idx * chunk.bytes + index) = data.get (index - off)
  outside : ∀ index, index < chunk.bytes → ¬(off ≤ index ∧ index < off + data.len) →
    new.get (idx * chunk.bytes + index) = old.get (idx * chunk.bytes + index)
  grows : old.len ≤ new.len
  within : ∀ index, off ≤ index → index < off + data.len → idx * chunk.bytes + index < new.len

variable {view : View Entry} {chunk : ChunkSize} {before after bucket : Option Entry}
  {old new file : Bytes} {idx off : Nat} {data : Bytes}

theorem Coherent.byte_eq (coherent : Coherent view chunk file bucket)
    (inChunk : index < chunk.bytes) (marked : view.Marked bucket idx index) :
    view.byte bucket idx index = file.get (idx * chunk.bytes + index) := by
  rcases (coherent.block idx).agrees index inChunk marked with same | absurd
  · exact same
  · exact absurd.elim

theorem BlockAgrees.mono (agrees : BlockAgrees view chunk file bucket idx suspect)
    (weaker : ∀ index, index < chunk.bytes → suspect index → larger index) :
    BlockAgrees view chunk file bucket idx larger where
  agrees := by
    intro index inChunk marked
    rcases agrees.agrees index inChunk marked with same | suspected
    · exact .inl same
    · exact .inr (weaker index inChunk suspected)
  clean := agrees.clean

theorem BlockAgrees.of_file (agrees : BlockAgrees view chunk old bucket idx suspect)
    (same : ∀ index, index < chunk.bytes → new.get (idx * chunk.bytes + index) =
        old.get (idx * chunk.bytes + index))
    (grows : old.len ≤ new.len) : BlockAgrees view chunk new bucket idx suspect where
  agrees := by
    intro index inChunk marked
    rw [same index inChunk]
    exact agrees.agrees index inChunk marked
  clean := by
    intro index inChunk past
    exact agrees.clean index inChunk (by omega)

theorem Frame.agrees (frame : Frame view chunk before after idx) (ne : other ≠ idx)
    (agrees : BlockAgrees view chunk file before other suspect) :
    BlockAgrees view chunk file after other suspect where
  agrees := by
    intro index inChunk marked
    rw [frame.byte other index ne inChunk]
    exact agrees.agrees index inChunk ((frame.marked other index ne inChunk).mp marked)
  clean := by
    intro index inChunk past
    rw [frame.byte other index ne inChunk]
    exact agrees.clean index inChunk past

theorem Frame.uniform (frame : Frame view chunk before after idx)
    (here : view.Whole before idx ∨ view.Vacant before idx →
      view.Whole after idx ∨ view.Vacant after idx)
    (uniform : view.Uniform before) : view.Uniform after := by
  intro other
  by_cases same : other = idx
  · subst same
    exact here (uniform other)
  · rcases uniform other with whole | vacant
    · exact .inl (frame.whole other same whole)
    · exact .inr (frame.vacant other same vacant)

theorem Overwrites.agrees (overwrites : Overwrites view chunk before after idx data)
    (agrees : BlockAgrees view chunk old before idx suspect)
    (content : ∀ index, index < data.len → data.get index = new.get (idx * chunk.bytes + index))
    (grows : old.len ≤ new.len) (complete : data.len < chunk.bytes →
      new.len ≤ idx * chunk.bytes + data.len) :
    BlockAgrees view chunk new after idx fun _ => False := by
  have beyond : ∀ index, index < chunk.bytes → data.len ≤ index →
      view.byte after idx index = 0 := by
    intro index inChunk past
    rcases overwrites.beyond index past inChunk with zero | same
    · exact zero
    rw [same]
    have ended := complete (by omega)
    exact agrees.clean index inChunk (by omega)
  constructor
  · intro index inChunk _
    left
    by_cases below : index < data.len
    · rw [overwrites.inside index below, content index below]
    have ended := complete (by omega)
    rw [beyond index inChunk (by omega)]
    exact (Bytes.zero_of_past new (by omega)).symm
  · intro index inChunk past
    by_cases below : index < data.len
    · rw [overwrites.inside index below, content index below]
      exact Bytes.zero_of_past new past
    · exact beyond index inChunk (by omega)

/-- Splicing a patch into a chunk leaves only those touched positions suspect
that the write does not cover and the bucket did not hold before. -/
theorem SplicesIn.agrees (splices : SplicesIn view chunk before after idx off data)
    (agrees : BlockAgrees view chunk old before idx fun _ => False)
    (patch : Patch chunk old new idx off data) : BlockAgrees view chunk new after idx fun index =>
      Touched off data.len index ∧ ¬(off ≤ index ∧ index < off + data.len) ∧
        idx * chunk.bytes + index < new.len ∧ ¬view.Marked before idx index := by
  have grows := patch.grows
  constructor
  · intro index inChunk marked
    by_cases inside : off ≤ index ∧ index < off + data.len
    · left
      rw [splices.inside index inside.1 inside.2, patch.inside index inside.1 inside.2]
    · have unchanged := splices.outside index inside inChunk
      by_cases held : view.Marked before idx index
      · left
        rcases agrees.agrees index inChunk held with same | absurd
        · rw [unchanged, same, patch.outside index inChunk inside]
        · exact absurd.elim
      · by_cases below : idx * chunk.bytes + index < new.len
        · right
          have touched := (splices.newMarks index inChunk marked).resolve_left held
          exact ⟨touched, inside, below, held⟩
        · left
          rw [unchanged, agrees.clean index inChunk (by omega), Bytes.zero_of_past new (by omega)]
  · intro index inChunk past
    have outside : ¬(off ≤ index ∧ index < off + data.len) := by
      rintro ⟨above, below⟩
      have within := patch.within index above below
      omega
    rw [splices.outside index outside inChunk]
    exact agrees.clean index inChunk (by omega)

theorem Drops.agrees {store : Store Hash Entry} (lawful : view.Lawful hashChunk chunk store)
    (drops : Drops view chunk before after idx off length)
    (agrees : BlockAgrees view chunk old before idx suspect) (grows : old.len ≤ new.len)
    (within : ∀ index, off ≤ index → index < off + length → idx * chunk.bytes + index < new.len) :
    BlockAgrees view chunk new after idx fun _ => False where
  agrees := by
    intro index inChunk marked
    exact absurd marked (lawful.vacant_marked drops.sound drops.becomesVacant inChunk)
  clean := by
    intro index inChunk past
    have outside : ¬(off ≤ index ∧ index < off + length) := by
      rintro ⟨above, below⟩
      have inside := within index above below
      omega
    rcases drops.outside index outside inChunk with zero | same
    · exact zero
    · rw [same]
      exact agrees.clean index inChunk (by omega)

theorem Coherent.of_frame (coherent : Coherent view chunk file before)
    (frame : Frame view chunk before after idx)
    (here : BlockAgrees view chunk file after idx fun _ => False) :
    Coherent view chunk file after where
  sound := frame.sound
  block := by
    intro other
    by_cases same : other = idx
    · exact same ▸ here
    · exact frame.agrees same (coherent.block other)

end View

/-- Whatever the store answers from a bucket is what the file holds. -/
structure Answers {Hash Entry : Type} (store : Store Hash Entry)
    (hashChunk : Bytes → Hash) (chunk : ChunkSize) (file : Bytes)
    (bucket : Option Entry) : Prop where
  get : ∀ idx length data, length ≤ chunk.bytes → store.get bucket idx length = some data →
    ∀ index, index < data.len → data.get index = file.get (idx * chunk.bytes + index)
  getSub : ∀ idx subOff length data, subOff + length ≤ chunk.bytes →
    store.getSub bucket idx subOff length = some data →
    ∀ index, index < data.len → data.get index = file.get (idx * chunk.bytes + subOff + index)
  hashRange : ∀ idx off length hash, off + length ≤ chunk.bytes →
    store.hashRange bucket idx off length = some hash →
    hash = hashChunk (file.slice (idx * chunk.bytes + off) length)

namespace View

section Operations

variable {Hash Entry : Type} {view : View Entry} {idx off : Nat} {data : Bytes}
  {hashChunk : Bytes → Hash} {store : Store Hash Entry} (lawful : view.Lawful hashChunk chunk store)

include lawful

theorem answers_of_marked (sound : view.Sound bucket)
    (right : ∀ idx index, index < chunk.bytes → view.Marked bucket idx index →
      view.byte bucket idx index = file.get (idx * chunk.bytes + index)) :
    Answers store hashChunk chunk file bucket where
  get := by
    intro idx length data bounded found index below
    obtain ⟨fits, whole, bytes⟩ := lawful.get_spec found
    rw [bytes index below]
    exact right idx index (by omega) (lawful.whole_marked whole)
  getSub := by
    intro idx subOff length data fits found index below
    obtain ⟨exactly, bytes⟩ := lawful.getSub_spec sound fits found
    obtain ⟨marked, same⟩ := bytes index (by omega)
    rw [same, right idx _ (by omega) marked, Nat.add_assoc]
  hashRange := by
    intro idx off length hash fits found
    obtain ⟨same, marked⟩ := lawful.hashRange_spec sound fits found
    rw [same]
    congr 1
    apply ext_get (by rfl)
    intro index below
    have inside : index < length := below
    rw [slice_get_of_lt _ inside, Nat.add_assoc, ← right idx _ (by omega) (marked index inside)]
    exact if_pos inside

/-- What a coherent entry answers is what the file holds. -/
theorem Coherent.answers (coherent : Coherent view chunk file bucket) :
    Answers store hashChunk chunk file bucket := by
  apply answers_of_marked lawful coherent.sound
  intro idx index inChunk marked
  exact coherent.byte_eq inChunk marked

theorem coherent_none : Coherent view chunk file none where
  sound := lawful.sound_none
  block := by
    intro idx
    constructor
    · intro index inChunk marked
      exact absurd marked (lawful.vacant_marked lawful.sound_none (lawful.vacant_none idx) inChunk)
    · intro index _ _
      exact lawful.byte_none idx index

theorem Coherent.drop (coherent : Coherent view chunk file bucket)
    (idx : Nat) : Coherent view chunk file (store.drop bucket idx) := by
  have drops : Drops view chunk bucket (store.drop bucket idx) idx 0 0 :=
    lawful.drop_spec coherent.sound
  apply coherent.of_frame drops.toFrame
  apply drops.agrees lawful (coherent.block idx) (Nat.le_refl _)
  intro index _ below
  omega

theorem Coherent.setHint (coherent : Coherent view chunk file bucket) (size mtimeNs : Nat) :
    Coherent view chunk file (store.setHint bucket size mtimeNs) where
  sound := lawful.setHint_sound coherent.sound
  block := by
    intro idx
    constructor
    · intro index inChunk marked
      rw [lawful.setHint_byte]
      exact (coherent.block idx).agrees index inChunk (lawful.setHint_marked.mp marked)
    · intro index inChunk past
      rw [lawful.setHint_byte]
      exact (coherent.block idx).clean index inChunk past

theorem Uniform.setHint (uniform : view.Uniform bucket) (size mtimeNs : Nat) :
    view.Uniform (store.setHint bucket size mtimeNs) := by
  intro idx
  rcases uniform idx with whole | vacant
  · exact .inl (lawful.setHint_whole.mpr whole)
  · exact .inr (lawful.setHint_vacant.mpr vacant)

theorem Coherent.resize (coherent : Coherent view chunk file bucket) (newSize : Nat) :
    Coherent view chunk (file.resize newSize) (store.resize bucket newSize) where
  sound := lawful.resize_sound coherent.sound
  block := by
    intro idx
    constructor
    · intro index inChunk marked
      left
      obtain ⟨held, kept⟩ := lawful.resize_marked coherent.sound inChunk marked
      by_cases below : idx * chunk.bytes + index < newSize
      · rw [kept below, coherent.byte_eq inChunk held, resize_get_of_lt _ below]
      rw [lawful.resize_beyond coherent.sound inChunk (by omega)]
      exact (Bytes.zero_of_past (file.resize newSize) (by
        simpa using below)).symm
    · intro index inChunk past
      exact lawful.resize_beyond coherent.sound inChunk past

theorem Coherent.putHashed (coherent : Coherent view chunk file bucket)
    {hash : Hash} (fits : data.len ≤ chunk.bytes) (content : ∀ index, index < data.len →
      data.get index = file.get (idx * chunk.bytes + index))
    (complete : data.len < chunk.bytes → file.len ≤ idx * chunk.bytes + data.len) :
    Coherent view chunk file (store.putHashed bucket idx data hash) := by
  have overwrites : Overwrites view chunk bucket (store.putHashed bucket idx data hash) idx data :=
    lawful.putHashed_spec coherent.sound fits
  apply coherent.of_frame overwrites.toFrame
  exact overwrites.agrees (coherent.block idx) content (Nat.le_refl _) complete

/-- A fill of part of a chunk.  Every touched position is covered, held
before, or past the end of the file. -/
theorem Coherent.putSub (coherent : Coherent view chunk file bucket)
    (inside : off < chunk.bytes) (fits : off + data.len ≤ chunk.bytes)
    (patch : Patch chunk file file idx off data)
    (covered : ∀ index, index < chunk.bytes → Touched off data.len index →
      ¬(off ≤ index ∧ index < off + data.len) → idx * chunk.bytes + index < file.len →
      view.Marked bucket idx index) :
    Coherent view chunk file (store.putSub bucket idx off data) := by
  have splices : SplicesIn view chunk bucket (store.putSub bucket idx off data) idx off data :=
    lawful.putSub_spec coherent.sound inside fits
  apply coherent.of_frame splices.toFrame
  apply (splices.agrees (coherent.block idx) patch).mono
  rintro index inChunk ⟨touched, outside, below, unmarked⟩
  exact unmarked (covered index inChunk touched outside below)

end Operations

end View

/-! ## Writes to one chunk -/

/-- In chunk `idx`, `new` is `old` with the write applied, and the write names
the chunk's valid length in `new`. -/
structure WriteSpec (chunk : ChunkSize) (old new : Bytes) (idx : Nat)
    (part : ChunkWrite) : Prop where
  patch : View.Patch chunk old new idx part.chunkOff part.data
  nonempty : 0 < part.data.len
  valid : part.chunkLen = min chunk.bytes (new.len - idx * chunk.bytes)
  fits : part.chunkOff + part.data.len ≤ part.chunkLen

variable {Hash Entry : Type} {view : View Entry} {hashChunk : Bytes → Hash}
  {store : Store Hash Entry} {bucket : Option Entry} {old new : Bytes} {idx size : Nat}
  {part : ChunkWrite}

/-- A write that does not cover its chunk is spliced into the bucket and marks
position `index`, which it does not cover and the bucket did not hold. -/
structure Exposed (view : View Entry) (chunk : ChunkSize)
    (bucket : Option Entry) (part : ChunkWrite) (size idx index : Nat) : Prop where
  notFull : ¬part.Full
  splices : view.Splices bucket idx part.chunkOff part.data.len
  touched : Touched part.chunkOff part.data.len index
  uncovered : ¬(part.chunkOff ≤ index ∧ index < part.chunkOff + part.data.len)
  below : idx * chunk.bytes + index < size
  unmarked : ¬view.Marked bucket idx index

theorem Exposed.of_frame (frame : View.Frame view chunk before after idx)
    (ne : other ≠ idx) (starts : part.chunkOff < chunk.bytes)
    (fits : part.chunkOff + part.data.len ≤ chunk.bytes) (inChunk : index < chunk.bytes)
    (exposed : Exposed view chunk after part size other index) :
    Exposed view chunk before part size other index where
  __ := exposed
  splices := frame.splices other _ _ ne starts fits exposed.splices
  unmarked := by
    intro marked
    exact exposed.unmarked ((frame.marked other index ne inChunk).mpr marked)

section

variable (lawful : view.Lawful hashChunk chunk store) (sound : view.Sound bucket)
  (agrees : View.BlockAgrees view chunk old bucket idx fun _ => False)
  (spec : WriteSpec chunk old new idx part)
include lawful sound agrees spec

/-- Writing through leaves exactly the exposed positions of the chunk
suspect. -/
theorem writeThrough_agrees :
    let next := store.writeThrough bucket idx part.chunkOff part.data part.chunkLen
    View.Frame view chunk bucket next idx ∧ View.BlockAgrees view chunk new next idx
        (fun index => Exposed view chunk bucket part new.len idx index ∧
          ∀ length, view.Holds bucket idx length ∨ length ≤ part.chunkOff + part.data.len →
            view.Holds next idx length) ∧
      (view.Whole bucket idx ∨ view.Vacant bucket idx →
        view.Whole next idx ∨ view.Vacant next idx) := by
  dsimp only
  have valid := spec.valid
  have fits := spec.fits
  have nonempty := spec.nonempty
  by_cases full : part.Full
  · have covers : part.chunkOff = 0 ∧ part.data.len = part.chunkLen := full
    have overwrites : View.Overwrites view chunk bucket
        (store.writeThrough bucket idx 0 part.data part.data.len) idx
        part.data := lawful.writeThrough_full sound (by omega)
    rw [covers.1, ← covers.2]
    refine ⟨overwrites.toFrame, ?_, fun _ => .inl overwrites.becomesWhole⟩
    apply (overwrites.agrees agrees ?_ spec.patch.grows (by omega)).mono
    · intro index _ absurd
      exact absurd.elim
    · intro index below
      have inside := spec.patch.inside index (by omega) (by omega)
      rw [inside, covers.1]
      rfl
  · by_cases splices : view.Splices bucket idx part.chunkOff part.data.len
    · have spliced : View.SplicesIn view chunk bucket
          (store.writeThrough bucket idx part.chunkOff part.data
            part.chunkLen) idx part.chunkOff part.data :=
        lawful.writeThrough_partial sound (by omega) (by omega) full splices
      refine ⟨spliced.toFrame, ?_, ?_⟩
      · apply (spliced.agrees agrees spec.patch).mono
        rintro index _ ⟨touched, uncovered, below, unmarked⟩
        refine ⟨⟨full, splices, touched, uncovered, below, unmarked⟩, ?_⟩
        rintro length (held | reached)
        · exact spliced.keepsHolding length held
        · exact lawful.holds_le reached spliced.reaches
      · rintro (whole | vacant)
        · exact .inl (spliced.staysWhole whole)
        · exact absurd splices (lawful.vacant_unspliced sound (by omega) (by omega) vacant)
    · have skipped : store.writeThrough bucket idx part.chunkOff part.data
          part.chunkLen = bucket := lawful.writeThrough_skip full splices
      rw [skipped]
      refine ⟨View.Frame.refl sound idx, ?_, fun uniform => uniform⟩
      constructor
      · intro index inChunk marked
        left
        have outside : ¬(part.chunkOff ≤ index ∧ index < part.chunkOff + part.data.len) := by
          rintro ⟨above, below⟩
          exact lawful.unspliced_unmarked sound inChunk splices
            (touched_of_inside above below) marked
        rcases agrees.agrees index inChunk marked with same | absurd
        · rw [same]
          exact (spec.patch.outside index inChunk outside).symm
        · exact absurd.elim
      · intro index inChunk past
        have grows := spec.patch.grows
        exact agrees.clean index inChunk (by omega)

omit agrees in
theorem not_exposed_of_uniform (uniform : view.Whole bucket idx ∨ view.Vacant bucket idx) :
    ¬Exposed view chunk bucket part size idx index := by
  intro exposed
  have valid := spec.valid
  have fits := spec.fits
  have nonempty := spec.nonempty
  rcases uniform with whole | vacant
  · exact exposed.unmarked (lawful.whole_marked whole)
  · exact lawful.vacant_unspliced sound (by omega) (by omega) vacant exposed.splices

omit sound in
theorem merged_eq_slice (whole : view.Whole bucket idx) :
    (view.bytes bucket idx 0 part.chunkLen).splice part.chunkOff part.data =
      new.slice (idx * chunk.bytes) part.chunkLen := by
  have fits := spec.fits
  have valid := spec.valid
  apply ext_get
  · simp only [splice_len, slice_len, View.bytes]
    omega
  · intro index below
    simp only [splice_len, View.bytes] at below
    rw [slice_get_of_lt _ (by omega)]
    by_cases inside : part.chunkOff ≤ index ∧ index < part.chunkOff + part.data.len
    · rw [splice_get_inside _ inside.1 inside.2, spec.patch.inside index inside.1 inside.2]
    rw [splice_get_outside _ inside, spec.patch.outside index (by omega) inside]
    simp only [View.bytes, Nat.zero_add]
    rw [if_pos (by omega)]
    rcases agrees.agrees index (by omega) (lawful.whole_marked whole) with
      same | absurd
    · exact same
    · exact absurd.elim

/-- A `WriteChunk` on a chunk that is whole and readable, or vacant, keeps it
so and in agreement with the new file. -/
theorem writeChunk_agrees
    (uniform : part.Full ∨ view.Whole bucket idx ∨ view.Vacant bucket idx)
    (ready : view.Whole bucket idx → ¬part.Full →
      view.Ready bucket idx (part.chunkOff + part.data.len) part.chunkLen) :
    let next := store.writeChunk bucket idx part.chunkOff part.data part.chunkLen
      (hashChunk (new.slice (idx * chunk.bytes) part.chunkLen))
    View.Frame view chunk bucket next idx ∧
      View.BlockAgrees view chunk new next idx (fun _ => False) ∧
      (view.Whole next idx ∨ view.Vacant next idx) := by
  dsimp only
  have fits := spec.fits
  have valid := spec.valid
  have grows := spec.patch.grows
  by_cases full : part.Full
  · have covers : part.chunkOff = 0 ∧ part.data.len = part.chunkLen := full
    have overwrites : View.Overwrites view chunk bucket
        (store.writeChunk bucket idx 0 part.data part.data.len
          (hashChunk (new.slice (idx * chunk.bytes) part.data.len))) idx
        part.data := lawful.writeChunk_full sound (by omega)
    rw [covers.1, ← covers.2]
    refine ⟨overwrites.toFrame, ?_, .inl overwrites.becomesWhole⟩
    apply overwrites.agrees agrees _ grows (by omega)
    intro index below
    have inside := spec.patch.inside index (by omega) (by omega)
    rw [inside, covers.1]
    rfl
  · rcases uniform with covered | whole | vacant
    · exact absurd covered full
    · have merged := merged_eq_slice lawful agrees spec whole
      have overwrites := lawful.writeChunk_match sound fits (by omega) full
        whole (ready whole full) (congrArg hashChunk merged)
      rw [merged] at overwrites
      refine ⟨overwrites.toFrame, ?_, .inl overwrites.becomesWhole⟩
      apply overwrites.agrees agrees _ grows
      · simp only [slice_len]
        omega
      · intro index below
        exact slice_get_of_lt _ below
    · rw [lawful.writeChunk_vacant full vacant]
      refine ⟨View.Frame.refl sound idx, ⟨?_, ?_⟩, .inr vacant⟩
      · intro index inChunk marked
        exact absurd marked (lawful.vacant_marked sound vacant inChunk)
      · intro index inChunk past
        exact agrees.clean index inChunk (by omega)

end

end Cornus.BlockCache
