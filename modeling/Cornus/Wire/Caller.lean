import Cornus.Lib.Run
import Cornus.Lib.WriteLog
import Cornus.Wire.BlockServer

/-!
# Interleaved handlers at the caller

The caller serves reads and writes of one file concurrently.  A write handler
writes the file and then takes the next sequence number.  A block read looks at
the file's size, takes the current sequence number and reads block after block;
a ranged read takes the number after it has read.  Every access to the file or
to the sequence number is one step.

The question is what a sequence number on a read reply says about the bytes that
travel with it.
-/

namespace Cornus.Wire

open BlockCache Lib Function List Option Nat WriteModel

def fileWrites : WriteModel Bytes (Nat × Bytes) Nat UInt8 where
  apply := fun file write => fileWriteAt file write.1 write.2
  read := fun file pos => file.get pos
  Covers := fun write pos => write.1 ≤ pos ∧ pos < write.1 + write.2.len
  untouched := by
    intro file write pos outside
    rw [fileWriteAt_get, if_neg outside]

/-! ## Read handlers -/

/-- Whole blocks, or a range of one. -/
inductive ReadRequest where
  | block (blockIdx nBlocks : Nat)
  | range (blockIdx subOff subLen : Nat)

/-- What a read handler sends: labelled frames, a labelled range, or an
error. -/
inductive ReadReply (Hash : Type) where
  | frames (frames : List (ReadFrame Hash))
  | range (seq : Nat) (data : Bytes)
  | einval

/-- How far a read has come. -/
inductive ReadStage (Hash : Type) where
  | arrived
  | statted (size : Nat)
  | looping (size seq b left : Nat) (sent : List (ReadFrame Hash))
  | fetched (data : Bytes)
  | replied (reply : ReadReply Hash)

section Reads

variable {Hash : Type} [Inhabited Hash] (hashChunk : Bytes → Hash) (chunk : ChunkSize)
  (file : Bytes)

def ReadStage.next (seq : Nat) : ReadRequest → ReadStage Hash → ReadStage Hash
  | .block _ _, .arrived => .statted file.len
  | .block blockIdx nBlocks, .statted size =>
    .looping size seq blockIdx (max nBlocks 1) []
  | .block _ _, .looping _ _ _ 0 sent => .replied (.frames sent)
  | .block _ _, .looping size label b (left + 1) sent =>
    let frame := readFrame hashChunk chunk file label size b left
    if frame.final then .replied (.frames (sent ++ [frame]))
    else .looping size label (b + 1) left (sent ++ [frame])
  | .range blockIdx subOff subLen, .arrived =>
    if subLen = 0 ∨ chunk.bytes < subLen then .replied .einval
    else .fetched (fileReadAt file (blockIdx * chunk.bytes + subOff) subLen)
  | .range _ _ _, .fetched data => .replied (.range seq data)
  | _, stage => stage

variable (seq blockIdx nBlocks : Nat)

theorem next_reaches_looping (size label b left : Nat) (sent : List (ReadFrame Hash)) :
    Reaches (ReadStage.next hashChunk chunk file seq
        (.block blockIdx nBlocks)) (.looping size label b left sent)
      (.replied (.frames (sent ++ readFrames hashChunk chunk file label size b left))) := by
  induction left generalizing b sent with
  | zero =>
    apply Reaches.head
    simp only [ReadStage.next, readFrames, append_nil]
    exact Reaches.refl _
  | succ left ih =>
    apply Reaches.head
    by_cases final : (readFrame hashChunk chunk file label size b left).final = true
    · simp only [ReadStage.next, readFrames, final, if_true]
      exact Reaches.refl _
    · have rest := ih (b + 1) (sent ++ [readFrame hashChunk chunk file label size b left])
      simp only [ReadStage.next, readFrames, final, Bool.false_eq_true, if_false]
      rw [append_assoc, singleton_append] at rest
      exact rest

/-- A read that nothing interrupts is answered with its frames. -/
theorem next_reaches_block :
    Reaches (ReadStage.next hashChunk chunk file seq (.block blockIdx nBlocks)) .arrived
      (.replied (.frames (handleRead hashChunk chunk file seq blockIdx nBlocks))) := by
  apply Reaches.head
  apply Reaches.head
  exact next_reaches_looping hashChunk chunk file seq blockIdx nBlocks
    file.len seq blockIdx (max nBlocks 1) []

end Reads

/-! ## The caller -/

/-- How far a write has come. -/
inductive WriteStage where
  | arrived
  | stored (index : Nat)
  | numbered (index seq : Nat)

structure Writer where
  off : Nat
  data : Bytes
  stage : WriteStage

structure Reader (Hash : Type) where
  request : ReadRequest
  stage : ReadStage Hash

/-- The file, its sequence number (below 2^64) and the handlers at work on it.  `log`
is the history of the file's writes, and a writer keeps its place in it. -/
structure Caller (Hash : Type) where
  file : Bytes
  seq : Nat
  log : List (Nat × Bytes)
  writers : Nat → Option Writer
  readers : Nat → Option (Reader Hash)

/-- A request arrives or takes its next step. -/
inductive CallerEvent where
  | write (id off : Nat) (data : Bytes)
  | read (id : Nat) (request : ReadRequest)
  | advanceWriter (id : Nat)
  | advanceReader (id : Nat)

namespace Caller

variable {Hash : Type}

def start (file : Bytes) : Caller Hash :=
  { file
    seq := 0
    log := []
    writers := fun _ => none
    readers := fun _ => none }

variable (caller : Caller Hash) (id : Nat) (writer : Writer)

def setWriter : Caller Hash :=
  { caller with writers := update caller.writers id (some writer) }

def setReader (reader : Reader Hash) : Caller Hash :=
  { caller with readers := update caller.readers id (some reader) }

/-- The next access of a write handler: `WriteAt`, then `bumpSeq`. -/
def stepWriter : Caller Hash :=
  match writer.stage with
  | .arrived =>
    setWriter { caller with
        file := fileWriteAt caller.file writer.off writer.data,
        log := caller.log ++ [(writer.off, writer.data)] }
      id { writer with stage := .stored caller.log.length }
  | .stored index =>
    setWriter { caller with seq := caller.seq + 1 } id
      { writer with stage := .numbered index (caller.seq + 1) }
  | .numbered _ _ => caller

/-- The caller after an event. -/
def step [Inhabited Hash] (hashChunk : Bytes → Hash) (chunk : ChunkSize)
    (caller : Caller Hash) : CallerEvent → Option (Caller Hash)
  | .write id off data =>
    if (caller.writers id).isSome then none
    else some (caller.setWriter id { off, data, stage := .arrived })
  | .read id request =>
    if (caller.readers id).isSome then none
    else some (caller.setReader id { request, stage := .arrived })
  | .advanceWriter id => (caller.writers id).map (caller.stepWriter id)
  | .advanceReader id => (caller.readers id).map fun reader =>
    caller.setReader id { reader with
        stage := reader.stage.next hashChunk chunk caller.file caller.seq reader.request }

/-- A write that has its number, with its place in the log. -/
def Numbered (seq index : Nat) : Prop :=
  ∃ id writer, caller.writers id = some writer ∧ writer.stage = .numbered index seq

end Caller

/-! ## Labels -/

/-- A labelled range of the file, as a reply carries it. -/
structure Piece where
  start : Nat
  length : Nat
  seq : Nat
  data : Bytes

section Labels

variable {Hash : Type} (chunk : ChunkSize)

def framePiece (frame : ReadFrame Hash) : Piece :=
  { start := frame.blockIdx * chunk.bytes, length := chunk.bytes, seq := frame.seq,
    data := frame.data }

def ReadStage.pieces : ReadRequest → ReadStage Hash → List Piece
  | .block _ _, .looping _ _ _ _ sent => sent.map (framePiece chunk)
  | .block _ _, .replied (.frames frames) => frames.map (framePiece chunk)
  | .range blockIdx subOff subLen, .replied (.range seq data) =>
    [{ start := blockIdx * chunk.bytes + subOff, length := subLen, seq, data }]
  | _, _ => []

/-- Every byte of the piece is one that the file held at its position at some
time after the write at `index` of the log.  Past its last byte a piece reads as
zeros, as the file does. -/
def Piece.Reflects (base : Bytes) (log : List (Nat × Bytes)) (piece : Piece) (index : Nat) : Prop :=
  ∀ offset, offset < piece.length → ∃ count, index < count ∧
    count ≤ log.length ∧ piece.data.get offset =
      (fileWrites.version base log count).get (piece.start + offset)

/-- A reply labelled `s` reflects every write numbered `s` or less. -/
def Caller.LabelsSound (base : Bytes) (caller : Caller Hash) : Prop :=
  ∀ id reader piece seq index, caller.readers id = some reader →
    piece ∈ reader.stage.pieces chunk reader.request →
    caller.Numbered seq index → seq ≤ piece.seq → piece.Reflects base caller.log index

/-- Every run of allowed steps leaves all labels sound. -/
def RunsLabelled [Inhabited Hash] (hashChunk : Bytes → Hash)
    (allowed : Caller Hash → CallerEvent → Prop) : Prop :=
  ∀ file events final,
    Along (Caller.step hashChunk chunk) allowed (Caller.start file) events →
    run (Caller.step hashChunk chunk) (Caller.start file) events = some final →
    final.LabelsSound chunk file

/-- A block read has looked at the size, or a ranged read at the bytes, and has
not taken its label yet. -/
def ReadStage.Unlabelled : ReadStage Hash → Prop
  | .statted _ => True
  | .fetched _ => True
  | _ => False

/-- No write takes its number while a read is between its first look at the
file and its label. -/
def Caller.BumpsApart (caller : Caller Hash) : CallerEvent → Prop
  | .advanceWriter id => ∀ writer index, caller.writers id = some writer →
      writer.stage = .stored index →
      ∀ other reader, caller.readers other = some reader → ¬reader.stage.Unlabelled
  | _ => True

end Labels

/-! ## What the steps preserve -/

section Facts

variable {Hash : Type} {chunk : ChunkSize} {base : Bytes}

theorem fileWrites_version_len_le (log : List (Nat × Bytes))
    {early late : Nat} (ordered : early ≤ late) :
    (fileWrites.version base log early).len ≤ (fileWrites.version base log late).len :=
  version_mono (fun file write => fileWriteAt_grows file write.1 write.2) ordered

theorem Bytes.get_eq_of_past {left right : Bytes} (pastLeft : left.len ≤ i)
    (pastRight : right.len ≤ j) : left.get i = right.get j :=
  (left.zero_of_past pastLeft).trans (right.zero_of_past pastRight).symm

namespace Caller

/-- Version `count` of the file has every write numbered `label` or less. -/
structure Seen (caller : Caller Hash) (label count : Nat) : Prop where
  within : count ≤ caller.log.length
  labelled : label ≤ caller.seq
  numbered : ∀ seq index, caller.Numbered seq index → seq ≤ label → index < count

/-- The history only grows, and new numbers are new. -/
structure Continues (before after : Caller Hash) : Prop where
  log : ∃ more, after.log = before.log ++ more
  seq : before.seq ≤ after.seq
  numbered : ∀ seq index, after.Numbered seq index → seq ≤ before.seq → before.Numbered seq index

variable (base)

def PieceFacts (caller : Caller Hash) (piece : Piece) : Prop :=
  piece.seq ≤ caller.seq ∧ ∀ seq index, caller.Numbered seq index →
    seq ≤ piece.seq → piece.Reflects base caller.log index

variable (chunk)

/-- What a handler knows of the file between two accesses. -/
def StageFacts (caller : Caller Hash) : ReadRequest → ReadStage Hash → Prop
  | _, .statted size => ∃ count, caller.Seen caller.seq count ∧
      size = (fileWrites.version base caller.log count).len
  | _, .looping size label _ _ _ => ∃ count, caller.Seen label count ∧
      size = (fileWrites.version base caller.log count).len
  | .range blockIdx subOff subLen, .fetched data => ∃ count,
      caller.Seen caller.seq count ∧
      data = fileReadAt (fileWrites.version base caller.log count)
        (blockIdx * chunk.bytes + subOff) subLen
  | _, _ => True

structure ReaderFacts (caller : Caller Hash) (reader : Reader Hash) : Prop where
  stage : StageFacts chunk base caller reader.request reader.stage
  pieces : ∀ piece ∈ reader.stage.pieces chunk reader.request, PieceFacts base caller piece

/-- What every reachable state keeps. -/
structure Invariant (caller : Caller Hash) : Prop where
  file : caller.file = fileWrites.version base caller.log caller.log.length
  stored : ∀ id writer index, caller.writers id = some writer →
    writer.stage = .stored index → index < caller.log.length
  numbered : ∀ seq index, caller.Numbered seq index → seq ≤ caller.seq ∧ index < caller.log.length
  readers : ∀ id reader, caller.readers id = some reader → ReaderFacts chunk base caller reader

variable {base}

variable {chunk} {before after caller : Caller Hash} {label count : Nat} {piece : Piece}

section

variable (continues : before.Continues after)
include continues

theorem Continues.version_eq (within : count ≤ before.log.length) :
    fileWrites.version base after.log count = fileWrites.version base before.log count := by
  obtain ⟨more, extended⟩ := continues.log
  rw [extended, version_append within]

theorem Continues.length_le : before.log.length ≤ after.log.length := by
  obtain ⟨more, extended⟩ := continues.log
  rw [extended, length_append]
  exact le_add_right _ _

theorem Continues.seen (seen : before.Seen label count) : after.Seen label count where
  within := Nat.le_trans seen.within continues.length_le
  labelled := Nat.le_trans seen.labelled continues.seq
  numbered := by
    intro seq index numbered bounded
    apply seen.numbered seq index _ bounded
    exact continues.numbered seq index numbered (Nat.le_trans bounded seen.labelled)

theorem Continues.pieceFacts
    (facts : PieceFacts base before piece) : PieceFacts base after piece := by
  refine ⟨Nat.le_trans facts.1 continues.seq, ?_⟩
  intro seq index numbered bounded offset inside
  have earlier := continues.numbered seq index numbered (Nat.le_trans bounded facts.1)
  obtain ⟨count, later, within, same⟩ := facts.2 seq index earlier bounded offset inside
  refine ⟨count, later, Nat.le_trans within continues.length_le, ?_⟩
  rw [same, continues.version_eq within]

/-- A handler's facts survive the other handlers' steps, except a number taken
before its own label. -/
theorem Continues.readerFacts (apart : after.seq = before.seq ∨ ¬reader.stage.Unlabelled)
    (facts : ReaderFacts chunk base before reader) : ReaderFacts chunk base after reader where
  stage := by
    have kept := facts.stage
    obtain ⟨request, stage⟩ := reader
    cases stage with
    | arrived | replied reply => cases request <;> trivial
    | statted size =>
      obtain ⟨count, seen, exactly⟩ := kept
      have same : after.seq = before.seq := apart.resolve_right (fun absurd => absurd trivial)
      refine ⟨count, same ▸ continues.seen seen, ?_⟩
      rw [exactly, continues.version_eq seen.within]
    | looping size label b left sent =>
      obtain ⟨count, seen, exactly⟩ := kept
      refine ⟨count, continues.seen seen, ?_⟩
      rw [exactly, continues.version_eq seen.within]
    | fetched data =>
      cases request with
      | block blockIdx nBlocks => trivial
      | range blockIdx subOff subLen =>
        obtain ⟨count, seen, exactly⟩ := kept
        have same : after.seq = before.seq := apart.resolve_right (fun absurd => absurd trivial)
        refine ⟨count, same ▸ continues.seen seen, ?_⟩
        rw [exactly, continues.version_eq seen.within]
  pieces := fun piece mem => continues.pieceFacts (facts.pieces piece mem)

end

/-- A frame read now, cut at the size of an earlier look, reflects what that
look had seen. -/
theorem Seen.frame_facts [Inhabited Hash] (hashChunk : Bytes → Hash)
    (invariant : Invariant chunk base caller) (seen : caller.Seen label count) {size : Nat}
    (exactly : size = (fileWrites.version base caller.log count).len) (b left : Nat) :
    PieceFacts base caller
      (framePiece chunk (readFrame hashChunk chunk caller.file label size b left)) := by
  have grown : size ≤ caller.file.len := by
    rw [exactly, invariant.file]
    exact fileWrites_version_len_le _ seen.within
  obtain ⟨length, content⟩ := readFrame_spec hashChunk chunk caller.file label b left grown
  refine ⟨seen.labelled, ?_⟩
  intro seq index numbered bounded offset inside
  have later := seen.numbered seq index numbered bounded
  by_cases below : offset < (readFrame hashChunk chunk caller.file label size b left).data.len
  · refine ⟨caller.log.length, Nat.lt_of_lt_of_le later seen.within, Nat.le_refl _, ?_⟩
    rw [← invariant.file]
    exact content offset below
  · refine ⟨count, later, seen.within, ?_⟩
    have inBlock : offset < chunk.bytes := inside
    apply Bytes.get_eq_of_past (Nat.not_lt.mp below)
    change _ ≤ b * chunk.bytes + offset
    omega

/-- A range that was read before its label reflects what had been numbered when
it was read. -/
theorem Seen.range_facts (seen : caller.Seen caller.seq count) (start length : Nat) :
    PieceFacts base caller
      { start, length, seq := caller.seq,
        data := fileReadAt (fileWrites.version base caller.log count) start length } := by
  refine ⟨Nat.le_refl _, ?_⟩
  intro seq index numbered bounded offset inside
  refine ⟨count, seen.numbered seq index numbered bounded, seen.within, ?_⟩
  have inRange : offset < length := inside
  by_cases below : offset < (fileReadAt (fileWrites.version base caller.log count) start length).len
  · exact fileReadAt_get _ below
  apply Bytes.get_eq_of_past (Nat.not_lt.mp below)
  rw [fileReadAt_len] at below
  change _ ≤ start + offset
  omega

theorem Invariant.seen_now (invariant : Invariant chunk base caller) :
    caller.Seen caller.seq caller.log.length where
  within := Nat.le_refl _
  labelled := Nat.le_refl _
  numbered := fun seq index numbered _ =>
    (invariant.numbered seq index numbered).2

theorem Invariant.next_facts [Inhabited Hash] (hashChunk : Bytes → Hash)
    (invariant : Invariant chunk base caller) (facts : ReaderFacts chunk base caller reader) :
    ReaderFacts chunk base caller { reader with
        stage := reader.stage.next hashChunk chunk caller.file caller.seq reader.request } := by
  have now := invariant.seen_now
  obtain ⟨request, stage⟩ := reader
  obtain ⟨known, sound⟩ := facts
  cases request with
  | block blockIdx nBlocks =>
    cases stage with
    | arrived =>
      refine ⟨⟨caller.log.length, now, ?_⟩, ?_⟩
      · rw [← invariant.file]
      · intro piece mem
        cases mem
    | statted size =>
      refine ⟨known, ?_⟩
      intro piece mem
      cases mem
    | looping size label b left sent =>
      cases left with
      | zero => exact ⟨trivial, sound⟩
      | succ left =>
        obtain ⟨count, seen, exactly⟩ := id known
        have frame := seen.frame_facts hashChunk invariant exactly b left
        have extended : ∀ piece ∈ (sent ++ [readFrame hashChunk chunk caller.file label size b
            left]).map (framePiece chunk), PieceFacts base caller piece := by
          intro piece mem
          rw [map_append, mem_append] at mem
          rcases mem with earlier | new
          · exact sound piece earlier
          · rw [map_singleton, mem_singleton] at new
            exact new ▸ frame
        simp only [ReadStage.next]
        split_ifs
        · exact ⟨trivial, extended⟩
        · exact ⟨known, extended⟩
    | fetched data | replied reply => exact ⟨known, sound⟩
  | range blockIdx subOff subLen =>
    cases stage with
    | arrived =>
      simp only [ReadStage.next]
      split_ifs
      · refine ⟨trivial, ?_⟩
        intro piece mem
        cases mem
      · refine ⟨⟨caller.log.length, now, ?_⟩, ?_⟩
        · rw [← invariant.file]
        · intro piece mem
          cases mem
    | statted size | looping size label b left sent | replied reply => exact ⟨known, sound⟩
    | fetched data =>
      obtain ⟨count, seen, rfl⟩ := known
      refine ⟨trivial, ?_⟩
      intro piece mem
      rw [ReadStage.next, ReadStage.pieces, mem_singleton] at mem
      exact mem ▸ seen.range_facts _ _

theorem Numbered.of_setWriter {id seq : Nat}
    (numbered : (caller.setWriter id writer).Numbered seq index) :
    writer.stage = .numbered index seq ∨ caller.Numbered seq index := by
  obtain ⟨other, found, here, stage⟩ := numbered
  obtain ⟨_, rfl⟩ | ⟨_, here⟩ := update_eq_some_iff.mp here
  · exact .inl stage
  · exact .inr ⟨other, found, here, stage⟩

theorem Invariant.readers_of (invariant : Invariant chunk base before)
    (continues : before.Continues after) (same : after.readers = before.readers)
    (apart : after.seq = before.seq ∨ ∀ id reader,
      before.readers id = some reader → ¬reader.stage.Unlabelled) :
    ∀ id reader, after.readers id = some reader → ReaderFacts chunk base after reader := by
  intro id reader found
  rw [same] at found
  apply continues.readerFacts _ (invariant.readers id reader found)
  exact apart.imp_right fun labelled => labelled id reader found

section

variable (invariant : Invariant chunk base caller)
include invariant

theorem Invariant.setWriter (id : Nat)
    (stored : ∀ index, writer.stage = .stored index → index < caller.log.length)
    (unnumbered : ∀ index seq, writer.stage ≠ .numbered index seq) :
    Invariant chunk base (caller.setWriter id writer) where
  file := invariant.file
  stored := by
    intro other found index here stage
    obtain ⟨_, rfl⟩ | ⟨_, here⟩ := update_eq_some_iff.mp here
    · exact stored index stage
    · exact invariant.stored other found index here stage
  numbered := by
    intro seq index numbered
    rcases numbered.of_setWriter with new | old
    · exact absurd new (unnumbered index seq)
    · exact invariant.numbered seq index old
  readers := by
    refine invariant.readers_of ?_ (by rfl) (.inl (by rfl))
    refine ⟨⟨[], by simp [Caller.setWriter]⟩, Nat.le_refl _, ?_⟩
    intro seq index numbered _
    exact numbered.of_setWriter.resolve_left (unnumbered index seq)

theorem Invariant.write (off : Nat) (data : Bytes) : Invariant chunk base { caller with
        file := fileWriteAt caller.file off data
        log := caller.log ++ [(off, data)] } where
  file := by
    simp only [length_append, length_singleton, version_snoc, ← invariant.file]
    rfl
  stored := by
    intro id writer index here stage
    have earlier := invariant.stored id writer index here stage
    rw [length_append]
    omega
  numbered := by
    intro seq index numbered
    obtain ⟨bounded, earlier⟩ := invariant.numbered seq index numbered
    refine ⟨bounded, ?_⟩
    rw [length_append]
    omega
  readers := by
    refine invariant.readers_of ?_ (by rfl) (.inl (by rfl))
    exact ⟨⟨_, rfl⟩, Nat.le_refl _, fun _ _ numbered _ => numbered⟩

theorem Invariant.bump {id : Nat} (here : caller.writers id = some writer)
    (stage : writer.stage = .stored index)
    (apart : ∀ other reader, caller.readers other = some reader → ¬reader.stage.Unlabelled) :
    Invariant chunk base (Caller.setWriter { caller with seq := caller.seq + 1 } id
        { writer with stage := .numbered index (caller.seq + 1) }) where
  file := invariant.file
  stored := by
    intro other found place there stage
    obtain ⟨_, rfl⟩ | ⟨_, there⟩ := update_eq_some_iff.mp there
    · cases stage
    · exact invariant.stored other found place there stage
  numbered := by
    intro seq place numbered
    rcases numbered.of_setWriter with new | old
    · cases new
      exact ⟨Nat.le_refl _, invariant.stored id writer index here stage⟩
    · obtain ⟨bounded, earlier⟩ := invariant.numbered seq place old
      exact ⟨le_succ_of_le bounded, earlier⟩
  readers := by
    refine invariant.readers_of ?_ (by rfl) (.inr apart)
    refine ⟨⟨[], by simp [Caller.setWriter]⟩, le_succ _, ?_⟩
    intro seq place numbered bounded
    rcases numbered.of_setWriter with new | old
    · cases new
      exact absurd bounded (not_succ_le_self _)
    · exact old

theorem Invariant.setReader (id : Nat) (facts : ReaderFacts chunk base caller reader) :
    Invariant chunk base (caller.setReader id reader) where
  __ := invariant
  readers := by
    have continues : caller.Continues (caller.setReader id reader) :=
      ⟨⟨[], by simp [Caller.setReader]⟩, Nat.le_refl _, fun _ _ numbered _ => numbered⟩
    intro other found here
    apply continues.readerFacts (.inl rfl)
    obtain ⟨_, rfl⟩ | ⟨_, here⟩ := update_eq_some_iff.mp here
    · exact facts
    · exact invariant.readers other found here

/-- One event keeps the invariant if the numbers are taken apart. -/
theorem step_invariant [Inhabited Hash] {next : Caller Hash} (apart : caller.BumpsApart event)
    (taken : caller.step hashChunk chunk event = some next) : Invariant chunk base next := by
  cases event with
  | write id off data =>
    simp only [step, ite_none_left_eq_some, some.injEq] at taken
    obtain ⟨_, rfl⟩ := taken
    apply invariant.setWriter
    · intro index stage
      cases stage
    · intro index seq stage
      cases stage
  | read id request =>
    simp only [step, ite_none_left_eq_some, some.injEq] at taken
    obtain ⟨_, rfl⟩ := taken
    apply invariant.setReader
    refine ⟨by cases request <;> trivial, ?_⟩
    intro piece mem
    cases request <;> cases mem
  | advanceWriter id =>
    simp only [step, map_eq_some_iff] at taken
    obtain ⟨writer, here, rfl⟩ := taken
    unfold stepWriter
    split
    · apply (invariant.write writer.off writer.data).setWriter
      · intro index stage
        cases stage
        rw [length_append]
        exact lt_succ_self _
      · intro index seq stage
        cases stage
    · rename_i index stage
      exact invariant.bump here stage (apart writer index here stage)
    · exact invariant
  | advanceReader id =>
    simp only [step, map_eq_some_iff] at taken
    obtain ⟨reader, here, rfl⟩ := taken
    apply invariant.setReader
    exact invariant.next_facts hashChunk (invariant.readers id reader here)

end

end Caller

end Facts

/-! ## Runs -/

/-- Labels are sound where no number falls between the bytes of a read and its
label. -/
theorem runsLabelled_of_bumpsApart {Hash : Type} [Inhabited Hash]
    (hashChunk : Bytes → Hash) (chunk : ChunkSize) :
    RunsLabelled chunk hashChunk Caller.BumpsApart := by
  intro file events final along reached
  have invariant : Caller.Invariant chunk file final := by
    apply run_invariant _ _ along reached
    · intro caller event next invariant apart taken
      exact Caller.step_invariant invariant apart taken
    · refine ⟨rfl, ?_, ?_, ?_⟩
      · intro id writer index here
        cases here
      · rintro seq index ⟨id, writer, here, _⟩
        cases here
      · intro id reader here
        cases here
  intro id reader piece seq index here member numbered bounded
  exact ((invariant.readers id reader here).pieces piece member).2 seq index numbered bounded

/-- A ranged read fetches its bytes, a write is applied and numbered, and the
read takes its label. -/
def lateLabelRun : List CallerEvent :=
  [.read 0 (.range 0 0 10), .advanceReader 0,
    .write 1 0 (Padded.replicate 10 8), .advanceWriter 1, .advanceWriter 1, .advanceReader 0]

theorem lateLabel_not_runsLabelled :
    ¬RunsLabelled onePage (id : Bytes → Bytes) fun _ _ => True := by
  intro claim
  have reflects := claim (Padded.replicate 10 1) lateLabelRun _
    (Along.of_events fun _ _ => trivial) rfl 0 _ _ 1 0 rfl
    (mem_singleton_self _) ⟨1, _, rfl, rfl⟩ (Nat.le_refl 1) 0
    (by decide)
  obtain ⟨count, later, within, same⟩ := reflects
  have one : count = 1 := Nat.le_antisymm within later
  subst one
  exact absurd same (by decide)

/-- The write is applied between fetch and label, but numbered after both. -/
def earlyLabelRun : List CallerEvent :=
  [.read 0 (.range 0 0 10), .advanceReader 0,
    .write 1 0 (Padded.replicate 10 8), .advanceWriter 1, .advanceReader 0,
    .advanceWriter 1]

theorem earlyLabelRun_labelled : ∃ final, run (Caller.step (id : Bytes → Bytes) onePage)
        (Caller.start (Padded.replicate 10 1)) earlyLabelRun = some final ∧
      final.LabelsSound onePage (Padded.replicate 10 1) := by
  refine ⟨_, rfl, ?_⟩
  apply runsLabelled_of_bumpsApart (id : Bytes → Bytes) onePage
    (Padded.replicate 10 1) earlyLabelRun _ _ rfl
  refine ⟨trivial, fun opened taken => ?_⟩
  obtain rfl := some.inj taken
  refine ⟨trivial, fun fetched taken => ?_⟩
  obtain rfl := some.inj taken
  refine ⟨trivial, fun arrived taken => ?_⟩
  obtain rfl := some.inj taken
  refine ⟨?_, fun stored taken => ?_⟩
  · intro writer index here stage
    obtain rfl := some.inj here
    cases stage
  obtain rfl := some.inj taken
  refine ⟨trivial, fun labelled taken => ?_⟩
  obtain rfl := some.inj taken
  refine ⟨?_, fun _ _ => trivial⟩
  intro writer index _ _ other reader here unlabelled
  by_cases same : other = 0
  · subst same
    obtain rfl := some.inj here
    exact unlabelled
  · simp [Caller.setReader, Caller.setWriter, Caller.stepWriter, Caller.start, same] at here

end Cornus.Wire
