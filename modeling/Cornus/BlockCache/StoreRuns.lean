import Cornus.Lib.Run
import Cornus.BlockCache.Backend
import Cornus.BlockCache.Coherence

/-!
# Runs of store operations

A shelf holds a bucket and a reference file for every key.  Each operation takes
its data from the reference file, or changes it: fills read the file, writes and
resizes update it, a rename moves it.  A store is faithful to the shelf when
whatever it answers is what the reference file holds.
-/

namespace Cornus.BlockCache

open Lib Option Padded

/-- A store operation.  The data of a fill, the valid length of a written chunk
and the digests are those of the reference file. -/
inductive StoreOp (Key : Type) where
  | putHashed (key : Key) (idx : Nat)
  | putSub (key : Key) (idx subOff length : Nat)
  | writeChunk (key : Key) (idx chunkOff : Nat) (data : Bytes)
  | writeThrough (key : Key) (idx chunkOff : Nat) (data : Bytes)
  | drop (key : Key) (idx : Nat)
  | resize (key : Key) (newSize : Nat)
  | invalidate (key : Key)
  | rename (oldKey newKey : Key)

/-- The cached entries, and the files they are caches of. -/
structure Shelf (Key Entry : Type) where
  buckets : Key → Option Entry
  files : Key → Bytes

/-- Nothing is cached yet. -/
def Shelf.cold {Key Entry : Type} (files : Key → Bytes) : Shelf Key Entry :=
  { buckets := fun _ => none
    files }

section Model

variable {Key Hash Entry : Type} [DecidableEq Key] (chunk : ChunkSize) (file : Bytes)

/-- A write of `data` at `chunkOff` of chunk `idx`, as it is passed to the
store. -/
def chunkWrite (idx chunkOff : Nat) (data : Bytes) : ChunkWrite :=
  { chunkOff
    data
    chunkLen := min chunk.bytes ((fileWriteAt file (idx * chunk.bytes + chunkOff) data).len -
        idx * chunk.bytes) }

/-- The part of a chunk a fill of `length` bytes at `subOff` is given. -/
def subData (idx subOff length : Nat) : Bytes :=
  fileReadAt file (idx * chunk.bytes + subOff) length

/-- One entry and its file, replaced. -/
def Shelf.put (shelf : Shelf Key Entry) (key : Key) (bucket : Option Entry)
    (file : Bytes) : Shelf Key Entry :=
  { buckets := Function.update shelf.buckets key bucket
    files := Function.update shelf.files key file }

variable (store : Store Hash Entry) (hashChunk : Bytes → Hash)

/-- One operation.  Ranges stay within their chunk. -/
def storeStep (chunk : ChunkSize) (shelf : Shelf Key Entry) : StoreOp Key → Option (Shelf Key Entry)
  | .putHashed key idx =>
    let data := fileReadAt (shelf.files key) (idx * chunk.bytes) chunk.bytes
    some (shelf.put key (store.putHashed (shelf.buckets key) idx data (hashChunk data))
      (shelf.files key))
  | .putSub key idx subOff length =>
    if subOff < chunk.bytes ∧ subOff + length ≤ chunk.bytes then
      some (shelf.put key (store.putSub (shelf.buckets key) idx subOff
          (subData chunk (shelf.files key) idx subOff length)) (shelf.files key))
    else none
  | .writeChunk key idx chunkOff data =>
    if chunkOff + data.len ≤ chunk.bytes then
      let part := chunkWrite chunk (shelf.files key) idx chunkOff data
      let file :=
        fileWriteAt (shelf.files key) (idx * chunk.bytes + chunkOff) data
      some (shelf.put key (store.writeChunk (shelf.buckets key) idx chunkOff data part.chunkLen
          (hashChunk (file.slice (idx * chunk.bytes) part.chunkLen))) file)
    else none
  | .writeThrough key idx chunkOff data =>
    if chunkOff + data.len ≤ chunk.bytes then
      let part := chunkWrite chunk (shelf.files key) idx chunkOff data
      some (shelf.put key (store.writeThrough (shelf.buckets key) idx chunkOff data part.chunkLen)
        (fileWriteAt (shelf.files key) (idx * chunk.bytes + chunkOff) data))
    else none
  | .drop key idx =>
    some (shelf.put key (store.drop (shelf.buckets key) idx) (shelf.files key))
  | .resize key newSize =>
    some (shelf.put key (store.resize (shelf.buckets key) newSize)
      ((shelf.files key).resize newSize))
  | .invalidate key =>
    some (shelf.put key (store.invalidate (shelf.buckets key))
      (shelf.files key))
  | .rename oldKey newKey =>
    some
      { buckets := store.rename shelf.buckets oldKey newKey
        files :=
          if oldKey = newKey then shelf.files
          else Function.update (Function.update shelf.files newKey
            (shelf.files oldKey)) oldKey (Padded.blank 0) }

/-- Whatever the store answers is what the reference file holds. -/
def Faithful (chunk : ChunkSize) (shelf : Shelf Key Entry) : Prop :=
  ∀ key, Answers store hashChunk chunk (shelf.files key) (shelf.buckets key)

/-- Every run of allowed operations from a cold shelf is faithful. -/
def RunsFaithful (Key : Type) [DecidableEq Key] (store : Store Hash Entry)
    (hashChunk : Bytes → Hash) (chunk : ChunkSize)
    (allowed : Shelf Key Entry → StoreOp Key → Prop) : Prop :=
  ∀ files ops final,
    Along (storeStep store hashChunk chunk) allowed (Shelf.cold files) ops →
    run (storeStep store hashChunk chunk) (Shelf.cold files) ops = some final →
    Faithful store hashChunk chunk final

/-- The condition under which an operation keeps a store faithful.  Writes carry
data.  A partial `WriteChunk` finds its chunk readable as a whole or not cached; a fill or a
write-through marks no position that it neither supplies nor finds held; and a
rename of an uncached file does not hit a cached one. -/
def StoreOp.Safe (view : View Entry) (chunk : ChunkSize)
    (shelf : Shelf Key Entry) : StoreOp Key → Prop
  | .putSub key idx subOff length =>
    let data := subData chunk (shelf.files key) idx subOff length
    ∀ index, index < chunk.bytes → Touched subOff data.len index →
      ¬(subOff ≤ index ∧ index < subOff + data.len) →
      idx * chunk.bytes + index < (shelf.files key).len →
      view.Marked (shelf.buckets key) idx index
  | .writeChunk key idx chunkOff data =>
    let part := chunkWrite chunk (shelf.files key) idx chunkOff data
    0 < data.len ∧ (part.Full ∨
      (view.Whole (shelf.buckets key) idx ∧
        view.Ready (shelf.buckets key) idx (chunkOff + data.len)
          part.chunkLen) ∨ view.Vacant (shelf.buckets key) idx)
  | .writeThrough key idx chunkOff data =>
    0 < data.len ∧ ∀ index, index < chunk.bytes →
      ¬Exposed view chunk (shelf.buckets key)
        (chunkWrite chunk (shelf.files key) idx chunkOff data)
        (fileWriteAt (shelf.files key) (idx * chunk.bytes + chunkOff)
          data).len idx index
  | .rename oldKey newKey =>
    oldKey = newKey ∨ (shelf.buckets oldKey).isSome ∨
      shelf.buckets newKey = none
  | _ => True

end Model

/-! ## One operation -/

variable {idx chunkOff : Nat} (chunk : ChunkSize) (file : Bytes) {data : Bytes}

theorem chunkWrite_spec (nonempty : 0 < data.len) (fits : chunkOff + data.len ≤ chunk.bytes) :
    WriteSpec chunk file (fileWriteAt file (idx * chunk.bytes + chunkOff) data) idx
      (chunkWrite chunk file idx chunkOff data) := by
  have length := fileWriteAt_len file (idx * chunk.bytes + chunkOff) data
  rw [if_neg (by omega)] at length
  refine ⟨⟨?_, ?_, fileWriteAt_grows _ _ _, ?_⟩, nonempty, rfl, ?_⟩
  · intro index above below
    simp only [chunkWrite] at above below ⊢
    rw [fileWriteAt_get, if_pos (by omega)]
    congr 1
    omega
  · intro index _ outside
    simp only [chunkWrite] at outside
    rw [fileWriteAt_get, if_neg (by omega)]
  · intro index above below
    simp only [chunkWrite] at below
    omega
  · simp only [chunkWrite]
    omega

theorem subData_patch (idx subOff length : Nat) :
    View.Patch chunk file file idx subOff (subData chunk file idx subOff length) where
  inside := by
    intro index above below
    unfold subData at below ⊢
    rw [fileReadAt_get file (by omega)]
    congr 1
    omega
  outside := fun _ _ _ => rfl
  grows := Nat.le_refl _
  within := by
    intro index _ below
    rw [subData, fileReadAt_len] at below
    omega

section Steps

variable {Key Hash Entry : Type} {view : View Entry} {chunk : ChunkSize} {store : Store Hash Entry}

/-- Every entry is a cache of its file. -/
def Shelf.Coherent (view : View Entry) (chunk : ChunkSize) (shelf : Shelf Key Entry) : Prop :=
  ∀ key, view.Coherent chunk (shelf.files key) (shelf.buckets key)

theorem View.Coherent.of_write {before : Option Entry} (coherent : view.Coherent chunk old before)
    (fits : chunkOff + data.len ≤ chunk.bytes)
    (frame : view.Frame chunk before after idx) (here : view.BlockAgrees chunk
      (fileWriteAt old (idx * chunk.bytes + chunkOff) data) after idx fun _ => False) :
    view.Coherent chunk (fileWriteAt old (idx * chunk.bytes + chunkOff) data) after where
  sound := frame.sound
  block := by
    intro other
    by_cases same : other = idx
    · exact same ▸ here
    apply frame.agrees same
    apply (coherent.block other).of_file _ (fileWriteAt_grows _ _ _)
    intro index inChunk
    rw [fileWriteAt_get, if_neg (chunk.position_outside same inChunk fits)]

variable [DecidableEq Key] {shelf next : Shelf Key Entry}

theorem Shelf.Coherent.put (coherent : shelf.Coherent view chunk) (key : Key) {file : Bytes}
    (here : view.Coherent chunk file bucket) :
    (shelf.put key bucket file).Coherent view chunk := by
  intro other
  by_cases same : other = key
  · subst same
    simpa [Shelf.put] using here
  · simpa [Shelf.put, same] using coherent other

/-- A rename keeps agreement unless it leaves a cached file in place of an
uncached one. -/
theorem Shelf.Coherent.rename (lawful : view.Lawful hashChunk chunk store)
    (coherent : shelf.Coherent view chunk) {newKey : Key}
    (safe : oldKey = newKey ∨ (shelf.buckets oldKey).isSome ∨ shelf.buckets newKey = none)
    (taken : storeStep store hashChunk chunk shelf (.rename oldKey newKey) = some next) :
    next.Coherent view chunk := by
  simp only [storeStep, some.injEq] at taken
  subst taken
  by_cases same : oldKey = newKey
  · simpa [Shelf.Coherent, Store.rename, same] using coherent
  have vacated : view.Coherent chunk (blank 0) none := View.coherent_none lawful
  have ne : newKey ≠ oldKey := Ne.symm same
  intro key
  have elsewhere := coherent key
  have moved := coherent oldKey
  cases source : shelf.buckets oldKey with
  | none =>
    have free : shelf.buckets newKey = none := by
      simpa [same, source] using safe
    by_cases isOld : key = oldKey
    · subst isOld
      simpa [Store.rename, same, source] using vacated
    · by_cases isNew : key = newKey
      · subst isNew
        simpa [Store.rename, same, source, isOld, free] using (View.coherent_none lawful :
            view.Coherent chunk (shelf.files oldKey) none)
      · simpa [Store.rename, same, source, isOld, isNew] using elsewhere
  | some entry =>
    rw [source] at moved
    by_cases isOld : key = oldKey
    · subst isOld
      simpa [Store.rename, same, source] using vacated
    · by_cases isNew : key = newKey
      · subst isNew
        simpa [Store.rename, same, source, isOld] using moved
      · simpa [Store.rename, same, source, isOld, isNew] using elsewhere

/-- A safe operation keeps every entry coherent. -/
theorem storeStep_coherent (lawful : view.Lawful hashChunk chunk store)
    (coherent : shelf.Coherent view chunk) (safe : op.Safe view chunk shelf)
    (taken : storeStep store hashChunk chunk shelf op = some next) : next.Coherent view chunk := by
  cases op with
  | putHashed key idx =>
    simp only [storeStep, some.injEq] at taken
    subst taken
    apply coherent.put
    apply (coherent key).putHashed lawful
    · rw [fileReadAt_len]
      omega
    · intro index below
      exact fileReadAt_get _ below
    · rw [fileReadAt_len]
      omega
  | putSub key idx subOff length =>
    simp only [storeStep, ite_none_right_eq_some, some.injEq] at taken
    obtain ⟨⟨starts, fits⟩, rfl⟩ := taken
    apply coherent.put
    apply (coherent key).putSub lawful starts _ (subData_patch chunk _ idx subOff length) safe
    rw [subData, fileReadAt_len]
    omega
  | writeChunk key idx chunkOff data =>
    simp only [storeStep, ite_none_right_eq_some, some.injEq] at taken
    obtain ⟨fits, rfl⟩ := taken
    obtain ⟨nonempty, safe⟩ := safe
    apply coherent.put
    obtain ⟨frame, here, _⟩ := writeChunk_agrees lawful
      (coherent key).sound ((coherent key).block idx)
      (chunkWrite_spec chunk (shelf.files key) nonempty fits) (by
        rcases safe with full | ⟨whole, _⟩ | vacant
        · exact .inl full
        · exact .inr (.inl whole)
        · exact .inr (.inr vacant))
      (by
        intro whole notFull
        rcases safe with full | ⟨_, ready⟩ | vacant
        · exact absurd full notFull
        · exact ready
        · exact absurd (lawful.whole_marked whole)
            (lawful.vacant_marked (coherent key).sound vacant chunk.positive))
    exact (coherent key).of_write fits frame here
  | writeThrough key idx chunkOff data =>
    simp only [storeStep, ite_none_right_eq_some, some.injEq] at taken
    obtain ⟨fits, rfl⟩ := taken
    obtain ⟨nonempty, safe⟩ := safe
    apply coherent.put
    obtain ⟨frame, here, _⟩ := writeThrough_agrees lawful
      (coherent key).sound ((coherent key).block idx)
      (chunkWrite_spec chunk (shelf.files key) nonempty fits)
    apply (coherent key).of_write fits frame
    apply here.mono
    intro index inChunk exposed
    exact safe index inChunk exposed.1
  | drop key idx =>
    simp only [storeStep, some.injEq] at taken
    subst taken
    exact coherent.put key ((coherent key).drop lawful idx)
  | resize key newSize =>
    simp only [storeStep, some.injEq] at taken
    subst taken
    exact coherent.put key ((coherent key).resize lawful newSize)
  | invalidate key =>
    simp only [storeStep, some.injEq] at taken
    subst taken
    exact coherent.put key (View.coherent_none lawful)
  | rename oldKey newKey => exact coherent.rename lawful safe taken

end Steps

/-! ## Runs -/

/-- Runs of safe operations are faithful on both stores. -/
theorem runsFaithful_of_safe {Key Hash : Type} [DecidableEq Key]
    [Inhabited Hash] [DecidableEq Hash] (backend : Backend)
    (hashChunk : Bytes → Hash) (chunk : ChunkSize) :
    RunsFaithful Key (backend.store hashChunk chunk) hashChunk chunk
      (StoreOp.Safe (backend.view Hash chunk) chunk) := by
  intro files ops final along reached key
  have lawful := backend.lawful hashChunk chunk
  apply View.Coherent.answers lawful
  suffices coherent : final.Coherent (backend.view Hash chunk) chunk from coherent key
  apply run_invariant _ _ along reached
  · intro shelf op next coherent safe taken
    exact storeStep_coherent lawful coherent safe taken
  · intro key
    exact View.coherent_none lawful

def twoPages : ChunkSize :=
  { bytes := 8192
    positive := by decide
    aligned := by decide }

/-- The chunk is filled in its first sub-block only, partly overwritten, and
filled in its second. -/
def subFilledRun : List (StoreOp Unit) :=
  [.putSub () 0 0 4096, .writeChunk () 0 0 (Padded.replicate 10 8), .putSub () 0 4096 4096]

theorem subFilledRun_answers_stale (backend : Backend) :
    ((run (storeStep (backend.store (id : Bytes → Bytes) twoPages) id twoPages)
      (Shelf.cold fun _ => replicate 8192 1) subFilledRun).bind
        fun shelf => ((backend.store (id : Bytes → Bytes) twoPages).getSub
          (shelf.buckets ()) 0 0 10).map fun data =>
            (data.len, data.get 0 == (shelf.files ()).get 0)) = some (10, false) := by
  cases backend with
  | mem => decide +kernel
  | disk => decide +kernel

theorem subFilled_not_runsFaithful :
    (¬RunsFaithful Unit (Backend.mem.store (id : Bytes → Bytes) twoPages) id
      twoPages fun _ _ => True) ∧
    ¬RunsFaithful Unit (Backend.disk.store (id : Bytes → Bytes) twoPages) id
      twoPages fun _ _ => True := by
  have refuted : ∀ backend : Backend, ¬RunsFaithful Unit
      (backend.store (id : Bytes → Bytes) twoPages) id twoPages
      fun _ _ => True := by
    intro backend claim
    obtain ⟨final, reached, answered⟩ := bind_eq_some_iff.mp (subFilledRun_answers_stale backend)
    obtain ⟨data, found, seen⟩ := map_eq_some_iff.mp answered
    simp only [Prod.mk.injEq, beq_eq_false_iff_ne] at seen
    have faithful := claim _ subFilledRun final (Along.of_events fun _ _ => trivial) reached
    have same := (faithful ()).getSub 0 0 10 data (by decide) found 0
      (by omega)
    exact seen.2 (by simpa using same)
  exact ⟨refuted .mem, refuted .disk⟩

/-- A whole chunk is partly overwritten and its file renamed. -/
def renamedRun : List (StoreOp Bool) :=
  [.putHashed false 0, .writeChunk false 0 5 (Padded.replicate 10 8),
    .rename false true]

theorem renamedRun_faithful :
    ∃ final, run (storeStep (Backend.disk.store (id : Bytes → Bytes) twoPages)
        id twoPages) (Shelf.cold fun _ => Padded.replicate 100 1) renamedRun = some final ∧
      Faithful (Backend.disk.store (id : Bytes → Bytes) twoPages) id twoPages final := by
  refine ⟨_, rfl, ?_⟩
  apply runsFaithful_of_safe .disk id twoPages (fun _ => replicate 100 1) renamedRun _ _ rfl
  refine ⟨trivial, ?_⟩
  intro filled taken
  obtain rfl := Option.some.inj taken
  refine ⟨⟨by decide, .inr (.inl ⟨rfl, ?_⟩)⟩, ?_⟩
  · exact .inr (by decide +kernel)
  · intro written taken
    obtain rfl := Option.some.inj taken
    refine ⟨.inr (.inl ?_), fun _ _ => trivial⟩
    decide +kernel

end Cornus.BlockCache
