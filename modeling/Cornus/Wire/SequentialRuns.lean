import Cornus.Wire.SequentialCoherence

/-!
# Runs of requests on one path

From a freshly attached mount, every run whose writes meet the condition of
their scheme answers each read with the bytes of the caller's file.  Without
the condition both results fail, and the runs that show it are short.
-/

namespace Cornus.Wire

open Padded Mount

open BlockCache Lib Option

def mountOf {Hash : Type} [Inhabited Hash] [DecidableEq Hash]
    (backend : Backend) (hashChunk : Bytes → Hash) (chunk : ChunkSize)
    (features : Features) : Mount Hash (backend.Entry Hash) :=
  { store := backend.store hashChunk chunk, hashChunk, chunk, features }

variable {Hash Entry : Type} {view : View Entry} {mount : Mount Hash Entry}

/-- A write of at most one chunk, or another request. -/
def Bounded (chunk : ChunkSize) : Request → Prop
  | .writeAt _ _ data _ => data.len ≤ chunk.bytes
  | _ => True

variable (mount)

/-- A write may be made: it is bounded, the merges of the classic scheme are
readable, and under demand-fill the positions it exposes are settled. -/
structure Mount.AllowsWrite [DecidableEq Hash] (view : View Entry) (session : Session Entry)
    (off : Nat) (data : Bytes) : Prop where
  fits : data.len ≤ mount.chunk.bytes
  ready : mount.features.deferHash = false → mount.features.subBlockHash = false →
    WriteReady mount view session off data
  safe : mount.features.subBlockFill = true →
    WriteSafe mount view session off data ∧ WriteTells mount view session off data

/-- A request in range, and a write that may be made. -/
def Mount.Allowed [DecidableEq Hash] (view : View Entry) (endpoint : Endpoint Entry)
    (request : Request) : Prop :=
  endpoint.session.InRange mount.chunk request.reach ∧
    match request with
    | .writeAt _ off data _ => mount.AllowsWrite view endpoint.session off data
    | _ => True

/-- What the requests on one path keep.  The size registry is right from the
first open on. -/
structure Mount.Invariant (view : View Entry) (endpoint : Endpoint Entry) : Prop where
  good : mount.Good view endpoint.session
  sized : ∀ handle, endpoint.opened handle = true →
    endpoint.session.size = endpoint.session.file.len

variable {mount}

theorem Mount.Invariant.fresh (lawful : mount.Lawful view)
    (file : Bytes) : mount.Invariant view (Endpoint.fresh file) where
  good :=
    { coherent := View.coherent_none lawful
      fresh := by
        intro b seq found
        cases found
      uniform := fun _ idx => .inr (lawful.vacant_none idx) }
  sized := by
    intro handle opened
    cases opened

variable [Inhabited Hash] [DecidableEq Hash]

/-- After any run of allowed requests, an allowed read on an open handle delivers
the caller's bytes. -/
def Mount.ReadsMatch (mount : Mount Hash Entry)
    (allowed : Endpoint Entry → Request → Prop) : Prop :=
  ∀ file requests final handle off length,
    Along mount.step allowed (Endpoint.fresh file) requests →
    run mount.step (Endpoint.fresh file) requests = some final →
    final.opened handle = true → allowed final (.readAt handle off length) →
    (mount.readAt final.session off length).2.data = fileReadAt final.session.file off length

/-- One allowed request keeps the cache coherent. -/
theorem step_invariant (lawful : mount.Lawful view)
    (holds : mount.Invariant view endpoint)
    (allowed : mount.Allowed view endpoint request)
    (taken : mount.step endpoint request = some next) : mount.Invariant view next := by
  cases request with
  | openFile handle mtimeNs =>
    simp only [step, some.injEq] at taken
    subst taken
    refine ⟨openFile_good lawful holds.good mtimeNs, ?_⟩
    intro _ _
    rfl
  | readAt handle off length =>
    simp only [step] at taken
    split_ifs at taken with opened
    simp only [some.injEq] at taken
    subst taken
    obtain ⟨good, refills, _⟩ := readAt_good lawful holds.good
      (holds.sized handle opened) allowed.1.reach_lt
    refine ⟨good, ?_⟩
    intro other open_
    simp only [refills.size, refills.file]
    exact holds.sized other open_
  | writeAt handle off data mtimeNs =>
    simp only [step] at taken
    split_ifs at taken with opened
    simp only [some.injEq] at taken
    subst taken
    obtain ⟨_, fits, ready, safe⟩ := allowed
    obtain ⟨good, _, size⟩ := writeAt_good lawful holds.good fits ready safe mtimeNs
    exact ⟨good, fun _ _ => size⟩
  | setAttr handle size =>
    simp only [step, some.injEq] at taken
    subst taken
    refine ⟨setAttr_good lawful holds.good size, ?_⟩
    intro other opened
    cases size with
    | none => exact holds.sized other opened
    | some newSize => rfl
  | fsync handle order =>
    simp only [step] at taken
    split_ifs at taken with opened
    simp only [some.injEq] at taken
    subst taken
    obtain ⟨good, file, size⟩ := fsync_good lawful holds.good order
    refine ⟨good, ?_⟩
    intro other open_
    simp only [file, size]
    exact holds.sized other open_

theorem readsMatch_of_allowed (lawful : mount.Lawful view) :
    mount.ReadsMatch (mount.Allowed view) := by
  intro file requests final handle off length along reached opened allowed
  have holds : mount.Invariant view final :=
    run_invariant (fun _ _ _ held allowed taken =>
        step_invariant lawful held allowed taken)
      (Mount.Invariant.fresh lawful file) along reached
  exact (readAt_good lawful holds.good (holds.sized handle opened) allowed.1.reach_lt).2.2

/-! ## Without demand-fill -/

variable (mount)

/-- The request is in range.  In the classic scheme, every cached block that a
write has to be merged into can be read up to its new valid end. -/
def Mount.MergesReadable (view : View Entry) (endpoint : Endpoint Entry)
    (request : Request) : Prop :=
  endpoint.session.InRange mount.chunk request.reach ∧
    match request with
    | .writeAt _ off data _ =>
      data.len ≤ mount.chunk.bytes ∧
        (mount.features.deferHash = false →
          mount.features.subBlockHash = false → WriteReady mount view endpoint.session off data)
    | _ => True

/-- Without demand-fill reads match if merges can be read. -/
theorem readsMatch_withoutFill (backend : Backend)
    (hashChunk : Bytes → Hash) (chunk : ChunkSize) (features : Features)
    (noFill : features.subBlockFill = false) : (mountOf backend hashChunk chunk features).ReadsMatch
      ((mountOf backend hashChunk chunk features).MergesReadable (backend.view Hash chunk)) := by
  intro file requests final handle off length along reached opened readable
  apply readsMatch_of_allowed (backend.lawful hashChunk chunk) file requests final handle off
    length _ reached opened ⟨readable.1, trivial⟩
  apply along.mono
  rintro endpoint request ⟨inRange, readable⟩
  refine ⟨inRange, ?_⟩
  cases request with
  | writeAt handle off data mtimeNs =>
    refine ⟨readable.1, readable.2, ?_⟩
    intro fill
    rw [mountOf, noFill] at fill
    cases fill
  | openFile | readAt | setAttr | fsync => trivial

variable (backend : Backend)

abbrev classicMount : Mount Bytes (backend.Entry Bytes) :=
  mountOf backend id onePage classicFeatures

/-- A file of 100 bytes is cached and grows by a write to its second block, so
that the first block's stored bytes end before its valid end.  The merge of the
next write to the first block then fails and leaves the block in place. -/
def shortMergeRun : List Request :=
  [.openFile 0 1, .readAt 0 0 10, .writeAt 0 4101 (Padded.replicate 5 7) 2,
    .writeAt 0 0 (Padded.replicate 10 8) 3, .readAt 0 4096 10]

theorem classicDisk_not_readsMatch : ¬(mountOf .disk (id : Bytes → Bytes) onePage
      classicFeatures).ReadsMatch (fun _ => Bounded onePage) := by
  intro claim
  have observed : (run (classicMount .disk).step (Endpoint.fresh (replicate 100 1))
      shortMergeRun).map (fun final => (final.opened 0, ((classicMount .disk).readAt
          final.session 0 10).2.data.get 0, (fileReadAt final.session.file 0 10).get 0)) =
      some (true, 1, 8) := by decide +kernel
  obtain ⟨final, reached, seen⟩ := map_eq_some_iff.mp observed
  simp only [Prod.mk.injEq] at seen
  obtain ⟨opened, cached, stored⟩ := seen
  have bounded : ∀ request ∈ shortMergeRun, Bounded onePage request := by
    simp [shortMergeRun, Bounded, onePage, replicate]
  rw [claim _ _ final 0 0 10 (Along.of_events bounded) reached opened trivial, stored] at cached
  exact absurd cached (by decide)

/-- A cached block of 100 bytes takes a write to its first ten. -/
def mergeRun : List Request :=
  [.openFile 0 1, .readAt 0 0 10, .writeAt 0 0 (Padded.replicate 10 8) 3]

theorem classicDisk_reads_merged : ∃ final, run (mountOf .disk (id : Bytes → Bytes) onePage
        classicFeatures).step (Endpoint.fresh (Padded.replicate 100 1)) mergeRun = some final ∧
      ((mountOf .disk (id : Bytes → Bytes) onePage classicFeatures).readAt
        final.session 0 20).2.data = fileReadAt final.session.file 0 20 := by
  refine ⟨_, rfl, ?_⟩
  apply readsMatch_withoutFill .disk (id : Bytes → Bytes) onePage
    classicFeatures rfl (replicate 100 1) mergeRun _ 0 0 20 _ rfl rfl
    ⟨by decide +kernel, trivial⟩
  refine ⟨⟨by decide +kernel, trivial⟩, ?_⟩
  intro opened taken
  obtain rfl := some.inj taken
  refine ⟨⟨by decide +kernel, trivial⟩, ?_⟩
  intro cached taken
  obtain rfl := some.inj taken
  refine ⟨⟨by decide +kernel, by decide, ?_⟩, fun _ _ => trivial⟩
  intro _ _ b hit _ _
  have first : b = 0 := by
    have overlap := misses_eq_false_iff.mp hit
    simp only [mountOf, onePage, replicate] at overlap
    omega
  subst first
  exact .inr (by decide +kernel)

/-! ## With demand-fill -/

/-- The request is in range.  Every position a write exposes is settled by a digest
of its reply, and no two byte strings compared for the write collide. -/
def Mount.ExposureSettled (view : View Entry) (endpoint : Endpoint Entry)
    (request : Request) : Prop :=
  endpoint.session.InRange mount.chunk request.reach ∧
    match request with
    | .writeAt _ off data _ =>
      data.len ≤ mount.chunk.bytes ∧ WriteSafe mount view endpoint.session off data ∧
        WriteTells mount view endpoint.session off data
    | _ => True

/-- With demand-fill reads match if what a write exposes is settled. -/
theorem readsMatch_withFill (backend : Backend) (hashChunk : Bytes → Hash) (chunk : ChunkSize)
    (features : Features) (fill : features.subBlockFill = true) :
    (mountOf backend hashChunk chunk features).ReadsMatch
      ((mountOf backend hashChunk chunk features).ExposureSettled (backend.view Hash chunk)) := by
  intro file requests final handle off length along reached opened settled
  apply readsMatch_of_allowed (backend.lawful hashChunk chunk) file requests final handle off
    length _ reached opened ⟨settled.1, trivial⟩
  apply along.mono
  rintro endpoint request ⟨inRange, settled⟩
  refine ⟨inRange, ?_⟩
  cases request with
  | writeAt handle off data mtimeNs =>
    refine ⟨settled.1, ?_, fun _ => settled.2⟩
    intro _ wholeBlock
    rw [mountOf, features.fillHashes fill] at wholeBlock
    cases wholeBlock
  | openFile | readAt | setAttr | fsync => trivial

def fourPages : ChunkSize :=
  { bytes := 16384
    positive := by decide
    aligned := by decide }

def fillFeatures : Features :=
  { subBlockHash := true
    deferHash := false
    subBlockFill := true
    fillHashes := fun _ => rfl }

/-- Sub-block 1 is filled and a write crosses from it into sub-block 2, whose
digest is not compared because the stored bytes end inside it.  The fill of
sub-block 3 then extends the stored bytes over the gap. -/
def edgeRun : List Request :=
  [.openFile 0 1, .readAt 0 4096 10, .writeAt 0 8000 (Padded.replicate 200 8) 2, .readAt 0 12288 10]

theorem edgeRun_reads_gap : (run (mountOf backend (id : Bytes → Bytes) fourPages fillFeatures).step
      (Endpoint.fresh (replicate 16384 1)) edgeRun).map (fun final =>
        (final.opened 0, ((mountOf backend (id : Bytes → Bytes) fourPages
            fillFeatures).readAt final.session 8300 10).2.data.get 0,
          (fileReadAt final.session.file 8300 10).get 0)) = some (true, 0, 1) := by
  cases backend with
  | mem => decide +kernel
  | disk => decide +kernel

theorem demandFill_not_readsMatch : (¬(mountOf .mem (id : Bytes → Bytes) fourPages
      fillFeatures).ReadsMatch (fun _ => Bounded fourPages)) ∧
    ¬(mountOf .disk (id : Bytes → Bytes) fourPages
      fillFeatures).ReadsMatch (fun _ => Bounded fourPages) := by
  have bounded : ∀ request ∈ edgeRun, Bounded fourPages request := by
    simp [edgeRun, Bounded, fourPages, replicate]
  have refuted : ∀ backend : Backend, ¬(mountOf backend (id : Bytes → Bytes) fourPages
        fillFeatures).ReadsMatch (fun _ => Bounded fourPages) := by
    intro backend claim
    obtain ⟨final, reached, seen⟩ := map_eq_some_iff.mp (edgeRun_reads_gap backend)
    simp only [Prod.mk.injEq] at seen
    obtain ⟨opened, cached, stored⟩ := seen
    rw [claim _ _ final 0 8300 10 (Along.of_events bounded) reached opened trivial, stored]
      at cached
    exact absurd cached (by decide)
  exact ⟨refuted .mem, refuted .disk⟩

def filledRun : List Request :=
  [.openFile 0 1, .readAt 0 4096 10, .writeAt 0 4100 (Padded.replicate 10 8) 2]

theorem demandFill_reads_filled : ∃ final, run (mountOf .disk (id : Bytes → Bytes) fourPages
        fillFeatures).step (Endpoint.fresh (Padded.replicate 16384 1)) filledRun = some final ∧
      ((mountOf .disk (id : Bytes → Bytes) fourPages fillFeatures).readAt
        final.session 4090 40).2.data = fileReadAt final.session.file 4090 40 := by
  refine ⟨_, rfl, ?_⟩
  apply readsMatch_withFill .disk (id : Bytes → Bytes) fourPages
    fillFeatures rfl (replicate 16384 1) filledRun _ 0 4090 40 _ rfl rfl
    ⟨by decide +kernel, trivial⟩
  refine ⟨⟨by decide +kernel, trivial⟩, ?_⟩
  intro opened taken
  obtain rfl := some.inj taken
  refine ⟨⟨by decide +kernel, trivial⟩, ?_⟩
  intro cached taken
  obtain rfl := some.inj taken
  refine ⟨⟨by decide +kernel, by decide, ?_,
    writeTells_of_injective (fun _ _ same => same) rfl _ _ _⟩, fun _ _ => trivial⟩
  intro b index hit _ exposed
  have first : b = 0 := by
    have overlap := misses_eq_false_iff.mp hit
    simp only [mountOf, fourPages, replicate] at overlap
    omega
  subst first
  have touched : 1 ≤ index / subBlockSize ∧ index / subBlockSize ≤ 1 := exposed.touched
  have sub : index / subBlockSize = 1 := by omega
  exfalso
  apply exposed.unmarked
  right
  rw [sub]
  decide +kernel

end Cornus.Wire
