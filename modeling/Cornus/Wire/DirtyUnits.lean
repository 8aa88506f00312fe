import Cornus.Lib.Run
import Cornus.Wire.WriteCoherence
import Cornus.Wire.WriteUnits

/-!
# Deferred digests

With deferred hashing the caller's server only records which units a write
touched and reports their digests with the next fsync.  The ledger below keeps,
beside the state of the server, every unit of which bytes reached the file until
an fsync reply has carried its digest or has found it past the end of the file.
Fsync first waits for the writes in flight, so requests are taken one at a
time.

Offsets are natural numbers; they are those of the source while the ends of
writes and files stay a chunk below 2^63 (`forEachWriteUnit_eq64`,
`dirtyUnit_eq64`).
-/

namespace Cornus.Wire

open BlockCache Lib Function List Nat

/-! ## Units of a write -/

section Units

/-- The offset of the coherence unit that holds a byte. -/
def unitStart (chunk : ChunkSize) (features : Features) (byte : Nat) : Nat :=
  byte / chunk.bytes * chunk.bytes +
    byte % chunk.bytes / unitSize chunk features * unitSize chunk features

theorem unitSize_pos : 0 < unitSize chunk features :=
  @UnitSizes.unit_pos (serverSizes chunk features)

variable {off n size : Nat} {dirty : List Nat}

theorem unitStart_mem_forEachWriteUnit (above : off ≤ byte) (below : byte < off + n)
    (inFile : byte < size) : ∃ unit ∈ forEachWriteUnit chunk features off n size,
      unit.1 * chunk.bytes + unit.2.1 = unitStart chunk features byte := by
  obtain ⟨so, rfl, meets, _⟩ := @UnitSizes.meets_of_byte (serverSizes chunk features) off n size
    byte above (Nat.lt_min.mpr ⟨below, inFile⟩)
  rw [forEachWriteUnit_eq]
  exact ⟨_, UnitSizes.mem_forEachUnit_iff.mpr ⟨_, _, meets, rfl⟩, rfl⟩

theorem mem_insertDirty : other ∈ insertDirty dirty unit ↔ other ∈ dirty ∨ other = unit := by
  unfold insertDirty
  split_ifs with known
  · constructor
    · exact .inl
    · rintro (before | rfl)
      · exact before
      · exact known
  · rw [mem_append, mem_singleton]

theorem mem_markDirty : other ∈ markDirty chunk features dirty off n size ↔ other ∈ dirty ∨
        ∃ unit ∈ forEachWriteUnit chunk features off n size,
          other = unit.1 * chunk.bytes + unit.2.1 := by
  unfold markDirty
  generalize forEachWriteUnit chunk features off n size = units
  induction units generalizing dirty with
  | nil => simp
  | cons unit units ih =>
    rw [foldl_cons, ih, mem_insertDirty]
    simp only [mem_cons, exists_eq_or_imp, or_assoc]

end Units

/-! ## Draining -/

section Drain

variable {Hash Errno : Type} {size : Nat}

theorem dirtyUnit_of_lt (inFile : unit < size) : ∃ length, dirtyUnit chunk features size unit =
      some (unit / chunk.bytes, unit - unit / chunk.bytes * chunk.bytes, length) := by
  have positive := chunk.positive
  have whole := div_add_mod unit chunk.bytes
  have inBlock := mod_lt unit positive
  have unitPositive : 0 < unitSize chunk features := unitSize_pos
  rw [mul_comm] at whole
  refine ⟨min (unit + unitSize chunk features)
    (blockValidEnd chunk (unit / chunk.bytes) size) - unit, ?_⟩
  unfold dirtyUnit
  rw [if_neg]
  unfold blockValidEnd
  omega

/-- The absolute offset of a reported unit. -/
def UnitHash.offset (chunk : ChunkSize) (unit : UnitHash Hash) : Nat :=
  unit.blockIdx * chunk.bytes + unit.subOff

/-- Every recorded unit inside the file can be read. -/
def readsSucceed (chunk : ChunkSize) (features : Features) (size : Nat)
    (hash : Nat → Nat → Except Errno Hash) (offs : List Nat) : Bool :=
  offs.all fun unit =>
    match dirtyUnit chunk features size unit with
    | none => true
    | some (_, _, length) => (hash unit length).isOk

theorem hashDirty_ok {hash : Nat → Nat → Except Errno Hash}
    (reads : readsSucceed chunk features size hash offs) :
    ∃ units, hashDirty chunk features size hash offs = .ok units ∧ units.length ≤ offs.length ∧
      ∀ off ∈ offs, off < size → ∃ unit ∈ units, unit.offset chunk = off ∧
        hash off unit.subLen = .ok unit.hash := by
  induction offs with
  | nil => exact ⟨[], rfl, Nat.le_refl _, fun _ mem => by cases mem⟩
  | cons first offs ih =>
    simp only [readsSucceed, all_cons, Bool.and_eq_true] at reads
    obtain ⟨units, done, short, complete⟩ := ih reads.2
    by_cases inFile : first < size
    · obtain ⟨length, found⟩ : ∃ length,
          dirtyUnit chunk features size first = some (first / chunk.bytes,
            first - first / chunk.bytes * chunk.bytes, length) :=
        dirtyUnit_of_lt inFile
      rw [found] at reads
      obtain ⟨digest, read⟩ : ∃ digest, hash first length = .ok digest := by
        cases outcome : hash first length with
        | error code => simp [outcome, Except.isOk, Except.toBool] at reads
        | ok digest => exact ⟨digest, rfl⟩
      refine ⟨_, by simp only [hashDirty, found, read, done]; rfl, ?_, ?_⟩
      · simpa using short
      · intro off mem below
        rcases mem_cons.mp mem with rfl | later
        · refine ⟨_, mem_cons_self, ?_, read⟩
          exact add_sub_of_le (div_mul_le_self _ _)
        · obtain ⟨unit, among, facts⟩ := complete off later below
          exact ⟨unit, mem_cons_of_mem _ among, facts⟩
    · have skipped : dirtyUnit chunk features size first = none := by
        unfold dirtyUnit
        rw [if_pos (.inl (Nat.le_of_not_lt inFile))]
      refine ⟨units, by simp only [hashDirty, skipped, done], ?_, ?_⟩
      · simp only [length_cons]
        omega
      · intro off mem below
        rcases mem_cons.mp mem with rfl | later
        · exact absurd below inFile
        · exact complete off later below

theorem splitFrames_flatten {α : Type} {units : List α} (positive : 0 < size)
    (enough : units.length ≤ fuel) : (splitFrames size fuel units).flatten = units := by
  induction fuel generalizing units with
  | zero =>
    rw [eq_nil_of_length_eq_zero (le_zero.mp enough)]
    rfl
  | succ fuel ih =>
    cases units with
    | nil => rfl
    | cons first rest =>
      rw [splitFrames, flatten_cons, ih, take_append_drop]
      · simp only [length_drop, length_cons] at enough ⊢
        omega
      · exact fun empty => by cases empty

theorem length_splitFrames_le {α : Type} {units frame : List α}
    (mem : frame ∈ splitFrames size fuel units) :
    frame.length ≤ size ∧ frame.length ≤ units.length := by
  induction fuel generalizing units with
  | zero => cases mem
  | succ fuel ih =>
    cases units with
    | nil => cases mem
    | cons first rest =>
      rw [splitFrames] at mem
      · rcases mem_cons.mp mem with rfl | later
        · rw [length_take]
          exact ⟨Nat.min_le_left _ _, Nat.min_le_right _ _⟩
        · obtain ⟨bound, short⟩ := ih later
          rw [length_drop] at short
          exact ⟨bound, by omega⟩
      · exact fun empty => by cases empty

theorem fsyncFrames_flatten {units : List (UnitHash Hash)}
    (few : maxPer chunk < 2 ^ 16 ∨ units.length < 2 ^ 16) :
    (fsyncFrames chunk units).flatten = units := by
  unfold fsyncFrames
  split_ifs with empty
  · rw [isEmpty_iff.mp empty]
    rfl
  · have whole : ∀ frame ∈ splitFrames (maxPer chunk) units.length units,
        putUnitHashes frame = frame := by
      intro frame mem
      obtain ⟨bound, short⟩ := length_splitFrames_le mem
      unfold putUnitHashes
      rw [mod_eq_of_lt (by omega), take_length]
    rw [map_congr_left whole, map_id']
    exact splitFrames_flatten (by unfold maxPer; omega) (Nat.le_refl _)

end Drain

/-! ## The server and its ledger -/

/-- An open handle: the path its sequence and dirty set are kept under, and the
file it refers to. -/
structure BsHandle where
  rel : String
  file : Nat
deriving DecidableEq

/-- The part of the server that deferred hashing reads and writes.  `owed` lists
the units of which bytes reached a file and that no fsync reply has settled. -/
structure DeferServer where
  handles : Nat → Option BsHandle
  size : Nat → Nat
  dirty : String → List Nat
  owed : List (BsHandle × Nat)

/-- A request, with the outcomes of the file operations it makes; `order` is
the order in which the dirty set is ranged.  Sizes also change on their own. -/
inductive DeferEvent (Errno Hash : Type) where
  | write (h off n : Nat) (writeErr statErr : Option Errno)
  | fsync (h : Nat) (syncErr statErr : Option Errno)
      (hash : Nat → Nat → Except Errno Hash) (order : List Nat)
  | resize (file size : Nat)

namespace DeferServer

variable (handles : Nat → Option BsHandle) (size : Nat → Nat)

/-- Nothing has been written yet. -/
def start : DeferServer :=
  { handles
    size
    dirty := fun _ => []
    owed := [] }

variable {Hash Errno : Type} (chunk : ChunkSize) (features : Features) (server : DeferServer)

/-- `handleWrite`: `n` bytes reached the file, whatever the reply is.  A write that
is answered with an error is not recorded. -/
def handleWrite (h off n : Nat) (writeErr statErr : Option Errno) : DeferServer :=
  match server.handles h with
  | none => server
  | some hn =>
    let size := if n = 0 then server.size hn.file
      else max (server.size hn.file) (off + n)
    let written := { server with
      size := update server.size hn.file size
      owed := if features.deferHash then
          (List.range' off n).map (fun byte => (hn, unitStart chunk features byte)) ++ server.owed
        else server.owed }
    if writeErr.isSome || statErr.isSome then written
    else if features.deferHash then
      { written with
        dirty := update server.dirty hn.rel
          (markDirty chunk features (server.dirty hn.rel) off n size) }
    else written

/-- A unit is settled by a reply that carries its digest or finds it past the
end of the file. -/
def settled (hn : BsHandle) (size : Nat) (frames : List (List (UnitHash Hash)))
    (entry : BsHandle × Nat) : Bool :=
  decide (entry.1 = hn) && (decide (size ≤ entry.2) ||
      decide (entry.2 ∈ frames.flatten.map (UnitHash.offset chunk)))

/-- `handleFSync`.  The set is removed before anything is hashed. -/
def handleFSync (h : Nat) (syncErr statErr : Option Errno) (hash : Nat → Nat → Except Errno Hash)
    (order : List Nat) : Option DeferServer :=
  match server.handles h with
  | none => some server
  | some hn =>
    if syncErr.isSome || !features.deferHash then some server
    else if order.isPerm (server.dirty hn.rel) then
      let drained := { server with dirty := update server.dirty hn.rel [] }
      let stat := match statErr with
        | none => .ok (server.size hn.file)
        | some code => .error code
      match drainDirtyUnits chunk features stat hash order with
      | .error _ => some drained
      | .ok units => some { drained with
          owed := server.owed.filter fun entry =>
            !settled chunk hn (server.size hn.file) (fsyncFrames chunk units) entry }
    else none

/-- The server after an event; an order that is not one of the set is refused. -/
def step : DeferEvent Errno Hash → Option DeferServer
  | .write h off n writeErr statErr =>
    some (server.handleWrite chunk features h off n writeErr statErr)
  | .fsync h syncErr statErr hash order =>
    server.handleFSync chunk features h syncErr statErr hash order
  | .resize file size =>
    some { server with size := update server.size file size }

/-- Every unit that is owed is recorded for the next fsync, unless it lies past
the end of its file. -/
def NoneLost : Prop :=
  ∀ hn unit, (hn, unit) ∈ server.owed → unit ∈ server.dirty hn.rel ∨ server.size hn.file ≤ unit

/-- A write of which bytes reached the file is answered with success.  An fsync that
gets past the file's own fsync with units recorded can stat the file and read
every recorded unit, and its frames hold fewer than 65536 units.  The ends of
writes and files stay a chunk below 2^63. -/
def Reportable : DeferEvent Errno Hash → Prop
  | .write _ off n writeErr statErr =>
    (n = 0 ∨ writeErr.isNone = true ∧ statErr.isNone = true) ∧ off + n + chunk.bytes ≤ 2 ^ 63
  | .fsync h syncErr statErr hash _ =>
    match server.handles h with
    | none => True
    | some hn =>
      syncErr.isSome = true ∨ server.dirty hn.rel = [] ∨
        statErr.isNone = true ∧ server.size hn.file + chunk.bytes ≤ 2 ^ 63 ∧
          readsSucceed chunk features (server.size hn.file) hash (server.dirty hn.rel) = true ∧
          (maxPer chunk < 2 ^ 16 ∨ (server.dirty hn.rel).length < 2 ^ 16)
  | .resize _ size => size + chunk.bytes ≤ 2 ^ 63

/-- Handles of one path are open on one file. -/
def OneFile : Prop :=
  ∀ h other hn found, handles h = some hn → handles other = some found →
    hn.rel = found.rel → hn.file = found.file

/-- In every run of allowed events no unit is lost. -/
def NeverLost (Errno Hash : Type) (allowed : DeferServer → DeferEvent Errno Hash → Prop)
    (handles : Nat → Option BsHandle) (size : Nat → Nat) : Prop :=
  ∀ events final, Along (step chunk features) allowed (start handles size)
      events →
    run (step chunk features) (start handles size) events = some final →
      final.NoneLost

/-! ## Runs in which every fsync can report -/

/-- What such runs keep: the table of handles, and every owed unit in the set of
its path. -/
structure Kept : Prop where
  table : server.handles = handles
  recorded : ∀ hn unit, (hn, unit) ∈ server.owed →
    (∃ h, handles h = some hn) ∧ unit ∈ server.dirty hn.rel

variable {chunk features} {handles : Nat → Option BsHandle}

theorem kept_start : Kept handles (start handles size) where
  table := rfl
  recorded := fun _ _ mem => by cases mem

variable {server : DeferServer} {hash : Nat → Nat → Except Errno Hash}

theorem Kept.noneLost (kept : Kept handles server) : server.NoneLost :=
  fun hn unit mem => .inl (kept.recorded hn unit mem).2

theorem Kept.handleWrite (kept : Kept handles server)
    (reportable : server.Reportable chunk features
      (.write h off n writeErr statErr : DeferEvent Errno Hash)) :
    Kept handles (server.handleWrite chunk features h off n writeErr statErr) := by
  unfold DeferServer.handleWrite
  cases found : server.handles h with
  | none => exact kept
  | some hn =>
    simp only
    generalize sized : (if n = 0 then server.size hn.file
      else max (server.size hn.file) (off + n)) = size
    split_ifs with failed defer
    · rcases reportable.1 with rfl | ⟨written, stated⟩
      · exact ⟨kept.table, kept.recorded⟩
      · simp [Option.isNone_iff_eq_none.mp written, Option.isNone_iff_eq_none.mp stated] at failed
    · exact ⟨kept.table, kept.recorded⟩
    · refine ⟨kept.table, ?_⟩
      intro other unit mem
      rcases mem_append.mp mem with new | before
      · obtain ⟨byte, range, pair⟩ := mem_map.mp new
        cases pair
        obtain ⟨above, below⟩ := mem_range'_1.mp range
        refine ⟨⟨h, kept.table ▸ found⟩, ?_⟩
        simp only [update_self, mem_markDirty]
        have nonempty : n ≠ 0 := by omega
        rw [if_neg nonempty] at sized
        obtain ⟨touched, visited, offset⟩ :=
          unitStart_mem_forEachWriteUnit above below
            (sized ▸ Nat.lt_of_lt_of_le below (Nat.le_max_right _ _))
        exact .inr ⟨touched, visited, offset.symm⟩
      · obtain ⟨known, recorded⟩ := kept.recorded other unit before
        refine ⟨known, ?_⟩
        by_cases same : other.rel = hn.rel
        · simp only [same, update_self, mem_markDirty]
          exact .inl (same ▸ recorded)
        · simp only [update_of_ne same]
          exact recorded
    · exact ⟨kept.table, kept.recorded⟩

theorem drainDirtyUnits_reports {size : Nat} {recorded : List Nat} (perm : order.Perm recorded)
    (reads : readsSucceed chunk features size hash recorded = true)
    (few : maxPer chunk < 2 ^ 16 ∨ recorded.length < 2 ^ 16) :
    ∃ units, drainDirtyUnits chunk features (.ok size) hash order = .ok units ∧
      ∀ unit ∈ recorded, unit < size → unit ∈ (fsyncFrames chunk units).flatten.map
          (UnitHash.offset chunk) := by
  have readsOrder : readsSucceed chunk features size hash order = true := by
    simp only [readsSucceed, all_eq_true] at reads ⊢
    exact fun unit mem => reads unit (perm.subset mem)
  obtain ⟨units, done, short, complete⟩ := hashDirty_ok readsOrder
  have whole : (fsyncFrames chunk units).flatten = units := by
    apply fsyncFrames_flatten
    have same := perm.length_eq
    omega
  refine ⟨units, ?_, ?_⟩
  · unfold drainDirtyUnits
    split_ifs with empty
    · rw [isEmpty_iff.mp empty] at done
      exact done
    · exact done
  · intro unit mem inFile
    obtain ⟨reported, among, offset, _⟩ := complete unit (perm.symm.subset mem) inFile
    rw [whole]
    exact mem_map.mpr ⟨reported, among, offset⟩

theorem Kept.handleFSync {next : DeferServer} (single : OneFile handles)
    (kept : Kept handles server)
    (reportable : server.Reportable chunk features (.fsync h syncErr statErr hash order))
    (taken : server.handleFSync chunk features h syncErr statErr hash order = some next) :
    Kept handles next := by
  unfold DeferServer.handleFSync at taken
  cases found : server.handles h with
  | none =>
    simp only [found, Option.some.injEq] at taken
    exact taken ▸ kept
  | some hn =>
    simp only [found] at taken
    simp only [Reportable, found] at reportable
    split_ifs at taken with failed perm
    · cases taken
      exact kept
    have permuted := isPerm_iff.mp perm
    simp only [Bool.or_eq_true, not_or] at failed
    -- Only the entries of this path are affected, and all of them are of
    -- the file behind this handle.
    have mine : ∀ other unit, (other, unit) ∈ server.owed →
        other.rel = hn.rel → other = hn ∧ unit ∈ server.dirty hn.rel := by
      intro other unit mem same
      obtain ⟨⟨owner, known⟩, recorded⟩ := kept.recorded other unit mem
      have file := single owner h other hn known (kept.table ▸ found) same
      refine ⟨?_, same ▸ recorded⟩
      cases other
      cases hn
      simp only at same file
      rw [same, file]
    have others : ∀ other unit, (other, unit) ∈ server.owed →
        other.rel ≠ hn.rel → (∃ owner, handles owner = some other) ∧
          unit ∈ update server.dirty hn.rel [] other.rel := by
      intro other unit mem ne
      rw [update_of_ne ne]
      exact kept.recorded other unit mem
    rcases reportable with refused | empty | ⟨stat, _, reads, few⟩
    · exact absurd refused failed.1
    · -- Nothing is recorded, so nothing of this path is owed.
      have absent : ∀ other unit, (other, unit) ∈ server.owed → other.rel ≠ hn.rel := by
        intro other unit mem same
        have recorded := (mine other unit mem same).2
        rw [empty] at recorded
        cases recorded
      split at taken
      · cases taken
        exact ⟨kept.table, fun other unit mem =>
          others other unit mem (absent other unit mem)⟩
      · cases taken
        refine ⟨kept.table, fun other unit mem => ?_⟩
        have before := (mem_filter.mp mem).1
        exact others other unit before (absent other unit before)
    · obtain ⟨units, drained, complete⟩ := drainDirtyUnits_reports permuted reads few
      have statOk : statErr = none := by simpa using stat
      subst statOk
      simp only [drained, Option.some.injEq] at taken
      subst taken
      refine ⟨kept.table, fun other unit mem => ?_⟩
      obtain ⟨before, unsettled⟩ := mem_filter.mp mem
      apply others other unit before
      intro same
      obtain ⟨rfl, recorded⟩ := mine other unit before same
      simp only [settled, decide_true, Bool.true_and, Bool.not_eq_true',
        Bool.or_eq_false_iff, decide_eq_false_iff_not] at unsettled
      exact unsettled.2 (complete unit recorded (Nat.lt_of_not_le unsettled.1))

/-- No unit is lost in a run of reportable writes. -/
theorem neverLost_of_reportable (Errno Hash : Type) (size : Nat → Nat) (single : OneFile handles) :
    NeverLost chunk features Errno Hash (Reportable chunk features) handles size := by
  intro events final along reached
  have preserved : ∀ server (event : DeferEvent Errno Hash) next,
      Kept handles server → server.Reportable chunk features event →
      server.step chunk features event = some next → Kept handles next := by
    intro server event next kept reportable taken
    cases event with
    | write h off n writeErr statErr =>
      cases taken
      exact kept.handleWrite reportable
    | fsync h syncErr statErr hash order =>
      exact kept.handleFSync single reportable taken
    | resize file bytes =>
      cases taken
      exact ⟨kept.table, kept.recorded⟩
  exact (run_invariant preserved (kept_start size) along reached).noneLost

/-- One handle on one file. -/
def oneHandle : Nat → Option BsHandle
  | 1 => some { rel := "f", file := 0 }
  | _ => none

theorem oneHandle_oneFile : OneFile oneHandle := by
  have only : ∀ h hn, oneHandle h = some hn → hn.file = 0 := by
    intro h hn found
    unfold oneHandle at found
    split at found <;> cases found
    rfl
  intro h other hn found first second _
  rw [only h hn first, only other found second]

/-- Digests of sub-blocks, deferred to the next fsync. -/
def deferFeatures : Features :=
  { subBlockHash := true
    deferHash := true
    subBlockFill := false
    fillHashes := fun fill => by cases fill }

/-- Two units are written and reported by an fsync that first fails. -/
def reportedRun : List (DeferEvent Nat Nat) :=
  [.write 1 4090 10 none none,
    .fsync 1 (some 5) none (fun _ _ => .ok 0) [],
    .fsync 1 none none (fun unit _ => .ok unit) [4096, 0],
    .write 1 0 3 none none]

theorem reportedRun_noneLost :
    ∃ final, run (step onePage deferFeatures) (start oneHandle fun _ => 0)
        reportedRun = some final ∧ final.NoneLost ∧
      final.owed.length = 3 ∧ final.dirty "f" = [0] := by
  have observed : (run (step onePage deferFeatures)
      (start oneHandle fun _ => 0) reportedRun).map (fun final =>
        (final.owed.length, final.dirty "f")) = some (3, [0]) := by
    decide +kernel
  obtain ⟨final, reached, seen⟩ := Option.map_eq_some_iff.mp observed
  simp only [Prod.mk.injEq] at seen
  have along : Along (step onePage deferFeatures)
      (Reportable onePage deferFeatures) (start oneHandle fun _ => 0)
      reportedRun := by
    refine ⟨⟨.inr ⟨rfl, rfl⟩, by decide⟩, fun _ taken => ?_⟩
    obtain rfl := Option.some.inj taken
    refine ⟨.inl rfl, fun _ taken => ?_⟩
    obtain rfl := Option.some.inj taken
    refine ⟨.inr (.inr ⟨rfl, by decide, by decide +kernel, .inl (by decide)⟩),
      fun _ _ => ⟨⟨.inr ⟨rfl, rfl⟩, by decide⟩, fun _ _ => trivial⟩⟩
  exact ⟨final, reached, neverLost_of_reportable Nat Nat (fun _ => 0)
    oneHandle_oneFile reportedRun final along reached, seen.1, seen.2⟩

/-- A page is written and the next fsync cannot stat the file. -/
def statFailedRun : List (DeferEvent Nat Nat) :=
  [.write 1 0 4096 none none, .fsync 1 none (some 5) (fun _ _ => .ok 0) [0]]

/-- The failed fsync has already removed the set. -/
theorem statFailed_not_neverLost :
    ¬NeverLost onePage deferFeatures Nat Nat (fun _ _ => True) oneHandle fun _ => 0 := by
  intro never
  have observed : (run (step onePage deferFeatures)
      (start oneHandle fun _ => 0) statFailedRun).map (fun final =>
        (final.owed.head?, final.dirty "f", final.size 0)) =
        some (some ({ rel := "f", file := 0 }, 0), [], 4096) := by
    decide +kernel
  obtain ⟨final, reached, seen⟩ := Option.map_eq_some_iff.mp observed
  simp only [Prod.mk.injEq] at seen
  obtain ⟨owed, empty, size⟩ := seen
  have lost := never statFailedRun final (Along.of_events fun _ _ => trivial)
    reached _ _ (mem_of_head? owed)
  simp only [empty, size] at lost
  exact absurd lost (by decide)

end DeferServer

end Cornus.Wire
